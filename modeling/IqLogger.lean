import IqLogger.Inputs.Gelf.ChunkCount
import IqLogger.Inputs.Tail.Record
import IqLogger.Lib.Run
import IqLogger.Inputs.Tail.Segmentation
import IqLogger.Inputs.Tail.Boundaries
import IqLogger.Inputs.Tail.Checkpoint
import IqLogger.Inputs.Tail.Watch
import IqLogger.Inputs.Tail.WatchExceptions
import IqLogger.Inputs.Tail.Monitor
import IqLogger.Inputs.Tail.Rotation
import IqLogger.Inputs.Tail.Positions
import IqLogger.Lib.Fails
import IqLogger.Lib.Strto
import IqLogger.Formats.Base
import IqLogger.Formats.Gelf.Message
import IqLogger.Formats.Gelf.Failures
import IqLogger.Inputs.Input
import IqLogger.Inputs.Gelf.Import
import IqLogger.Inputs.Gelf.Provenance
import IqLogger.Inputs.Gelf.Tcp
import IqLogger.Outputs.Gelf.Tcp
import IqLogger.Inputs.Tail.EventFailures
import IqLogger.Inputs.Tail.FollowOnly
import IqLogger.Inputs.Tail.Truncation
import IqLogger.Inputs.Tail.SavedNames
import IqLogger.Inputs.Tail.Restarts
import IqLogger.Formats.Gelf.Dump
import IqLogger.Formats.Gelf.SetField
import IqLogger.Outputs.Gelf.Acceptance
import IqLogger.Queues.MessageQueue
import IqLogger.Queues.Producers
import IqLogger.Inputs.Tail.SharedTable
import IqLogger.Lib.ReusedBuffer
import IqLogger.Pipeline.Stages
import IqLogger.Outputs.Gelf.Escape
import IqLogger.Formats.Gelf.Soundness
import IqLogger.Formats.Gelf.Completeness
import IqLogger.Outputs.Gelf.Preservation
import IqLogger.Lib.Bulks
import IqLogger.Lib.FairRuns
import IqLogger.Inputs.Tail.Threads
import IqLogger.Inputs.Tail.ThreadRuns
import IqLogger.Pipeline.Threads
import IqLogger.Pipeline.Balance
import IqLogger.Pipeline.SavedPositions
import IqLogger.Pipeline.Stop
import IqLogger.Stats.Http.Versions
import IqLogger.Stats.Telegraf
import IqLogger.Outputs.OutputServer
import IqLogger.Outputs.Shutdown
import IqLogger.Queues.SourceKeys
import IqLogger.Core.Task
import IqLogger.Processor.JournalMessage
import IqLogger.Processor.Scripts
import IqLogger.Inputs.Tail.InotifyStream
import IqLogger.Inputs.Tail.CutNames
import IqLogger.Lib.Descent
import IqLogger.Inputs.Tail.Recursion
import IqLogger.Lib.EcmaScript
import IqLogger.Lib.TextPatterns
import IqLogger.Inputs.Tail.Patterns
import IqLogger.Lib.PercentEncoding
import IqLogger.Stats.Http.Reply
import IqLogger.Stats.Http.RequestHandler
import IqLogger.Stats.Http.Connection
import IqLogger.Metrics.MetricsController
import IqLogger.Outputs.Gelf.Relay
import IqLogger.Stats.Http.Server
import IqLogger.Lib.LineProtocol
import IqLogger.Stats.Exporter
import IqLogger.Processor.IsolateScope
import IqLogger.Inputs.JournalReader
import IqLogger.Metrics.Registrations
import IqLogger.Stats.DaemonExport
import IqLogger.Inputs.TcpServer
import IqLogger.Pipeline.Conservation
import IqLogger.Pipeline.Flow
import IqLogger.Pipeline.Accounts
import IqLogger.Lib.WaitingThreads
import IqLogger.Pipeline.Wedged
import IqLogger.Outputs.Gelf.JournalFields
import IqLogger.Inputs.Tail.WholeLines
import IqLogger.Outputs.Gelf.Lines
import IqLogger.Outputs.Gelf.Shipping
