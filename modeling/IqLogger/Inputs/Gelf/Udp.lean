import Mathlib.Data.List.AList
import IqLogger.Core.Base
import IqLogger.Lib.OrderedMap

/-!
# The GELF input over UDP

The three places a datagram passes through: `udp_session::process` cuts the
session buffer to what was received and tells a chunk from a whole message by
its first two bytes, the constructor of `GelfChunk` reads the chunk header, and
the thread started by `GelfInput::startImpl` collects the chunks of each message
id in `chunkMap` and hands the concatenation on once a group is complete.

The chunk thread is a loop over iterations (`IqLogger.Gelf.Iteration`): a bulk
dequeue, the chunks of the bulk one after the other
(`IqLogger.Gelf.ChunkLoop.handleChunk`), then the removal of the groups older
than the TTL (`IqLogger.Gelf.ChunkLoop.sweep`). The readings of the steady clock
are part of an iteration: one for each chunk, used when the chunk opens a group,
and one for the sweep.
-/

namespace IqLogger

namespace Gelf

/-- The value of `GelfException::what()`; the class carries nothing else. -/
structure GelfException where
  what : String
  deriving DecidableEq, Repr

/-! ### One datagram -/

/-- A parsed chunk: message id, sequence number, sequence count, the piece of
the message it carries, and where it came from. -/
structure GelfChunk where
  messageId : Bytes
  sequenceNumber : ℕ
  sequenceCount : ℕ
  chunk : Bytes
  source : Endpoint
  deriving DecidableEq, Repr

/-- The constructor of `GelfChunk`. The two magic bytes are skipped one by one,
and the second only after the first. -/
def GelfChunk.parse (chunk : Bytes) (source : Endpoint) : Except GelfException GelfChunk :=
  if chunk.length ≤ 12 then
    .error ⟨"Chunk length less than 12 bytes!"⟩
  else
    let it := if chunk[0]? = some 0x1e then (if chunk[1]? = some 0x0f then 2 else 1) else 0
    let it2 := it + 8
    .ok {
      messageId := substr chunk it 8
      sequenceNumber := sizeOfChar (chunk[it2]?.getD 0)
      sequenceCount := sizeOfChar (chunk[it2 + 1]?.getD 0)
      chunk := chunk.drop (it2 + 2)
      source := source }

/-- A record of the input queue: the name of the input, the data and the
source. -/
structure InputRecord where
  input : String
  data : Bytes
  source : Endpoint
  deriving DecidableEq, Repr

/-- The two queues a datagram can end in. -/
structure ServerQueues where
  records : List InputRecord
  chunks : List GelfChunk
  deriving DecidableEq, Repr

/-- The size of a session buffer. -/
def bufferSize : ℕ := 4096

/-- A session buffer, `std::array<char, buffer_size>`. -/
abbrev SessionBuffer := { m : Bytes // m.length = bufferSize }

/-- `udp_session::process`, on a session buffer of which the first
`bytesTransferred` bytes were received from `remoteEndpoint`. Both enqueues
append at the end; an exception is logged and the datagram dropped. -/
def process (name : String) (buffer : SessionBuffer) (bytesTransferred : ℕ)
    (remoteEndpoint : Endpoint) (q : ServerQueues) : ServerQueues :=
  let buff := buffer.1.take (min buffer.1.length bytesTransferred)
  if buff.length ≤ 2 then
    q
  else if buff[0]? = some 0x1e ∧ buff[1]? = some 0x0f then
    match GelfChunk.parse buff remoteEndpoint with
    | .ok chunkPtr => { q with chunks := q.chunks ++ [chunkPtr] }
    | .error _ => q
  else
    { q with records := q.records ++ [⟨name, buff, remoteEndpoint⟩] }

/-! ### The chunk loop -/

/-- A reading of the steady clock, in nanoseconds. -/
abbrev TimePoint := ℕ

/-- `std::chrono::duration_cast<std::chrono::seconds>(now - time).count()`. -/
def secondsSince (now time : TimePoint) : ℕ := (now - time) / 10 ^ 9

/-- The chunks received so far for one message id, under their numbers, the
count the first of them gave, and when that one was received. -/
structure ChunkedMessage where
  chunks : OrderedMap ℕ GelfChunk
  size : ℕ
  time : TimePoint

/-- The state of the chunk thread: the open groups by message id, the records it
has handed to `m_inputQueuePtr->enqueue`, and the counter of expired groups. -/
structure ChunkLoop where
  chunkMap : AList (fun _ : Bytes => ChunkedMessage)
  enqueued : List InputRecord
  badChunks : ℕ

/-- The thread before its first iteration. -/
def ChunkLoop.start : ChunkLoop := ⟨∅, [], 0⟩

/-- `totalMessage`: the pieces of a group, in ascending number order. -/
def totalMessage (chunks : OrderedMap ℕ GelfChunk) : Bytes :=
  (chunks.values.map GelfChunk.chunk).flatten

namespace ChunkLoop

variable (name : String) (ttl : ℕ)

/-- The body of the loop over a bulk, for one chunk: the two range checks, then
a later chunk of an open group or the first chunk of a new one. -/
def handleChunk (now : TimePoint) (c : GelfChunk) (s : ChunkLoop) : ChunkLoop :=
  if c.sequenceCount > 128 then
    s
  else if c.sequenceNumber ≥ c.sequenceCount then
    s
  else
    match s.chunkMap.lookup c.messageId with
    | some messagePtr =>
      if messagePtr.size ≠ c.sequenceCount then
        s
      else
        let messagePtr := { messagePtr with chunks := messagePtr.chunks.set c.sequenceNumber c }
        if messagePtr.chunks.size = messagePtr.size then
          { s with
            chunkMap := s.chunkMap.erase c.messageId
            enqueued := s.enqueued ++
              (messagePtr.chunks.values.head?.map fun first =>
                ⟨name, totalMessage messagePtr.chunks, first.source⟩).toList }
        else
          -- the group is shared, so writing to it is writing to the map
          { s with chunkMap := s.chunkMap.insert c.messageId messagePtr }
    | none =>
      let messagePtr : ChunkedMessage :=
        ⟨OrderedMap.empty.set c.sequenceNumber c, c.sequenceCount, now⟩
      { s with chunkMap := s.chunkMap.insert c.messageId messagePtr }

/-- The loop over a bulk. Every chunk comes with the reading of the clock taken
when it opens a group. -/
def handleBulk (bulk : List (GelfChunk × TimePoint)) (s : ChunkLoop) : ChunkLoop :=
  bulk.foldl (fun s c => handleChunk name c.2 c.1 s) s

/-- Whether the sweep at `now` removes a group. -/
def Expired (now : TimePoint) (g : ChunkedMessage) : Prop := ttl ≤ secondsSince now g.time

instance (now : TimePoint) (g : ChunkedMessage) : Decidable (Expired ttl now g) :=
  inferInstanceAs (Decidable (_ ≤ _))

/-- The loop over `chunkMap` after every bulk: expired groups are erased and
counted. -/
def sweep (now : TimePoint) (s : ChunkLoop) : ChunkLoop :=
  let expired := s.chunkMap.entries.filter fun e => Expired ttl now e.2
  { s with
    chunkMap := expired.foldl (fun m e => m.erase e.1) s.chunkMap
    badChunks := s.badChunks + expired.length }

end ChunkLoop

/-- One iteration of the chunk thread: the chunks of a bulk dequeue, possibly
none, with the clock readings. -/
structure Iteration where
  bulk : List (GelfChunk × TimePoint)
  now : TimePoint

/-- The chunks an execution of the thread dequeues, in order. -/
def dequeued (run : List Iteration) : List GelfChunk :=
  run.flatMap fun it => it.bulk.map Prod.fst

namespace ChunkLoop

variable (name : String) (ttl : ℕ)

/-- The body of the thread's `while`. -/
def iterate (s : ChunkLoop) (it : Iteration) : ChunkLoop :=
  (s.handleBulk name it.bulk).sweep ttl it.now

/-- The thread over any number of iterations. -/
def run (its : List Iteration) (s : ChunkLoop) : ChunkLoop :=
  its.foldl (iterate name ttl) s

/-- **No group reaches its TTL** in the course of an execution: no sweep finds
an expired group. -/
def NoneExpires : List Iteration → ChunkLoop → Prop
  | [], _ => True
  | it :: its, s =>
    (∀ e ∈ (s.handleBulk name it.bulk).chunkMap.entries, ¬Expired ttl it.now e.2) ∧
      NoneExpires its (s.iterate name ttl it)

instance NoneExpires.decidable : (its : List Iteration) → (s : ChunkLoop) →
    Decidable (NoneExpires name ttl its s)
  | [], _ => inferInstanceAs (Decidable True)
  | _ :: its, s => @instDecidableAnd _ _ _ (NoneExpires.decidable its (s.iterate name ttl _))

end ChunkLoop

end Gelf

end IqLogger
