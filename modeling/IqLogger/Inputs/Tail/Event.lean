import Mathlib.Data.List.Basic

/-!
# Events of the tail input

What the inotify server tells a monitor: a file was created, modified, moved away
or deleted, or was found when a directory was first scanned. A file that was
moved to a name is reported as created under it.
-/

namespace IqLogger

namespace Tail

/-- `TailSource`: the file, and the symbolic link it was reached by. -/
structure TailSource where
  filename : String
  symlinkFilename : Option String := none
  deriving DecidableEq, Repr

/-- `Event::EventType`. -/
inductive EventType where
  | unknown : EventType
  /-- `_INIT`: found by the scan of a directory. -/
  | init : EventType
  | create : EventType
  | modify : EventType
  | move : EventType
  | delete : EventType
  deriving DecidableEq, Repr

/-- `Event`. -/
structure Event where
  watchDescriptor : ℕ
  eventType : EventType
  source : TailSource
  deriving DecidableEq, Repr

/-- The kernel's `IN_MODIFY`, `IN_MOVED_FROM`, `IN_MOVED_TO`, `IN_CREATE`,
`IN_DELETE` and `IN_ISDIR`. -/
inductive Mask where
  | modify : Mask
  | movedFrom : Mask
  | movedTo : Mask
  | create : Mask
  | delete : Mask
  /-- `IN_CREATE | IN_ISDIR`. -/
  | createDirectory : Mask
  /-- Every other mask. -/
  | other : Mask
  deriving DecidableEq, Repr

/-- The type of the event `end_read` makes of a mask, if it makes one. -/
def Mask.eventType : Mask → Option EventType
  | modify => some .modify
  | movedFrom => some .move
  | movedTo => some .create
  | create => some .create
  | delete => some .delete
  | createDirectory => some .create
  | other => none

end Tail

end IqLogger
