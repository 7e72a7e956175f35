import Mathlib.Data.List.Basic

/-!
# Tasks

A `TaskInterface` has a flag that it is initialised and a flag that it is running, and the
three methods `init`, `start` and `stop` that exchange a flag and then call the virtual
method of the class, unless the flag had the value already; then they throw.

The virtual methods of a class call methods of other tasks in turn, or once more of the
same one. So what a thread has still to do is a list of calls (`IqLogger.TaskCall`): a
method that is entered puts the calls of the virtual method in front of those that are
left, and an exception leaves all of them.
-/

namespace IqLogger

/-- The methods of a `TaskInterface`. -/
inductive TaskMethod
  | init
  | start
  | stop
  deriving DecidableEq, Repr

/-- The flags of a `TaskInterface`. -/
structure TaskInterface where
  m_inited : Bool
  m_started : Bool
  deriving DecidableEq, Repr

namespace TaskInterface

/-- The flags of a new task. -/
def new : TaskInterface := ⟨false, false⟩

variable (t : TaskInterface)

/-- `init`, up to the call of `initImpl`: the flags, and the exception there is instead. -/
def init : TaskInterface × Option String :=
  if t.m_inited then (t, some "Init already inited task!")
  else ({ t with m_inited := true }, none)

/-- `start`, up to the call of `startImpl`: the flag is set even if the task is not
initialised. -/
def start : TaskInterface × Option String :=
  if t.m_started then (t, some "Start already started task!")
  else
    ({ t with m_started := true },
      if t.m_inited then none else some "Start not inited task!")

/-- `stop`, up to the call of `stopImpl`. -/
def stop : TaskInterface × Option String :=
  if t.m_started then ({ t with m_started := false }, none)
  else (t, some "Stop not started task!")

/-- A method, up to the call of the virtual one. -/
def enter : TaskMethod → TaskInterface × Option String
  | .init => t.init
  | .start => t.start
  | .stop => t.stop

end TaskInterface

/-- What a thread does that drives some tasks: it calls a method of one of them, or does
something else. -/
inductive TaskCall (τ α : Type)
  | call (method : TaskMethod) (task : τ)
  | action (a : α)

end IqLogger
