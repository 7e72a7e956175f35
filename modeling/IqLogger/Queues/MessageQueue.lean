import IqLogger.Lib.Nlohmann
import Mathlib.Data.List.Perm.Subperm

/-!
# The message queue

`MessageQueue` puts a bound on a queue that has none of its own: a call of `enqueue` or
`enqueue_bulk` first looks at the size, and only if that is below `max_queue_size` does
it push. What happens to a call that finds the queue full is up to the overflow strategy
(`IqLogger.MessageQueue.checkSize`): it waits, or its items are dropped.

Looking at the size and pushing are two steps, between which other threads make theirs;
they are told apart in the model of its producers (`IqLogger.Producers.step`).

The queue underneath is kept as a list. It does not keep the order of items from
different threads, and so what a consumer gets may be any items of it
(`IqLogger.MessageQueue.take`). The counters are natural numbers: `size_t` has 64 bits,
and no program counts that far.

How the queue of an input is made from its part of the configuration is read off
`SourceConfig` (`IqLogger.SourceConfig.from_json`).
-/

namespace IqLogger

open Nlohmann (Value)

/-! ### The configuration of a queue -/

/-- `QueueOverflowStrategy::Type`. -/
inductive OverflowStrategy
  | undefined
  | throttle
  | drop
  deriving DecidableEq, Repr

/-- What is thrown while a configuration is read. -/
inductive ConfigFailure
  /-- An exception of the JSON library. -/
  | json (e : Nlohmann.Exception) : ConfigFailure
  /-- `std::out_of_range`, from a map that has no such key. -/
  | outOfRange : ConfigFailure
  deriving DecidableEq, Repr

namespace OverflowStrategy

/-- `s_strategy_from_str_map`. -/
def strategyFromStrMap : List (Bytes × OverflowStrategy) :=
  [(ascii "undefined", undefined), (ascii "throttle", throttle), (ascii "drop", drop)]

/-- `strategy_from_str`. -/
def strategy_from_str (name : Bytes) : Except ConfigFailure OverflowStrategy :=
  match strategyFromStrMap.lookup name with
  | some strategy => pure strategy
  | none => throw .outOfRange

/-- `from_json`: only the exceptions of the JSON library are caught, so that a value
that is no string is `undefined`, and a string that is no strategy is thrown on. -/
def from_json (j : Value) : Except ConfigFailure OverflowStrategy :=
  match j.getString with
  | .ok str => strategy_from_str str
  | .error _ => pure undefined

end OverflowStrategy

/-- `SourceConfig`. -/
structure SourceConfig (InputType : Type) where
  name : Bytes
  type : InputType
  threads : UInt64
  max_queue_size : UInt64
  overflow_strategy : OverflowStrategy
  params : List (Bytes × Value)

namespace SourceConfig

section FromJson

variable {InputType : Type} (input_type_from_str : Bytes → Option InputType)
  (undefinedType : InputType) (toSize : Float → UInt64)

/-- `at`. -/
def atKey (j : Value) (key : String) : Except ConfigFailure Value :=
  match j with
  | .object members =>
    match members.lookup (ascii key) with
    | some value => pure value
    | none => throw (.json .outOfRange)
  | _ => throw (.json .typeError)

/-- `get<std::size_t>`. What becomes of a floating-point number that does not fit is left
open by the language. -/
def getSize (j : Value) : Except ConfigFailure UInt64 :=
  match j with
  | .integer n => pure (UInt64.ofInt n.toInt)
  | .unsigned n => pure n
  | .float d => pure (toSize d)
  | _ => throw (.json .typeError)

/-- `get<std::string>`. -/
def getName (j : Value) : Except ConfigFailure Bytes := j.getString.mapError .json

/-- `from_json` of an input type. The types are those the program is built with. -/
def getType (j : Value) : Except ConfigFailure InputType :=
  match j.getString with
  | .ok str =>
    match input_type_from_str str with
    | some type => pure type
    | none => throw .outOfRange
  | .error _ => pure undefinedType

/-- The names that are no parameters of the input. -/
def ownNames : List Bytes :=
  [ascii "name", ascii "type", ascii "threads", ascii "processor", ascii "max_queue_size",
    ascii "overflow_strategy"]

/-- The two settings of the queue: they are read one after the other into the defaults,
and the first exception of the JSON library ends that. -/
def queueSettings (j : Value) : Except ConfigFailure (UInt64 × OverflowStrategy) :=
  match (atKey j "max_queue_size").bind (getSize toSize) with
  | .error (.json _) => pure (10000, .throttle)
  | .error e => throw e
  | .ok max_queue_size =>
    match (atKey j "overflow_strategy").bind OverflowStrategy.from_json with
    | .error (.json _) => pure (max_queue_size, .throttle)
    | .error e => throw e
    | .ok overflow_strategy => pure (max_queue_size, overflow_strategy)

/-- `adl_serializer<SourceConfig>::from_json`. -/
def from_json (j : Value) : Except ConfigFailure (SourceConfig InputType) := do
  let name ← (atKey j "name").bind getName
  let type ← (atKey j "type").bind (getType input_type_from_str undefinedType)
  let threads ← (atKey j "threads").bind (getSize toSize)
  let settings ← queueSettings toSize j
  let params := match j with
    | .object members => members.filter fun member => member.1 ∉ ownNames
    | _ => []
  pure ⟨name, type, threads, settings.1, settings.2, params⟩

end FromJson

end SourceConfig

/-! ### The queue -/

/-- `MessageQueue`. -/
structure MessageQueue (T : Type) where
  items : List T
  max_queue_size : ℕ
  overflow_strategy : OverflowStrategy
  dropped : ℕ
  throttled : ℕ
  deriving DecidableEq

namespace MessageQueue

variable {T : Type}

/-- The queue as it is constructed. -/
def new (max_queue_size : ℕ) (overflow_strategy : OverflowStrategy) : MessageQueue T :=
  ⟨[], max_queue_size, overflow_strategy, 0, 0⟩

/-- The queue as it is constructed from its name alone. -/
def byName : MessageQueue T := new 10000 .throttle

/-- `m_inputQueuePtr`, as `Input` makes it. -/
def ofConfig {InputType : Type} (sourceConfig : SourceConfig InputType) : MessageQueue T :=
  new sourceConfig.max_queue_size.toNat sourceConfig.overflow_strategy

/-- `size_approx() >= m_max_queue_size`. -/
def isFull (q : MessageQueue T) : Bool := q.max_queue_size ≤ q.items.length

/-- What becomes of a call once it has looked at the size: it pushes its items, it
waits for room, or it returns `false`. -/
inductive Admission
  | pushes
  | waits
  | refused
  deriving DecidableEq, Repr

section Calls

variable (q : MessageQueue T)

/-- The branches on the size of the queue, for a call with `count` items. -/
def checkSize (count : ℕ) : Admission × MessageQueue T :=
  if q.isFull then
    match q.overflow_strategy with
    | .drop => (.refused, { q with dropped := q.dropped + count })
    | .throttle => (.waits, { q with throttled := q.throttled + count })
    -- nothing is counted here
    | .undefined => (.refused, q)
  else (.pushes, q)

/-- `enqueue_bulk`, up to the push. -/
def enqueue_bulk (items : List T) : Admission × MessageQueue T := q.checkSize items.length

/-- `enqueue`, up to the push. -/
def enqueue (_item : T) : Admission × MessageQueue T := q.checkSize 1

/-- The `enqueue_bulk` or `enqueue` of the queue underneath, which does not fail. -/
def push (items : List T) : MessageQueue T := { q with items := q.items ++ items }

/-- The `try_dequeue` or `try_dequeue_bulk` of the queue underneath, when it yields the
items `got`. -/
def take [DecidableEq T] (got : List T) : MessageQueue T := { q with items := q.items.diff got }

end Calls

section Lemmas

variable {q : MessageQueue T} (count : ℕ) (items : List T)

/-- The settings and the items of a queue are as before after a look at the size. -/
@[simp] theorem items_checkSize : (q.checkSize count).2.items = q.items := by
  rw [checkSize]
  split_ifs
  · cases q.overflow_strategy <;> rfl
  · rfl

@[simp] theorem max_queue_size_checkSize :
    (q.checkSize count).2.max_queue_size = q.max_queue_size := by
  rw [checkSize]
  split_ifs
  · cases q.overflow_strategy <;> rfl
  · rfl

@[simp] theorem overflow_strategy_checkSize :
    (q.checkSize count).2.overflow_strategy = q.overflow_strategy := by
  rw [checkSize]
  split_ifs
  · cases hstrategy : q.overflow_strategy <;> simp [hstrategy]
  · rfl

/-- A call pushes at once exactly when there is room. -/
theorem checkSize_eq_pushes :
    (q.checkSize count).1 = .pushes ↔ q.items.length < q.max_queue_size := by
  rw [checkSize, isFull]
  split_ifs with hfull
  · rw [decide_eq_true_eq] at hfull
    cases q.overflow_strategy <;> simpa using hfull
  · rw [decide_eq_true_eq] at hfull
    simpa using hfull

/-- What a look at the size adds to `m_dropped`: the items of a refused call, unless
the strategy is `undefined`. -/
theorem dropped_checkSize :
    (q.checkSize count).2.dropped =
      q.dropped + if (q.checkSize count).1 = .refused ∧ q.overflow_strategy ≠ .undefined then count
        else 0 := by
  rw [checkSize]
  split_ifs with hfull h h
  · cases hstrategy : q.overflow_strategy with
    | undefined => exact absurd hstrategy h.2
    | throttle => simp [hstrategy] at h
    | drop => rfl
  · cases hstrategy : q.overflow_strategy with
    | undefined => rfl
    | throttle => rfl
    | drop => exact absurd ⟨by simp [hstrategy], by simp [hstrategy]⟩ h
  · cases h.1
  · rfl

/-- A call is refused only by a full queue. -/
theorem isFull_of_refused (h : (q.checkSize count).1 = .refused) : q.isFull := by
  rw [checkSize] at h
  split_ifs at h with hfull
  exact hfull

/-- A call waits only if this is the strategy. -/
theorem throttle_of_waits (h : (q.checkSize count).1 = .waits) :
    q.overflow_strategy = .throttle := by
  rw [checkSize] at h
  split_ifs at h
  cases hstrategy : q.overflow_strategy with
  | undefined => simp [hstrategy] at h
  | throttle => rfl
  | drop => simp [hstrategy] at h

@[simp] theorem items_push : (q.push items).items = q.items ++ items := rfl

/-- What is taken and what stays is what there was. -/
theorem length_take [DecidableEq T] (h : items.Subperm q.items) :
    items.length + (q.take items).items.length = q.items.length := by
  rw [take, ← List.length_append]
  exact (List.subperm_append_diff_self_of_count_le
    (List.subperm_ext_iff.mp h)).length_eq

end Lemmas

end MessageQueue

end IqLogger
