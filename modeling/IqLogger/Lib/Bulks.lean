import Mathlib.Algebra.BigOperators.Group.Finset.Piecewise
import Mathlib.Algebra.Order.Group.Multiset
import Mathlib.Data.Fintype.BigOperators

/-!
# Workers that take bulks from a queue

Workers share a queue. Each takes a bulk from its front, handles the items of the bulk in
order, and then takes the next one; a worker can also leave, and then what it still had in
hand is gone. Between two steps of one worker the others make theirs, so that the order in
which items are handled is not that of the queue.

What is left to be done is `Bulks.pending`, in no order: it grows by what is put into the
queue, a bulk that is taken leaves it alone, and an item that is handled leaves it
(`Bulks.pending_advance`).
-/

/-- **Only one share of a sum changes** when a family is changed in one place. -/
theorem Finset.sum_apply_update {κ α M : Type*} [Fintype κ] [DecidableEq κ] [AddCommMonoid M]
    (f : κ → α → M) (g : κ → α) (w : κ) (a : α) :
    ∃ rest, ∑ v, f v (g v) = f w (g w) + rest ∧
      ∑ v, f v (Function.update g w a v) = f w a + rest := by
  refine ⟨∑ v ∈ Finset.univ.erase w, f v (g v),
    (Finset.add_sum_erase _ _ (Finset.mem_univ w)).symm, ?_⟩
  rw [← Finset.add_sum_erase _ _ (Finset.mem_univ w), Function.update_self]
  refine congrArg _ (Finset.sum_congr rfl fun v hv => ?_)
  rw [Function.update_of_ne (Finset.ne_of_mem_erase hv)]

/-- The items in a queue, and for each worker what is left of its bulk; a worker that has
left has none. -/
structure Bulks (κ ε : Type*) where
  queue : List ε
  bulk : κ → Option (List ε)

namespace Bulks

variable {κ ε : Type*}

/-- All workers are there, with nothing in hand. -/
def start (queue : List ε) : Bulks κ ε := ⟨queue, fun _ => some []⟩

section Operations

variable (b : Bulks κ ε)

/-- Items are put into the queue. -/
def put (items : List ε) : Bulks κ ε := { b with queue := b.queue ++ items }

/-- The item a worker handles next. -/
def current (w : κ) : Option ε := (b.bulk w).bind List.head?

/-- All workers leave. -/
def leaveAll : Bulks κ ε := { b with bulk := fun _ => none }

variable [DecidableEq κ]

/-- A worker takes a bulk of `n` items, or as many as there are. -/
def take (w : κ) (n : ℕ) : Bulks κ ε where
  queue := b.queue.drop n
  bulk := Function.update b.bulk w (some (b.queue.take n))

/-- A worker is done with an item. -/
def advance (w : κ) : Bulks κ ε :=
  { b with bulk := Function.update b.bulk w ((b.bulk w).map List.tail) }

/-- A worker leaves. -/
def leave (w : κ) : Bulks κ ε := { b with bulk := Function.update b.bulk w none }

end Operations

/-! ### What is pending -/

/-- What a worker with a bulk has in hand. -/
def inHand (bulk : Option (List ε)) : Multiset ε := ↑(bulk.getD [])

@[simp] theorem inHand_none : inHand (none : Option (List ε)) = 0 := rfl

@[simp] theorem inHand_some (xs : List ε) : inHand (some xs) = ↑xs := rfl

section Current

variable {b : Bulks κ ε} {w : κ} {x : ε}

/-- The bulk of a worker that has an item to handle. -/
theorem current_eq_some : b.current w = some x ↔ ∃ xs, b.bulk w = some (x :: xs) := by
  rw [current, Option.bind_eq_some_iff]
  constructor
  · rintro ⟨xs, hxs, hx⟩
    obtain ⟨ys, rfl⟩ := List.head?_eq_some_iff.mp hx
    exact ⟨ys, hxs⟩
  · rintro ⟨xs, hxs⟩
    exact ⟨_, hxs, rfl⟩

end Current

section Pending

variable [Fintype κ]

/-- What is in the queue or in the hands of a worker. -/
def pending (b : Bulks κ ε) : Multiset ε := ↑b.queue + ∑ w, inHand (b.bulk w)

@[simp] theorem pending_start (queue : List ε) : (start queue : Bulks κ ε).pending = ↑queue := by
  simp [pending, start]

@[simp] theorem pending_put (b : Bulks κ ε) (items : List ε) :
    (b.put items).pending = b.pending + ↑items := by
  rw [pending, pending, put, ← Multiset.coe_add, add_assoc, add_assoc,
    add_comm (↑items : Multiset ε)]

/-- **Nothing is pending** when the queue is empty and no worker has an item to handle. -/
theorem pending_eq_zero (b : Bulks κ ε) (hqueue : b.queue = []) (h : ∀ w, b.current w = none) :
    b.pending = 0 := by
  have hhand : ∀ w, inHand (b.bulk w) = 0 := by
    intro w
    have hw := h w
    rw [current] at hw
    cases hbulk : b.bulk w with
    | none => rfl
    | some xs =>
      rw [hbulk, Option.bind_some, List.head?_eq_none_iff] at hw
      rw [hw, inHand_some, Multiset.coe_nil]
  rw [pending, hqueue, Finset.sum_eq_zero fun w _ => hhand w, Multiset.coe_nil, add_zero]

variable [DecidableEq κ] {b : Bulks κ ε} {w : κ} {x : ε}

/-- **Taking a bulk does nothing yet.** -/
theorem pending_take (hw : b.bulk w = some []) (n : ℕ) : (b.take w n).pending = b.pending := by
  obtain ⟨rest, hold, hnew⟩ :=
    Finset.sum_apply_update (fun _ => inHand) b.bulk w (some (b.queue.take n))
  have hqueue : (↑b.queue : Multiset ε) = ↑(b.queue.drop n) + ↑(b.queue.take n) := by
    rw [add_comm, Multiset.coe_add, List.take_append_drop]
  rw [pending, pending, take, hold, hnew, hw, hqueue, inHand_some, inHand_some, Multiset.coe_nil,
    zero_add, add_assoc]

/-- **An item that is handled is no longer pending**, and all others are. -/
theorem pending_advance (h : b.current w = some x) :
    b.pending = x ::ₘ (b.advance w).pending := by
  obtain ⟨xs, hxs⟩ := current_eq_some.mp h
  obtain ⟨rest, hold, hnew⟩ := Finset.sum_apply_update (fun _ => inHand) b.bulk w (some xs)
  rw [pending, pending, advance, hxs, Option.map_some, List.tail_cons, hold, hnew, hxs]
  rw [inHand_some, inHand_some, ← Multiset.cons_coe, Multiset.cons_add, Multiset.add_cons]

/-- **A worker that leaves with its last item** takes nothing else with it. -/
theorem pending_leave (h : b.bulk w = some [x]) : b.pending = x ::ₘ (b.leave w).pending := by
  obtain ⟨rest, hold, hnew⟩ := Finset.sum_apply_update (fun _ => inHand) b.bulk w none
  rw [pending, pending, leave, hold, hnew, h]
  simp [Multiset.singleton_add]

theorem mem_pending_of_current (h : b.current w = some x) : x ∈ b.pending := by
  rw [pending_advance h]
  exact Multiset.mem_cons_self ..

end Pending

end Bulks
