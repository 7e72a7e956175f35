import Mathlib.Data.List.Nodup
import Mathlib.Data.List.TakeWhile

/-!
# Loops that an exception leaves

A loop over a list, each step of which changes the state or throws. When it is left by
an exception the state is that before the step that threw, and a handler outside of the
loop goes on with it; so the result is the state and, maybe, the exception
(`Attempt.loop`).

Often it depends on the element alone whether a step throws. Then the loop does what it
would do for the elements before the first one that throws
(`Attempt.Decided.loop_takeWhile`). If moreover the elements have names, all of them
different, and some part of the state is set by the element of one name only, then that
part is what this element has set it to, or what it was at the start
(`Attempt.Decided.slot_loop`).
-/

namespace Attempt

universe u v w

variable {σ : Type u} {α : Type v} {ε : Type w}

/-- The loop: the state it is left in, and the exception if there is one. -/
def loop (step : σ → α → Except ε σ) : σ → List α → σ × Option ε
  | s, [] => (s, none)
  | s, a :: l =>
    match step s a with
    | .ok s' => loop step s' l
    | .error e => (s, some e)

variable {step : σ → α → Except ε σ}

theorem loop_cons_ok {s s' : σ} {a : α} (h : step s a = .ok s') (l : List α) :
    loop step s (a :: l) = loop step s' l := by
  rw [loop, h]

theorem loop_cons_error {s : σ} {a : α} {e : ε} (h : step s a = .error e) (l : List α) :
    loop step s (a :: l) = (s, some e) := by
  rw [loop, h]

/-- **What every step keeps the loop keeps**, also if it is left. -/
theorem loop_invariant {P : σ → Prop} (l : List α)
    (hstep : ∀ a ∈ l, ∀ s s', P s → step s a = .ok s' → P s') {s : σ} (hs : P s) :
    P (loop step s l).1 := by
  induction l generalizing s with
  | nil => exact hs
  | cons a l ih =>
    cases h : step s a with
    | ok s' =>
      rw [loop_cons_ok h]
      exact ih (fun b hb => hstep b (List.mem_cons_of_mem _ hb))
        (hstep a List.mem_cons_self s s' hs h)
    | error e =>
      rw [loop_cons_error h]
      exact hs

/-- Every exception that leaves the loop was thrown by one of its steps. -/
theorem loop_error {s : σ} {l : List α} {e : ε} (h : (loop step s l).2 = some e) :
    ∃ s', ∃ a ∈ l, step s' a = .error e := by
  induction l generalizing s with
  | nil => cases h
  | cons a l ih =>
    cases hstep : step s a with
    | ok s' =>
      rw [loop_cons_ok hstep] at h
      obtain ⟨s'', b, hb, herror⟩ := ih h
      exact ⟨s'', b, List.mem_cons_of_mem _ hb, herror⟩
    | error e' =>
      rw [loop_cons_error hstep] at h
      cases h
      exact ⟨s, a, List.mem_cons_self, hstep⟩

/-- Whether a step throws depends on the element. -/
def Decided (step : σ → α → Except ε σ) (accepts : α → Bool) : Prop :=
  ∀ s a, accepts a ↔ ∃ s', step s a = .ok s'

namespace Decided

variable {accepts : α → Bool} (h : Decided step accepts)

include h

theorem exists_ok {a : α} (ha : accepts a) (s : σ) : ∃ s', step s a = .ok s' := (h s a).mp ha

theorem exists_error {a : α} (ha : ¬accepts a) (s : σ) : ∃ e, step s a = .error e := by
  cases hstep : step s a with
  | ok s' => exact absurd ((h s a).mpr ⟨s', hstep⟩) ha
  | error e => exact ⟨e, rfl⟩

/-- **The loop gets to its end when no element throws.** -/
theorem loop_eq_none_iff {s : σ} {l : List α} : (loop step s l).2 = none ↔ ∀ a ∈ l, accepts a := by
  induction l generalizing s with
  | nil => simp [loop]
  | cons a l ih =>
    rw [List.forall_mem_cons]
    by_cases ha : accepts a
    · obtain ⟨s', hstep⟩ := h.exists_ok ha s
      rw [loop_cons_ok hstep, ih, and_iff_right ha]
    · obtain ⟨e, hstep⟩ := h.exists_error ha s
      rw [loop_cons_error hstep]
      simp [ha]

/-- **The state is the one after the elements that do not throw.** -/
theorem loop_takeWhile (s : σ) (l : List α) :
    (loop step s l).1 = (loop step s (l.takeWhile accepts)).1 := by
  induction l generalizing s with
  | nil => rfl
  | cons a l ih =>
    by_cases ha : accepts a
    · obtain ⟨s', hstep⟩ := h.exists_ok ha s
      rw [List.takeWhile_cons_of_pos ha, loop_cons_ok hstep, loop_cons_ok hstep, ih]
    · obtain ⟨e, hstep⟩ := h.exists_error ha s
      rw [List.takeWhile_cons_of_neg ha, loop_cons_error hstep]
      rfl

end Decided

/-! ### Named elements -/

variable {ν : Type v} {β : Type v} [BEq ν] [LawfulBEq ν] [DecidableEq ν] {γ : Type*}

/-- A part of the state that only the element of one name sets. -/
def Slot (step : σ → ν × β → Except ε σ) (part : σ → γ) (name : ν) (value : β → Option γ) : Prop :=
  ∀ s s' a, step s a = .ok s' →
    part s' = if a.1 = name then (value a.2).getD (part s) else part s

/-- After a loop that no element leaves. -/
theorem Decided.slot_loop_of_forall {step : σ → ν × β → Except ε σ} {accepts : ν × β → Bool}
    (h : Decided step accepts) {part : σ → γ} {name : ν} {value : β → Option γ}
    (hslot : Slot step part name value) (s : σ) {l : List (ν × β)} (hall : ∀ a ∈ l, accepts a)
    (hnodup : (l.map Prod.fst).Nodup) :
    part (loop step s l).1 = ((l.lookup name).bind value).getD (part s) := by
  induction l generalizing s with
  | nil => rfl
  | cons a l ih =>
    rw [List.forall_mem_cons] at hall
    rw [List.map_cons, List.nodup_cons] at hnodup
    obtain ⟨s', hstep⟩ := h.exists_ok hall.1 s
    rw [loop_cons_ok hstep, ih s' hall.2 hnodup.2, hslot s s' a hstep, List.lookup_cons]
    by_cases hname : a.1 = name
    · -- the name does not occur again
      have hrest : l.lookup name = none := by
        refine List.lookup_eq_none_iff.mpr fun b hb => ?_
        have hne : name ≠ b.1 := fun hc => hnodup.1 (by
          rw [hname, hc]
          exact List.mem_map_of_mem hb)
        simpa using hne
      rw [hrest, if_pos hname, beq_iff_eq.mpr hname.symm]
      rfl
    · rw [if_neg hname, beq_false_of_ne (Ne.symm hname)]

/-- **What a part of the state is after the loop.** -/
theorem Decided.slot_loop {step : σ → ν × β → Except ε σ} {accepts : ν × β → Bool}
    (h : Decided step accepts) {part : σ → γ} {name : ν} {value : β → Option γ}
    (hslot : Slot step part name value) (s : σ) (l : List (ν × β))
    (hnodup : (l.map Prod.fst).Nodup) :
    part (loop step s l).1 =
      (((l.takeWhile accepts).lookup name).bind value).getD (part s) := by
  have htake : (l.takeWhile accepts).Sublist l := List.takeWhile_sublist _
  rw [h.loop_takeWhile]
  exact h.slot_loop_of_forall hslot s (fun a ha => List.mem_takeWhile_imp ha)
    (hnodup.sublist (htake.map Prod.fst))

end Attempt
