import Mathlib.Tactic.TypeStar

/-!
# How a computation fails

A computation that either returns or throws is an `Except`. What it may throw is
`Except.FailsOnly`: whatever comes out of it as an error has a given property. The
rules are exact, one for each way to build a computation, so that the failures of a
long sequence of steps come down to the failures of its steps
(`Except.failsOnly_bind`): a step counts only when all steps before it return.
-/

namespace Except

universe u v

variable {ε ε' : Type u} {α β : Type v} {P : ε → Prop}

/-- Everything the computation throws has the property. -/
def FailsOnly (P : ε → Prop) (x : Except ε α) : Prop := ∀ e, x = .error e → P e

@[simp] theorem failsOnly_ok (a : α) : FailsOnly P (.ok a) := by
  rintro e ⟨⟩

@[simp] theorem failsOnly_pure (a : α) : FailsOnly P (pure a : Except ε α) := failsOnly_ok a

@[simp] theorem failsOnly_error {e : ε} : FailsOnly P (.error e : Except ε α) ↔ P e := by
  constructor
  · intro h
    exact h e rfl
  · rintro he _ ⟨⟩
    exact he

@[simp] theorem failsOnly_throw {e : ε} : FailsOnly P (throw e : Except ε α) ↔ P e :=
  failsOnly_error

/-- **A sequence fails with the property when its first step does, and its second one
after all values the first one returns.** -/
theorem failsOnly_bind {x : Except ε α} {f : α → Except ε β} :
    FailsOnly P (x >>= f) ↔ FailsOnly P x ∧ ∀ a, x = .ok a → FailsOnly P (f a) := by
  cases x with
  | error e =>
    show FailsOnly P (.error e) ↔ _
    simp
  | ok a =>
    show FailsOnly P (f a) ↔ _
    simp

theorem FailsOnly.bind {x : Except ε α} {f : α → Except ε β} (hx : FailsOnly P x)
    (hf : ∀ a, FailsOnly P (f a)) : FailsOnly P (x >>= f) :=
  failsOnly_bind.mpr ⟨hx, fun a _ => hf a⟩

/-- An error that is translated. -/
theorem failsOnly_mapError {P : ε' → Prop} {g : ε → ε'} {x : Except ε α} :
    FailsOnly P (x.mapError g) ↔ FailsOnly (fun e => P (g e)) x := by
  cases x with
  | error e =>
    show FailsOnly P (.error (g e)) ↔ _
    simp
  | ok a =>
    show FailsOnly P (.ok a) ↔ _
    simp

/-- A computation whose errors all lack the property has to return. -/
theorem failsOnly_false {x : Except ε α} : FailsOnly (fun _ => False) x ↔ ∃ a, x = .ok a := by
  cases x with
  | error e => simp
  | ok a => simp

/-- A loop over a list, when every step of it fails with the property only. -/
theorem FailsOnly.foldlM {γ : Type*} {f : α → γ → Except ε α}
    (hf : ∀ a c, FailsOnly P (f a c)) (a : α) (l : List γ) : FailsOnly P (l.foldlM f a) := by
  induction l generalizing a with
  | nil => exact failsOnly_pure a
  | cons c l ih =>
    rw [List.foldlM_cons]
    exact (hf a c).bind ih

/-! ### What a computation returns -/

theorem bind_eq_ok {x : Except ε α} {f : α → Except ε β} {b : β} :
    (x >>= f) = .ok b ↔ ∃ a, x = .ok a ∧ f a = .ok b := by
  cases x with
  | error e =>
    show Except.error e = .ok b ↔ _
    simp
  | ok a =>
    show f a = .ok b ↔ _
    simp

theorem mapError_eq_ok {g : ε → ε'} {x : Except ε α} {a : α} :
    x.mapError g = .ok a ↔ x = .ok a := by
  cases x with
  | error e =>
    show Except.error (g e) = .ok a ↔ _
    simp
  | ok b =>
    show Except.ok b = .ok a ↔ _
    simp

end Except
