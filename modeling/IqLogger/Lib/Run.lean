import Mathlib.Data.List.Induction

/-!
# Runs of a step function with outputs

A step function takes a state and an input to a state and a list of outputs;
`Machine.run` feeds it a list of inputs and collects the outputs in order.

A fact about all runs is proved through `Machine.run_induction`: it relates the
inputs so far, the state and the outputs so far, and it has to survive one more
input. The composition laws are `Machine.run_append` and `Machine.run_snoc`.

What is asked of every step of a run, in the state it is made in, is
`Machine.Along`; with an invariant, what is asked of the steps can be traded for
what they yield (`Machine.Along.of_invariant`).

Where an input can come at a moment at which it is not possible (a step of one of
several threads, say), the step function yields `none`, and a run is `List.foldlM`;
`Machine.interleaving_induction` is the induction over such a run, and
`Machine.Throughout` says what is asked of each of its steps.
-/

namespace Machine

variable {σ ι ω : Type*} (step : σ → ι → σ × List ω)

/-- The state a list of inputs leads to, and all outputs on the way. -/
def run : σ → List ι → σ × List ω
  | s, [] => (s, [])
  | s, i :: is =>
    let out := step s i
    let rest := run out.1 is
    (rest.1, out.2 ++ rest.2)

@[simp] theorem run_nil (s : σ) : run step s [] = (s, []) := rfl

theorem run_cons (s : σ) (i : ι) (is : List ι) :
    run step s (i :: is) =
      ((run step (step s i).1 is).1, (step s i).2 ++ (run step (step s i).1 is).2) := rfl

theorem run_append (s : σ) (is js : List ι) :
    run step s (is ++ js) =
      ((run step (run step s is).1 js).1,
        (run step s is).2 ++ (run step (run step s is).1 js).2) := by
  induction is generalizing s with
  | nil => simp
  | cons i is ih => simp [run_cons, ih]

theorem run_snoc (s : σ) (is : List ι) (i : ι) :
    run step s (is ++ [i]) =
      ((step (run step s is).1 i).1, (run step s is).2 ++ (step (run step s is).1 i).2) := by
  rw [run_append]
  simp [run_cons]

variable {step}

/-- **The induction over a run**: a relation between the inputs so far, the state
and the outputs so far that holds at the start and survives every input holds
after every run. -/
theorem run_induction {P : List ι → σ → List ω → Prop} {s : σ} (hstart : P [] s [])
    (hstep : ∀ is i t out, P is t out → P (is ++ [i]) (step t i).1 (out ++ (step t i).2))
    (is : List ι) : P is (run step s is).1 (run step s is).2 := by
  induction is using List.reverseRecOn with
  | nil => exact hstart
  | append_singleton is i ih =>
    rw [run_snoc]
    exact hstep is i _ _ ih

/-! ### What holds along a run -/

section Along

variable {next : σ → ι → σ} {P Q : σ → ι → Prop}

/-- `P` holds of every input, in the state it is met in. -/
def Along (next : σ → ι → σ) (P : σ → ι → Prop) : σ → List ι → Prop
  | _, [] => True
  | s, i :: is => P s i ∧ Along next P (next s i) is

instance Along.decidable [∀ s i, Decidable (P s i)] : (s : σ) → (is : List ι) →
    Decidable (Along next P s is)
  | _, [] => inferInstanceAs (Decidable True)
  | s, i :: is => @instDecidableAnd _ _ _ (Along.decidable (next s i) is)

theorem along_append (s : σ) (is js : List ι) :
    Along next P s (is ++ js) ↔ Along next P s is ∧ Along next P (is.foldl next s) js := by
  induction is generalizing s with
  | nil => simp [Along]
  | cons i is ih => simp [Along, ih, and_assoc]

/-- **The rule of invariants**: in steps that are made as asked, an invariant is
kept, and so every step yields what it yields under the invariant. -/
theorem Along.of_invariant (inv : σ → Prop)
    (hstep : ∀ s i, inv s → P s i → Q s i ∧ inv (next s i)) :
    ∀ {is : List ι} {s : σ}, inv s → Along next P s is → Along next Q s is ∧ inv (is.foldl next s)
  | [], _, hs, _ => ⟨trivial, hs⟩
  | i :: _, s, hs, ⟨hi, his⟩ => by
    obtain ⟨hQ, hnext⟩ := hstep s i hs hi
    obtain ⟨hrest, hend⟩ := Along.of_invariant inv hstep hnext his
    exact ⟨⟨hQ, hrest⟩, hend⟩

/-- What is asked of the inputs alone. -/
theorem along_const {R : ι → Prop} {s : σ} {is : List ι} :
    Along next (fun _ i => R i) s is ↔ ∀ i ∈ is, R i := by
  induction is generalizing s with
  | nil => simp [Along]
  | cons i is ih => rw [Along, ih, List.forall_mem_cons]

end Along

/-! ### Steps that are not always possible -/

section Interleaving

variable {next : σ → ι → Option σ}

theorem foldlM_snoc_eq_some {s u : σ} {is : List ι} {i : ι} :
    (is ++ [i]).foldlM next s = some u ↔ ∃ t, is.foldlM next s = some t ∧ next t i = some u := by
  rw [List.foldlM_append, Option.bind_eq_bind, Option.bind_eq_some_iff]
  simp only [List.foldlM_cons, List.foldlM_nil, Option.bind_eq_bind, Option.pure_def,
    Option.bind_fun_some]

/-- **The induction over an interleaving**: what holds at the start and survives every
step that is possible holds after every run. -/
theorem interleaving_induction {P : List ι → σ → Prop} {s : σ} (hstart : P [] s)
    (hstep : ∀ is t i u, P is t → next t i = some u → P (is ++ [i]) u)
    (is : List ι) (u : σ) (hrun : is.foldlM next s = some u) : P is u := by
  induction is using List.reverseRecOn generalizing u with
  | nil =>
    cases hrun
    exact hstart
  | append_singleton is i ih =>
    obtain ⟨t, ht, hu⟩ := foldlM_snoc_eq_some.mp hrun
    exact hstep is t i u (ih t ht) hu

/-- `P` holds of every input of a run, in the state it is met in. -/
def Throughout (next : σ → ι → Option σ) (P : σ → ι → Prop) (s : σ) : List ι → Prop
  | [] => True
  | i :: is => P s i ∧ ∀ t, next s i = some t → Throughout next P t is

instance Throughout.decidable {P : σ → ι → Prop} [∀ s i, Decidable (P s i)] :
    (s : σ) → (is : List ι) → Decidable (Throughout next P s is)
  | _, [] => isTrue trivial
  | s, i :: is =>
    match hnext : next s i with
    | none => decidable_of_iff (P s i)
        ⟨fun h => ⟨h, fun _ ht => absurd (hnext.symm.trans ht) (by simp)⟩, fun h => h.1⟩
    | some t =>
      have : Decidable (Throughout next P t is) := Throughout.decidable t is
      decidable_of_iff (P s i ∧ Throughout next P t is)
        ⟨fun h => ⟨h.1, fun _ hu => Option.some.inj (hnext.symm.trans hu) ▸ h.2⟩,
          fun h => ⟨h.1, h.2 t hnext⟩⟩

theorem throughout_snoc {P : σ → ι → Prop} {s t : σ} {is : List ι} {i : ι}
    (hrun : is.foldlM next s = some t) :
    Throughout next P s (is ++ [i]) ↔ Throughout next P s is ∧ P t i := by
  induction is generalizing s with
  | nil =>
    cases hrun
    simp [Throughout]
  | cons j js ih =>
    rw [List.foldlM_cons, Option.bind_eq_bind, Option.bind_eq_some_iff] at hrun
    obtain ⟨u, hu, hjs⟩ := hrun
    have hnext : ∀ Q : σ → Prop, (∀ v, next s j = some v → Q v) ↔ Q u := fun Q => by
      simp [hu]
    simp only [List.cons_append, Throughout, hnext, ih hjs, and_assoc]

/-- **The rule of invariants for an interleaving** whose steps are made as asked. -/
theorem Throughout.invariant {P : σ → ι → Prop} {inv : σ → Prop}
    (hstep : ∀ s i t, inv s → P s i → next s i = some t → inv t) {s u : σ} {is : List ι}
    (hs : inv s) (his : Throughout next P s is) (hrun : is.foldlM next s = some u) : inv u := by
  induction is generalizing s with
  | nil =>
    cases hrun
    exact hs
  | cons i is ih =>
    rw [List.foldlM_cons, Option.bind_eq_bind, Option.bind_eq_some_iff] at hrun
    obtain ⟨t, ht, hrest⟩ := hrun
    exact ih (hstep s i t hs his.1 ht) (his.2 t ht) hrest

end Interleaving

end Machine
