import IqLogger.Lib.Run
import Mathlib.Data.List.GetD
import Mathlib.Order.Nat

/-!
# Infinite runs and fairness

A system of threads that never stops is seen in its infinite runs
(`Machine.InfiniteRun`): a state at each moment, and the step that leads to the next one.
That something happens in the end can only be shown of a run that is fair: whoever can go
on from some moment on does so at some later moment (`Machine.InfiniteRun.Fair`).

Two rules are enough here. What survives every step holds from the first moment it
holds (`Machine.InfiniteRun.stable`). And what makes a number smaller whenever it goes on,
while nobody else makes the number bigger, cannot go on for ever
(`Machine.InfiniteRun.Fair.eventually`).

A finite run becomes an infinite one when it is followed by a step that changes nothing
(`Machine.InfiniteRun.ofList`).
-/

namespace Machine

variable {σ ι : Type*}

/-- An infinite run. -/
structure InfiniteRun (step : σ → ι → Option σ) where
  state : ℕ → σ
  event : ℕ → ι
  next : ∀ n, step (state n) (event n) = some (state (n + 1))

namespace InfiniteRun

variable {step : σ → ι → Option σ}

/-- **Somebody is treated fairly**: at no moment it is kept for ever from going on, without
coming to a moment at which it cannot. -/
def Fair (r : InfiniteRun step) (enabled : σ → Prop) (acts : ι → Prop) : Prop :=
  ∀ n, ∃ m ≥ n, ¬enabled (r.state m) ∨ acts (r.event m)

/-- **What survives every step** holds from then on. -/
theorem stable (r : InfiniteRun step) {P : σ → Prop}
    (hstep : ∀ s i t, step s i = some t → P s → P t) {n m : ℕ} (hnm : n ≤ m)
    (hn : P (r.state n)) : P (r.state m) := by
  induction m, hnm using Nat.le_induction with
  | base => exact hn
  | succ m _ ih => exact hstep _ _ _ (r.next m) ih

/-- **The rule of decreasing numbers**: whoever is treated fairly, and makes a number smaller
in each of its steps that no other step makes bigger, comes to its end. -/
theorem Fair.eventually {r : InfiniteRun step} {enabled : σ → Prop} {acts : ι → Prop}
    (hfair : r.Fair enabled acts) (rank : σ → ℕ) {n : ℕ}
    (hrank : ∀ m ≥ n, enabled (r.state m) → rank (r.state (m + 1)) ≤ rank (r.state m) ∧
      (acts (r.event m) → rank (r.state (m + 1)) < rank (r.state m))) :
    ∃ m ≥ n, ¬enabled (r.state m) := by
  by_contra hnever
  push Not at hnever
  -- the number never grows, so that the next step makes it smaller than it is now
  have hmono : ∀ m ≥ n, rank (r.state m) ≤ rank (r.state n) := by
    intro m hm
    induction m, hm using Nat.le_induction with
    | base => exact le_refl _
    | succ m hm ih => exact (hrank m hm (hnever m hm)).1.trans ih
  induction hsize : rank (r.state n) using Nat.strong_induction_on generalizing n with
  | _ size ih =>
    obtain ⟨m, hm, hacts⟩ := hfair n
    have hact := hacts.resolve_left (not_not.mpr (hnever m hm))
    have hlt := (hrank m hm (hnever m hm)).2 hact
    have hle : n ≤ m + 1 := Nat.le_succ_of_le hm
    refine ih (rank (r.state (m + 1))) (hsize ▸ hlt.trans_le (hmono m hm))
      (fun k hk => hrank k (hle.trans hk)) (fun k hk => hnever k (hle.trans hk)) ?_ rfl
    intro k hk
    induction k, hk using Nat.le_induction with
    | base => exact le_refl _
    | succ k hk ih' =>
      exact (hrank k (hle.trans hk) (hnever k (hle.trans hk))).1.trans ih'

/-- A finite run, and then nothing more. -/
def ofList (s t : σ) (is : List ι) (idle : ι) (hrun : is.foldlM step s = some t)
    (hidle : ∀ s, step s idle = some s) : InfiniteRun step where
  state n := ((is.take n).foldlM step s).getD t
  event n := is.getD n idle
  next n := by
    rcases Nat.lt_or_ge n is.length with hn | hn
    · have htake : is = is.take n ++ is[n] :: is.drop (n + 1) := by
        rw [← List.drop_eq_getElem_cons hn, List.take_append_drop]
      have hsome := hrun
      rw [htake, List.foldlM_append, Option.bind_eq_bind, Option.bind_eq_some_iff] at hsome
      obtain ⟨u, hu, hrest⟩ := hsome
      rw [List.foldlM_cons, Option.bind_eq_bind, Option.bind_eq_some_iff] at hrest
      obtain ⟨v, hv, -⟩ := hrest
      have hnext : (is.take (n + 1)).foldlM step s = some v := by
        rw [← List.take_append_getElem hn]
        exact foldlM_snoc_eq_some.mpr ⟨u, hu, hv⟩
      rw [List.getD_eq_getElem _ _ hn, hu, hnext, Option.getD_some, Option.getD_some, hv]
    · rw [List.getD_eq_default _ _ hn, List.take_of_length_le hn,
        List.take_of_length_le (Nat.le_succ_of_le hn), hrun, Option.getD_some]
      exact hidle t

theorem ofList_state {s t : σ} {is : List ι} {idle : ι} (hrun : is.foldlM step s = some t)
    (hidle : ∀ s, step s idle = some s) {n : ℕ} (hn : is.length ≤ n) :
    (ofList s t is idle hrun hidle).state n = t := by
  change ((is.take n).foldlM step s).getD t = t
  rw [List.take_of_length_le hn, hrun, Option.getD_some]

/-- A run that comes to rest treats those fairly that cannot go on then. -/
theorem fair_ofList {s t : σ} {is : List ι} {idle : ι} (hrun : is.foldlM step s = some t)
    (hidle : ∀ s, step s idle = some s) {enabled : σ → Prop} (acts : ι → Prop)
    (ht : ¬enabled t) : (ofList s t is idle hrun hidle).Fair enabled acts := by
  intro n
  refine ⟨n + is.length, Nat.le_add_right .., Or.inl ?_⟩
  rwa [ofList_state hrun hidle (Nat.le_add_left ..)]

end InfiniteRun

end Machine
