import IqLogger.Lib.Run

/-!
# Threads that wait for room

Threads hand things on through queues that hold only so much. A thread that finds a queue full
waits until there is room, and room is made only by the threads that take from the queue. So
threads can wait for each other, or for a thread that has ended.

A set of threads is wedged if each of them waits at a queue that is full, and all who take from
that queue have ended or are in the set themselves (`QueueNet.Wedged`). Such a set stays wedged for
ever, whatever the other threads do (`QueueNet.Wedged.run`). Nothing is asked of a system for it but
three things that hold of one step (`QueueNet.Lawful`).
-/

/-- What there is to know about threads and queues: which steps are possible, who waits at which
queue, which queues are full, which threads have ended, and who takes from a queue. -/
structure QueueNet (σ ι τ κ : Type*) where
  step : σ → ι → Option σ
  waits : σ → τ → κ → Prop
  full : σ → κ → Prop
  ended : σ → τ → Prop
  takesFrom : τ → κ → Prop

namespace QueueNet

variable {σ ι τ κ : Type*} (N : QueueNet σ ι τ κ)

/-- A thread that can do nothing now: it has ended, or it waits at a full queue. -/
def Idle (s : σ) (x : τ) : Prop := N.ended s x ∨ ∃ k, N.waits s x k ∧ N.full s k

/-- **What one step leaves alone.** Who waits at a full queue keeps waiting, who has ended has
ended, and a queue from which nobody can take stays full. -/
structure Lawful : Prop where
  waits_step : ∀ {s t i x k}, N.step s i = some t → N.waits s x k → N.full s k → N.waits t x k
  ended_step : ∀ {s t i x}, N.step s i = some t → N.ended s x → N.ended t x
  full_step : ∀ {s t i k}, N.step s i = some t → N.full s k →
    (∀ x, N.takesFrom x k → N.Idle s x) → N.full t k
  not_ended : ∀ {s x k}, N.waits s x k → ¬N.ended s x

/-- **Threads that wait for each other**, or for threads that have ended. -/
def Wedged (s : σ) (W : Set τ) : Prop :=
  ∀ x ∈ W, ∃ k, N.waits s x k ∧ N.full s k ∧ ∀ y, N.takesFrom y k → N.ended s y ∨ y ∈ W

variable {N} {s t : σ} {W : Set τ}

theorem Wedged.idle (h : N.Wedged s W) {x : τ} (hx : N.ended s x ∨ x ∈ W) : N.Idle s x := by
  rcases hx with hx | hx
  · exact Or.inl hx
  · obtain ⟨k, hwaits, hfull, -⟩ := h x hx
    exact Or.inr ⟨k, hwaits, hfull⟩

/-- **A wedged set stays wedged** in a step of any thread. -/
theorem Wedged.step (hN : N.Lawful) (h : N.Wedged s W) {i : ι} (hstep : N.step s i = some t) :
    N.Wedged t W := by
  intro x hx
  obtain ⟨k, hwaits, hfull, hothers⟩ := h x hx
  refine ⟨k, hN.waits_step hstep hwaits hfull,
    hN.full_step hstep hfull fun y hy => h.idle (hothers y hy), fun y hy => ?_⟩
  exact (hothers y hy).imp_left (hN.ended_step hstep)

/-- **A wedged set stays wedged for ever.** -/
theorem Wedged.run (hN : N.Lawful) (h : N.Wedged s W) {is : List ι}
    (hrun : is.foldlM N.step s = some t) : N.Wedged t W :=
  Machine.interleaving_induction (P := fun _ u => N.Wedged u W) h
    (fun _ _ _ _ hu hstep => hu.step hN hstep) is t hrun

/-- No thread of a wedged set has ended. -/
theorem Wedged.not_ended (hN : N.Lawful) (h : N.Wedged s W) {x : τ} (hx : x ∈ W) :
    ¬N.ended s x := by
  obtain ⟨k, hwaits, -⟩ := h x hx
  exact hN.not_ended hwaits

end QueueNet
