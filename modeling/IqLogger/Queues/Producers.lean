import IqLogger.Lib.Bulks
import IqLogger.Lib.Run
import IqLogger.Queues.MessageQueue
import Mathlib.Algebra.BigOperators.Fin
import Mathlib.Algebra.Order.BigOperators.Group.Finset

/-!
# Producers at one queue

Threads that call `enqueue` and `enqueue_bulk` of one queue, and consumers that take from
it. A call is cut where other threads can come in between: it looks at the size
(`IqLogger.Producers.begin`), looks again after each pause if it has to wait
(`IqLogger.Producers.wake`), and then pushes (`IqLogger.Producers.pushStep`).

Since the size may have changed by the time of the push, the queue can grow past its
bound. By how much is `IqLogger.Producers.queue_length_le`: what counts is the queue together
with the items of the calls that may push already
(`IqLogger.Producers.Bounded`), and when a call joins these, the queue is short.

What became of the items of the calls that are over is `IqLogger.Producers.Accounted`.
A queue whose strategy is `undefined` loses track of them when it is full
(`IqLogger.Producers.Uncounted`), and this is the only way to do so
(`IqLogger.Producers.accounted_iff`).
-/

namespace IqLogger

namespace Producers

/-- Where a producer is: in no call, in the loop that waits for room, or between its
last look at the size and its push. -/
inductive Producer (T : Type)
  | idle
  | waiting (items : List T)
  | pushing (items : List T)
  deriving DecidableEq

/-- The items a producer may push without looking at the size again. -/
def Producer.admitted {T : Type} : Producer T → ℕ
  | .pushing items => items.length
  | _ => 0

@[simp] theorem admitted_idle {T : Type} : (Producer.idle : Producer T).admitted = 0 := rfl

@[simp] theorem admitted_waiting {T : Type} (items : List T) :
    (Producer.waiting items).admitted = 0 := rfl

@[simp] theorem admitted_pushing {T : Type} (items : List T) :
    (Producer.pushing items).admitted = items.length := rfl

/-- A call that is over: the number of its items, what it returned, and what it added to
`m_dropped`. -/
structure Call where
  count : ℕ
  result : Bool
  added : ℕ
  deriving DecidableEq, Repr

/-- A queue and its producers, the calls that are over and how many items the consumers
have got. -/
structure System (P : ℕ) (T : Type) where
  queue : MessageQueue T
  producers : Fin P → Producer T
  calls : List Call
  dequeued : ℕ
  deriving DecidableEq

/-- A step of one of the threads. -/
inductive Event (P : ℕ) (T : Type)
  | enqueue (p : Fin P) (item : T)
  | enqueue_bulk (p : Fin P) (items : List T)
  | wake (p : Fin P)
  | push (p : Fin P)
  | try_dequeue (got : Option T)
  | try_dequeue_bulk (max : ℕ) (got : List T)
  deriving DecidableEq

/-- The items of the call that an event begins. -/
def Event.offered {P : ℕ} {T : Type} : Event P T → ℕ
  | .enqueue _ _ => 1
  | .enqueue_bulk _ items => items.length
  | _ => 0

variable {P : ℕ} {T : Type}

/-- No producer is in a call, and nothing has happened yet. -/
def System.start (queue : MessageQueue T) : System P T := ⟨queue, fun _ => .idle, [], 0⟩

section Steps

variable (s : System P T)

/-- A call begins with a look at the size. -/
def begin (p : Fin P) (items : List T)
    (look : MessageQueue.Admission × MessageQueue T) : Option (System P T) :=
  match s.producers p with
  | .idle =>
    match look.1 with
    | .pushes => some { s with
        queue := look.2, producers := Function.update s.producers p (.pushing items) }
    | .waits => some { s with
        queue := look.2, producers := Function.update s.producers p (.waiting items) }
    | .refused => some { s with
        queue := look.2
        calls := s.calls ++ [⟨items.length, false, look.2.dropped - s.queue.dropped⟩] }
  | _ => none

/-- One more round of `while (size_approx() >= m_max_queue_size)`. -/
def wake (p : Fin P) : Option (System P T) :=
  match s.producers p with
  | .waiting items =>
    if s.queue.isFull then some s
    else some { s with producers := Function.update s.producers p (.pushing items) }
  | _ => none

/-- The `return` at the end of a call. -/
def pushStep (p : Fin P) : Option (System P T) :=
  match s.producers p with
  | .pushing items => some { s with
      queue := s.queue.push items
      producers := Function.update s.producers p .idle
      calls := s.calls ++ [⟨items.length, true, 0⟩] }
  | _ => none

/-- A consumer gets items of the queue, at most `max`. -/
def dequeue [DecidableEq T] (max : ℕ) (got : List T) : Option (System P T) :=
  if got.length ≤ max ∧ got.isSubperm s.queue.items then
    some { s with queue := s.queue.take got, dequeued := s.dequeued + got.length }
  else none

/-- What a step does, if it is possible. -/
def step [DecidableEq T] (s : System P T) : Event P T → Option (System P T)
  | .enqueue p item => begin s p [item] (s.queue.enqueue item)
  | .enqueue_bulk p items => begin s p items (s.queue.enqueue_bulk items)
  | .wake p => wake s p
  | .push p => pushStep s p
  | .try_dequeue got => dequeue s 1 got.toList
  | .try_dequeue_bulk max got => dequeue s max got

end Steps

/-! ### What a step can do -/

/-- The steps, told apart by what they change. -/
inductive Change (s : System P T) (e : Event P T) : System P T → Prop
  /-- A call may push. -/
  | admitted (p : Fin P) (items : List T) (queue : MessageQueue T)
    (hlength : items.length = e.offered ∨ s.producers p = .waiting items)
    (hidle : (s.producers p).admitted = 0)
    (hroom : s.queue.items.length < s.queue.max_queue_size)
    (hitems : queue.items = s.queue.items) (hdropped : queue.dropped = s.queue.dropped)
    (hmax : queue.max_queue_size = s.queue.max_queue_size)
    (hstrategy : queue.overflow_strategy = s.queue.overflow_strategy) :
    Change s e { s with
      queue := queue, producers := Function.update s.producers p (.pushing items) }
  /-- A call goes on waiting. -/
  | waitsOn (hoffered : e.offered = 0) : Change s e s
  /-- A call waits. -/
  | waits (p : Fin P) (items : List T) (queue : MessageQueue T)
    (hthrottle : s.queue.overflow_strategy = .throttle) (hlength : items.length = e.offered)
    (hidle : (s.producers p).admitted = 0)
    (hitems : queue.items = s.queue.items) (hdropped : queue.dropped = s.queue.dropped)
    (hmax : queue.max_queue_size = s.queue.max_queue_size)
    (hstrategy : queue.overflow_strategy = s.queue.overflow_strategy) :
    Change s e { s with
      queue := queue, producers := Function.update s.producers p (.waiting items) }
  /-- A call is refused. -/
  | refused (queue : MessageQueue T) (hfull : s.queue.isFull)
    (hitems : queue.items = s.queue.items)
    (hdropped : queue.dropped =
      s.queue.dropped + if s.queue.overflow_strategy ≠ .undefined then e.offered else 0)
    (hmax : queue.max_queue_size = s.queue.max_queue_size)
    (hstrategy : queue.overflow_strategy = s.queue.overflow_strategy) :
    Change s e { s with
      queue := queue
      calls := s.calls ++ [⟨e.offered, false, queue.dropped - s.queue.dropped⟩] }
  /-- A call pushes and is over. -/
  | pushed (p : Fin P) (items : List T) (hoffered : e.offered = 0)
    (hpushing : s.producers p = .pushing items) :
    Change s e { s with
      queue := s.queue.push items
      producers := Function.update s.producers p .idle
      calls := s.calls ++ [⟨items.length, true, 0⟩] }
  /-- A consumer gets items. -/
  | dequeued (got : List T) (queue : MessageQueue T) (hoffered : e.offered = 0)
    (hitems : got.length + queue.items.length = s.queue.items.length)
    (hdropped : queue.dropped = s.queue.dropped)
    (hmax : queue.max_queue_size = s.queue.max_queue_size)
    (hstrategy : queue.overflow_strategy = s.queue.overflow_strategy) :
    Change s e { s with queue := queue, dequeued := s.dequeued + got.length }

section StepCases

variable {s t : System P T} {e : Event P T}

theorem Change.of_begin {p : Fin P} {items : List T} (hlength : items.length = e.offered)
    (h : begin s p items (s.queue.checkSize items.length) = some t) : Change s e t := by
  rw [begin] at h
  split at h
  case h_2 => cases h
  case h_1 hidle =>
    have hdropped := s.queue.dropped_checkSize items.length
    split at h
    case h_1 hpushes =>
      cases h
      refine .admitted p items _ (.inl hlength) (by rw [hidle]; rfl)
        ((MessageQueue.checkSize_eq_pushes _).mp hpushes) ?_ ?_ ?_ ?_
      · exact MessageQueue.items_checkSize _
      · simpa [hpushes] using hdropped
      · exact MessageQueue.max_queue_size_checkSize _
      · exact MessageQueue.overflow_strategy_checkSize _
    case h_2 hwaits =>
      cases h
      refine .waits p items _ (MessageQueue.throttle_of_waits _ hwaits) hlength
        (by rw [hidle]; rfl) ?_ ?_ ?_ ?_
      · exact MessageQueue.items_checkSize _
      · simpa [hwaits] using hdropped
      · exact MessageQueue.max_queue_size_checkSize _
      · exact MessageQueue.overflow_strategy_checkSize _
    case h_3 hrefused =>
      cases h
      rw [hlength] at hrefused hdropped ⊢
      refine .refused _ (MessageQueue.isFull_of_refused _ hrefused) ?_ ?_ ?_ ?_
      · exact MessageQueue.items_checkSize _
      · simpa only [hrefused, true_and] using hdropped
      · exact MessageQueue.max_queue_size_checkSize _
      · exact MessageQueue.overflow_strategy_checkSize _

theorem Change.of_dequeue [DecidableEq T] {max : ℕ} {got : List T} (hoffered : e.offered = 0)
    (h : dequeue s max got = some t) : Change s e t := by
  rw [dequeue] at h
  split_ifs at h with hgot
  cases h
  exact .dequeued got _ hoffered (MessageQueue.length_take _ (List.isSubperm_iff.mp hgot.2))
    rfl rfl rfl

/-- **Every step is one of these changes.** -/
theorem change_of_step [DecidableEq T] (h : step s e = some t) : Change s e t := by
  cases e with
  | enqueue p item => exact @Change.of_begin _ _ _ _ _ p [item] rfl h
  | enqueue_bulk p items => exact @Change.of_begin _ _ _ _ _ p items rfl h
  | wake p =>
    rw [step, wake] at h
    split at h
    case h_2 => cases h
    case h_1 items hwaiting =>
      split_ifs at h with hfull
      · cases h
        exact .waitsOn rfl
      · cases h
        refine .admitted p items _ (.inr hwaiting) (by rw [hwaiting]; rfl) ?_ rfl rfl rfl rfl
        simpa [MessageQueue.isFull] using hfull
  | push p =>
    rw [step, pushStep] at h
    split at h
    case h_2 => cases h
    case h_1 items hpushing =>
      cases h
      exact .pushed p items rfl hpushing
  | try_dequeue got => exact .of_dequeue rfl h
  | try_dequeue_bulk max got => exact .of_dequeue rfl h

end StepCases

/-! ### How long the queue gets -/

/-- The items that calls may push without looking at the size again. -/
def System.admitted (s : System P T) : ℕ := ∑ p, (s.producers p).admitted

/-- **The invariant of the bound**: the queue and what is about to be pushed are below the
bound together; no call has more than `B` items. -/
structure Bounded (m B : ℕ) (s : System P T) : Prop where
  max_queue_size : s.queue.max_queue_size = m
  waiting : ∀ p items, s.producers p = .waiting items → items.length ≤ B
  admitted : ∀ p, (s.producers p).admitted ≤ B
  length : s.queue.items.length + s.admitted ≤ m - 1 + P * B

section Bound

variable {m B : ℕ} {s t : System P T} {e : Event P T}

/-- All producers together are about to push at most `P * B` items. -/
theorem sum_admitted_le {producers : Fin P → Producer T} (h : ∀ p, (producers p).admitted ≤ B) :
    ∑ p, (producers p).admitted ≤ P * B := by
  refine (Finset.sum_le_card_nsmul Finset.univ _ B fun p _ => h p).trans_eq ?_
  rw [Finset.card_univ, Fintype.card_fin, smul_eq_mul]

/-- Only the share of one producer changes. -/
theorem sum_admitted_update (producers : Fin P → Producer T) (p : Fin P) (new : Producer T) :
    ∑ q, (Function.update producers p new q).admitted + (producers p).admitted =
      ∑ q, (producers q).admitted + new.admitted := by
  obtain ⟨rest, hold, hnew⟩ :=
    Finset.sum_apply_update (fun _ => Producer.admitted) producers p new
  rw [hold, hnew]
  omega

/-- What is asked of every producer is asked of the one that changes. -/
theorem forall_update {producers : Fin P → Producer T} {p : Fin P} {new : Producer T}
    {Q : Producer T → Prop} (h : ∀ q, Q (producers q)) (hnew : Q new) (q : Fin P) :
    Q (Function.update producers p new q) :=
  (Function.forall_update_iff producers fun _ r => Q r).mpr ⟨hnew, fun q _ => h q⟩ q

theorem bounded_start (strategy : OverflowStrategy) :
    Bounded m B (System.start (.new m strategy) : System P T) := by
  refine ⟨rfl, ?_, ?_, ?_⟩
  · intro p items h
    cases h
  · intro p
    exact Nat.zero_le B
  · have hnone : (System.start (.new m strategy) : System P T).admitted = 0 :=
      Finset.sum_eq_zero fun p _ => rfl
    rw [hnone]
    exact Nat.zero_le _

/-- **The bound survives every step.** -/
theorem Bounded.change (h : Bounded m B s) (he : e.offered ≤ B) (hst : Change s e t) :
    Bounded m B t := by
  obtain ⟨hm, hwaiting, hadmitted, hlength⟩ := h
  rw [System.admitted] at hlength
  cases hst with
  | admitted p items queue hcall hidle hroom hitems hdropped hmax hstrategy =>
    have hB : (Producer.pushing items).admitted ≤ B := by
      rw [admitted_pushing]
      rcases hcall with hcall | hcall
      · exact hcall ▸ he
      · exact hwaiting p items hcall
    have hadmitted' := forall_update (p := p) (Q := fun r => r.admitted ≤ B) hadmitted hB
    refine ⟨hmax.trans hm, ?_, hadmitted', ?_⟩
    · intro q its hq
      refine forall_update (p := p) (Q := fun r => ∀ its, r = .waiting its → its.length ≤ B)
        hwaiting (fun its hits => ?_) q its hq
      cases hits
    · -- the queue has room at this moment
      have hsum := sum_admitted_le hadmitted'
      change queue.items.length +
        ∑ q, (Function.update s.producers p (.pushing items) q).admitted ≤ _
      rw [hitems]
      omega
  | waitsOn hoffered => exact ⟨hm, hwaiting, hadmitted, hlength⟩
  | waits p items queue hthrottle hcall hidle hitems hdropped hmax hstrategy =>
    have hsum := sum_admitted_update s.producers p (.waiting items)
    refine ⟨hmax.trans hm, ?_, ?_, ?_⟩
    · intro q its hq
      refine forall_update (p := p) (Q := fun r => ∀ its, r = .waiting its → its.length ≤ B)
        hwaiting (fun its hits => ?_) q its hq
      cases hits
      exact hcall ▸ he
    · exact forall_update (p := p) (Q := fun r => r.admitted ≤ B) hadmitted (Nat.zero_le B)
    · rw [hidle, admitted_waiting] at hsum
      change queue.items.length +
        ∑ q, (Function.update s.producers p (.waiting items) q).admitted ≤ _
      rw [hitems]
      omega
  | refused queue hfull hitems hdropped hmax hstrategy =>
    refine ⟨hmax.trans hm, hwaiting, hadmitted, ?_⟩
    rw [System.admitted, hitems]
    exact hlength
  | pushed p items hoffered hpushing =>
    have hsum := sum_admitted_update s.producers p .idle
    rw [hpushing, admitted_pushing, admitted_idle] at hsum
    refine ⟨hm, ?_, ?_, ?_⟩
    · intro q its hq
      refine forall_update (p := p) (Q := fun r => ∀ its, r = .waiting its → its.length ≤ B)
        hwaiting (fun its hits => ?_) q its hq
      cases hits
    · exact forall_update (p := p) (Q := fun r => r.admitted ≤ B) hadmitted (Nat.zero_le B)
    · -- the items go from one summand to the other
      change (s.queue.push items).items.length +
        ∑ q, (Function.update s.producers p .idle q).admitted ≤ _
      rw [MessageQueue.items_push, List.length_append]
      omega
  | dequeued got queue hoffered hitems hdropped hmax hstrategy =>
    refine ⟨hmax.trans hm, hwaiting, hadmitted, ?_⟩
    change queue.items.length + ∑ q, (s.producers q).admitted ≤ _
    omega

/-- **By how much a queue can grow past its bound**: with `P` producers whose calls have
at most `B` items each, it never holds more than `m - 1 + P * B`, whatever the order of
the steps. -/
theorem queue_length_le [DecidableEq T] (strategy : OverflowStrategy) {events : List (Event P T)}
    (hB : ∀ e ∈ events, e.offered ≤ B)
    (hrun : events.foldlM step (System.start (.new m strategy)) = some t) :
    t.queue.items.length ≤ m - 1 + P * B := by
  have hbounded : (∀ e ∈ events, e.offered ≤ B) → Bounded m B t := by
    refine Machine.interleaving_induction
      (P := fun events t => (∀ e ∈ events, e.offered ≤ B) → Bounded m B t)
      (fun _ => bounded_start strategy) ?_ events t hrun
    intro events s e u ih hstep hB
    obtain ⟨hevents, he⟩ := List.forall_mem_append.mp hB
    exact (ih hevents).change (he e (List.mem_singleton_self e)) (change_of_step hstep)
  exact Nat.le_of_add_right_le (hbounded hB).length

/-- Two producers that find a queue of length one empty, with calls of two items: the bound is
reached. -/
theorem queue_length_le_two :
    ∃ t : System 2 ℕ,
      [Event.enqueue_bulk 0 [1, 2], .enqueue_bulk 1 [3, 4], .push 0, .push 1].foldlM step
        (System.start (.new 1 .throttle)) = some t ∧
      t.queue.items = [1, 2, 3, 4] ∧ t.queue.items.length ≤ 1 - 1 + 2 * 2 :=
  ⟨_, rfl, rfl, queue_length_le .throttle (by decide : ∀ e ∈ [Event.enqueue_bulk 0 [1, 2],
    .enqueue_bulk 1 [3, 4], .push 0, .push (T := ℕ) 1], e.offered ≤ 2) rfl⟩

end Bound

/-! ### What became of the items -/

/-- **No item is lost track of**: the items of the calls that are over have been got by a
consumer, or are in the queue, or are counted in `m_dropped`; and a call that returned
`false` has added its items there, while one that returned `true` has added none. -/
def Accounted (s : System P T) : Prop :=
  (s.calls.map Call.count).sum = s.dequeued + s.queue.items.length + s.queue.dropped ∧
    ∀ call ∈ s.calls, call.added = if call.result then 0 else call.count

/-- A call meets a full queue that has no strategy. -/
def Uncounted (s : System P T) (e : Event P T) : Prop :=
  s.queue.overflow_strategy = .undefined ∧ s.queue.isFull ∧ 0 < e.offered

instance decidableUncounted (s : System P T) (e : Event P T) : Decidable (Uncounted s e) :=
  inferInstanceAs (Decidable (_ ∧ _ ∧ _))

/-- What holds of the calls that are over, counted or not. -/
structure Ledger (s : System P T) : Prop where
  pushed : ((s.calls.filter Call.result).map Call.count).sum = s.dequeued + s.queue.items.length
  added : (s.calls.map Call.added).sum = s.queue.dropped
  le : ∀ call ∈ s.calls, call.added ≤ if call.result then 0 else call.count

section Accounts

variable {s t : System P T} {e : Event P T}

/-- A call of the ledger: a call that returned `false` may have added too little. -/
theorem sum_count (calls : List Call) (h : ∀ call ∈ calls, call.added ≤ if call.result then 0
      else call.count) :
    ((calls.filter Call.result).map Call.count).sum + (calls.map Call.added).sum ≤
        (calls.map Call.count).sum ∧
      ((calls.map Call.count).sum =
          ((calls.filter Call.result).map Call.count).sum + (calls.map Call.added).sum ↔
        ∀ call ∈ calls, call.added = if call.result then 0 else call.count) := by
  induction calls with
  | nil => simp
  | cons call calls ih =>
    obtain ⟨hcall, hcalls⟩ := List.forall_mem_cons.mp h
    obtain ⟨hle, hiff⟩ := ih hcalls
    rw [List.forall_mem_cons, ← hiff, List.filter_cons]
    cases hresult : call.result with
    | false =>
      simp only [hresult, Bool.false_eq_true, if_false, List.map_cons, List.sum_cons] at hcall ⊢
      omega
    | true =>
      simp only [hresult, if_true, List.map_cons, List.sum_cons] at hcall ⊢
      omega

/-- The items are accounted for exactly when no call has added too little. -/
theorem Ledger.accounted_iff_added (h : Ledger s) :
    Accounted s ↔ ∀ call ∈ s.calls, call.added = if call.result then 0 else call.count := by
  obtain ⟨-, hiff⟩ := sum_count s.calls h.le
  rw [h.pushed, h.added] at hiff
  rw [Accounted, hiff, and_self_iff]

/-- A step that leaves the calls alone. -/
theorem Ledger.same (h : Ledger s) (queue : MessageQueue T) (producers : Fin P → Producer T)
    (dequeued : ℕ)
    (hitems : dequeued + queue.items.length = s.dequeued + s.queue.items.length)
    (hdropped : queue.dropped = s.queue.dropped) :
    Ledger ⟨queue, producers, s.calls, dequeued⟩ ∧
      (Accounted ⟨queue, producers, s.calls, dequeued⟩ ↔ Accounted s) := by
  refine ⟨⟨?_, ?_, h.le⟩, ?_⟩
  · rw [h.pushed, hitems]
  · rw [h.added, hdropped]
  · rw [Accounted, Accounted, hitems, hdropped]

/-- A step with which a call is over. -/
theorem Ledger.snoc (h : Ledger s) (queue : MessageQueue T) (producers : Fin P → Producer T)
    (call : Call) (hcall : call.added ≤ if call.result then 0 else call.count)
    (hitems : queue.items.length =
      s.queue.items.length + if call.result then call.count else 0)
    (hdropped : queue.dropped = s.queue.dropped + call.added) :
    Ledger ⟨queue, producers, s.calls ++ [call], s.dequeued⟩ ∧
      (Accounted ⟨queue, producers, s.calls ++ [call], s.dequeued⟩ ↔
        Accounted s ∧ call.added = if call.result then 0 else call.count) := by
  have hledger : Ledger ⟨queue, producers, s.calls ++ [call], s.dequeued⟩ := by
    refine ⟨?_, ?_, List.forall_mem_append.mpr ⟨h.le, List.forall_mem_singleton.mpr hcall⟩⟩
    · rw [List.filter_append, List.map_append, List.sum_append, h.pushed, hitems]
      cases hresult : call.result with
      | false => simp [hresult]
      | true => simp [hresult, Nat.add_assoc]
    · rw [List.map_append, List.sum_append, h.added, hdropped]
      simp
  refine ⟨hledger, ?_⟩
  rw [hledger.accounted_iff_added, h.accounted_iff_added]
  exact List.forall_mem_append.trans (and_congr_right fun _ => List.forall_mem_singleton)

/-- **The ledger survives every step**, and a step loses track of items exactly when a
call of at least one item meets a full queue without a strategy. -/
theorem Ledger.change (h : Ledger s) (hst : Change s e t) :
    Ledger t ∧ (Accounted t ↔ Accounted s ∧ ¬Uncounted s e) := by
  have hnone : e.offered = 0 → ¬Uncounted s e := fun hoffered hun => by
    have hpos := hun.2.2
    omega
  cases hst with
  | admitted p items queue hcall hidle hroom hitems hdropped hmax hstrategy =>
    obtain ⟨hledger, hiff⟩ := h.same queue _ _ (by rw [hitems]) hdropped
    refine ⟨hledger, hiff.trans (and_iff_left ?_).symm⟩
    rintro ⟨-, hfull, -⟩
    rw [MessageQueue.isFull, decide_eq_true_eq] at hfull
    omega
  | waitsOn hoffered => exact ⟨h, (and_iff_left (hnone hoffered)).symm⟩
  | waits p items queue hthrottle hcall hidle hitems hdropped hmax hstrategy =>
    obtain ⟨hledger, hiff⟩ := h.same queue _ _ (by rw [hitems]) hdropped
    refine ⟨hledger, hiff.trans (and_iff_left ?_).symm⟩
    rintro ⟨hundefined, -, -⟩
    rw [hthrottle] at hundefined
    cases hundefined
  | refused queue hfull hitems hdropped hmax hstrategy =>
    by_cases hundefined : s.queue.overflow_strategy = .undefined
    · rw [if_neg (not_not.mpr hundefined)] at hdropped
      have hadded : queue.dropped - s.queue.dropped = 0 := by omega
      obtain ⟨hledger, hiff⟩ := h.snoc queue s.producers
        ⟨e.offered, false, queue.dropped - s.queue.dropped⟩ (by simp [hadded])
        (by rw [hitems]; rfl) (by rw [hadded, hdropped])
      refine ⟨hledger, hiff.trans (and_congr_right fun _ => ?_)⟩
      -- nothing was added, which is too little for a call with items
      rw [hadded, Uncounted]
      simp only [hundefined, hfull, true_and, Bool.false_eq_true, if_false]
      omega
    · rw [if_pos hundefined] at hdropped
      have hadded : queue.dropped - s.queue.dropped = e.offered := by omega
      obtain ⟨hledger, hiff⟩ := h.snoc queue s.producers
        ⟨e.offered, false, queue.dropped - s.queue.dropped⟩ (by simp [hadded])
        (by rw [hitems]; rfl) (by rw [hadded, hdropped])
      exact ⟨hledger, hiff.trans (and_congr_right fun _ =>
        iff_of_true hadded fun hun => hundefined hun.1)⟩
  | pushed p items hoffered hpushing =>
    obtain ⟨hledger, hiff⟩ := h.snoc (s.queue.push items)
      (Function.update s.producers p .idle) ⟨items.length, true, 0⟩ (Nat.zero_le _)
      (by rw [MessageQueue.items_push, List.length_append]; rfl) rfl
    exact ⟨hledger, hiff.trans (and_congr_right fun _ => iff_of_true rfl (hnone hoffered))⟩
  | dequeued got queue hoffered hitems hdropped hmax hstrategy =>
    obtain ⟨hledger, hiff⟩ := h.same queue s.producers (s.dequeued + got.length)
      (by rw [← hitems, Nat.add_assoc]) hdropped
    exact ⟨hledger, hiff.trans (and_iff_left (hnone hoffered)).symm⟩

/-- **When the items of all calls are accounted for**: in a run of any threads over a
queue of any settings, no item is lost track of exactly when no call meets a full queue
without a strategy. -/
theorem accounted_iff [DecidableEq T] (max_queue_size : ℕ) (strategy : OverflowStrategy)
    {events : List (Event P T)}
    (hrun : events.foldlM step (System.start (.new max_queue_size strategy)) = some t) :
    Accounted t ↔ Machine.Throughout step (fun s e => ¬Uncounted s e)
      (System.start (.new max_queue_size strategy)) events := by
  have hstart : Ledger (System.start (.new max_queue_size strategy) : System P T) :=
    ⟨rfl, rfl, by simp [System.start]⟩
  suffices h : Ledger t ∧ (Accounted t ↔ Machine.Throughout step (fun s e => ¬Uncounted s e)
      (System.start (.new max_queue_size strategy)) events) from h.2
  induction events using List.reverseRecOn generalizing t with
  | nil =>
    cases hrun
    exact ⟨hstart, iff_of_true ⟨rfl, by simp [System.start]⟩ trivial⟩
  | append_singleton events e ih =>
    obtain ⟨s, hs, hst⟩ := Machine.foldlM_snoc_eq_some.mp hrun
    obtain ⟨hledger, hiff⟩ := ih hs
    obtain ⟨hledger', hstep⟩ := hledger.change (change_of_step hst)
    exact ⟨hledger', by rw [hstep, hiff, Machine.throughout_snoc hs]⟩

/-- One thread enqueues two items, one after the other. -/
def twoItems : List (Event 1 ℕ) := [.enqueue 0 1, .push 0, .enqueue 0 2]

/-- A queue of length one that drops, and a call that it drops. -/
theorem accounted_iff_drop :
    ∃ t, twoItems.foldlM step (System.start (.new 1 .drop)) = some t ∧
      (Accounted t ↔ Machine.Throughout step (fun s e => ¬Uncounted s e)
        (System.start (.new 1 .drop)) twoItems) :=
  ⟨_, rfl, accounted_iff 1 .drop rfl⟩

end Accounts

/-! ### A queue that loses track -/

/-- The part of a configuration that makes an input whose queue has no strategy. -/
def undefinedSource : Nlohmann.Value :=
  .object [(ascii "max_queue_size", .unsigned 1), (ascii "name", .string (ascii "app")),
    (ascii "overflow_strategy", .string (ascii "undefined")), (ascii "threads", .unsigned 1),
    (ascii "type", .string (ascii "dummy"))]

/-- **The second item is gone without a trace**: the call has returned `false`, and
nothing was added to `m_dropped`. -/
theorem lost_undefined :
    ∃ (sourceConfig : SourceConfig Unit) (t : System 1 ℕ),
      SourceConfig.from_json (fun _ => some ()) () Float.toUInt64 undefinedSource =
          .ok sourceConfig ∧
        twoItems.foldlM step (System.start (.ofConfig sourceConfig)) = some t ∧
        (∃ call ∈ t.calls, call.result = false ∧ call.count = 1 ∧ call.added = 0) ∧
        (t.calls.map Call.count).sum ≠ t.dequeued + t.queue.items.length + t.queue.dropped :=
  ⟨⟨ascii "app", (), 1, 1, .undefined, []⟩, _, rfl, rfl, ⟨⟨1, false, 0⟩, by decide, rfl, rfl, rfl⟩,
    by decide⟩

end Producers

end IqLogger
