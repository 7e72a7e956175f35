import IqLogger.Lib.Bulks
import IqLogger.Pipeline.Threads
import Mathlib.Tactic.Abel

/-!
# Where the records of the pipeline are

A record that was put into the queue of the input is on its way to every output at once: up
to the main queue it is one and the same for all of them, and an export thread has it in
hand for those it has not sent it to. For each output, a record that was handed on is in a queue, in
the hands of a thread, or has come to an end, and no step changes how often it is in these
places together (`IqLogger.Pipeline.Balanced`). It is enough to look at the thread
that makes the step, and the queues it works on
(`IqLogger.Pipeline.Balanced.importer` and the two like it).
-/

namespace IqLogger

namespace Pipeline

open Tail

variable {c : Config}

/-! ### Calls -/

section Offer

variable {T : Type} {q : MessageQueue T} (items : List T) (phase : Phase)

/-- **A call at a queue that throttles** goes on, or it is over and has pushed all its
items. -/
theorem offer_spec (hq : q.overflow_strategy = .throttle) :
    (offer q items phase).1.overflow_strategy = .throttle ∧
      ((∃ next, (offer q items phase).2 = some next ∧ (offer q items phase).1.items = q.items) ∨
        (offer q items phase).2 = none ∧ (offer q items phase).1.items = q.items ++ items) := by
  cases phase with
  | looks =>
    rw [offer, MessageQueue.enqueue_bulk, MessageQueue.checkSize]
    by_cases hfull : q.isFull
    · rw [if_pos hfull, hq]
      exact ⟨rfl, Or.inl ⟨.waits, rfl, rfl⟩⟩
    · rw [if_neg hfull]
      exact ⟨hq, Or.inl ⟨.pushes, rfl, rfl⟩⟩
  | waits => exact ⟨hq, Or.inl ⟨_, rfl, rfl⟩⟩
  | pushes => exact ⟨hq, Or.inr ⟨rfl, rfl⟩⟩

/-- What is taken and what stays is what there was. -/
theorem coe_take [DecidableEq T] (q : MessageQueue T) {got : List T}
    (hgot : got.isSubperm q.items) :
    (↑q.items : Multiset T) = ↑got + ↑(q.take got).items := by
  have hle : (↑got : Multiset T) ≤ ↑q.items := Multiset.coe_le.mpr (List.isSubperm_iff.mp hgot)
  rw [MessageQueue.take, ← Multiset.coe_sub, add_tsub_cancel_of_le hle]

end Offer

/-! ### What was handed on -/

/-- The records that were put into the queue of the input. -/
def handedOn (history : List (String × Call)) : List TailRecord :=
  history.filterMap fun | (f, .processMessage m) => some ⟨f, m⟩ | _ => none

theorem handedOn_append (h : List (String × Call)) (f : String) (call : Call) :
    handedOn (h ++ [(f, call)]) = handedOn h ++ (messages [call]).map (.mk f) := by
  rw [handedOn, List.filterMap_append]
  cases call <;> rfl

/-! ### Where the records are -/

/-- What an import thread has in hand. -/
def Importer.inHand : Importer → Multiset TailRecord
  | .top => 0
  | .taking => 0
  | .sending records _ => ↑records
  | .ended => 0

/-- What an export thread has in hand for an output: nothing when it is past it. -/
def Exporter.inHand (o : Fin c.outputs) : Exporter c.outputs → Multiset TailRecord
  | .top => 0
  | .taking => 0
  | .sending records o' _ => if o' ≤ o then ↑records else 0
  | .ended => 0

/-- What an output thread has in hand. -/
def OutputThread.inHand : OutputThread → Multiset TailRecord
  | .top => 0
  | .taking => 0
  | .exporting records _ => ↑records
  | .ended => 0

namespace System

variable (s : System c) (o : Fin c.outputs)

/-- What is on its way to an output, in the queues. -/
def inQueues : Multiset TailRecord :=
  ↑s.inputQueue.items + ↑s.mainQueue.items + ↑(s.outputQueue o).items

/-- What is on its way to an output, in the hands of the threads. -/
def inHands : Multiset TailRecord :=
  ∑ i, (s.importer i).inHand + ∑ e, (s.exporter e).inHand o +
    ∑ w, if c.output w = o then (s.outputThread w).inHand else 0

/-- What has come to an end at an output: it was exported, or the write was given up. -/
def done : Multiset TailRecord := ↑(s.exported o) + ↑(s.interrupted o)

/-- **The hands of one thread change.** -/
theorem inHands_importer (i : Fin c.importers) (next : Importer) :
    ({ s with importer := Function.update s.importer i next } : System c).inHands o +
        (s.importer i).inHand = s.inHands o + next.inHand := by
  obtain ⟨rest, hold, hnew⟩ :=
    Finset.sum_apply_update (fun _ => Importer.inHand) s.importer i next
  rw [inHands, inHands, hold, hnew]
  abel

theorem inHands_exporter (e : Fin c.exporters) (next : Exporter c.outputs) :
    ({ s with exporter := Function.update s.exporter e next } : System c).inHands o +
        (s.exporter e).inHand o = s.inHands o + next.inHand o := by
  obtain ⟨rest, hold, hnew⟩ :=
    Finset.sum_apply_update (fun _ => Exporter.inHand o) s.exporter e next
  rw [inHands, inHands, hold, hnew]
  abel

theorem inHands_output (w : Fin c.outputThreads) (next : OutputThread) :
    ({ s with outputThread := Function.update s.outputThread w next } : System c).inHands o +
        (if c.output w = o then (s.outputThread w).inHand else 0) =
      s.inHands o + if c.output w = o then next.inHand else 0 := by
  obtain ⟨rest, hold, hnew⟩ := Finset.sum_apply_update
    (fun w thread => if c.output w = o then OutputThread.inHand thread else 0) s.outputThread w next
  rw [inHands, inHands, hold, hnew]
  abel

end System

/-- **Every record that was handed on is accounted for**, at each output. -/
structure Balanced (s : System c) : Prop where
  input : s.inputQueue.overflow_strategy = .throttle
  main : s.mainQueue.overflow_strategy = .throttle
  outputs : ∀ o, (s.outputQueue o).overflow_strategy = .throttle
  balance : ∀ o, (↑(handedOn s.history) : Multiset TailRecord) =
    s.done o + s.inQueues o + s.inHands o

section Balance

variable {s t : System c}

/-- A thread of the input makes a step. -/
theorem Balanced.stepTailer (h : Balanced s) {i : c.Tailers} (hstep : s.stepTailer i = some t) :
    Balanced t := by
  simp only [System.stepTailer] at hstep
  split at hstep
  · cases hstep
    exact ⟨h.input, h.main, h.outputs, h.balance⟩
  · cases hstep
    exact ⟨h.input, h.main, h.outputs, h.balance⟩
  · next f calls _ =>
    split at hstep
    · cases hstep
      exact ⟨h.input, h.main, h.outputs, h.balance⟩
    · cases hstep
      exact ⟨h.input, h.main, h.outputs, h.balance⟩
    · cases hstep
      refine ⟨h.input, h.main, h.outputs, fun o => ?_⟩
      dsimp only
      rw [handedOn_append]
      exact (congrArg _ (List.append_nil _)).trans (h.balance o)
    · cases hstep
      refine ⟨h.input, h.main, h.outputs, fun o => ?_⟩
      dsimp only
      rw [handedOn_append]
      exact (congrArg _ (List.append_nil _)).trans (h.balance o)
  · next f m phase calls _ =>
    obtain ⟨hstrategy, ⟨next, hnext, hitems⟩ | ⟨hover, hitems⟩⟩ :=
      offer_spec [TailRecord.mk f m] phase h.input
    · rw [hnext] at hstep
      cases hstep
      refine ⟨hstrategy, h.main, h.outputs, fun o => (h.balance o).trans ?_⟩
      simp only [System.inQueues, hitems]
      rfl
    · rw [hover] at hstep
      cases hstep
      refine ⟨hstrategy, h.main, h.outputs, fun o => ?_⟩
      simp only [handedOn_append, System.inQueues, hitems, ← Multiset.coe_add]
      rw [h.balance o, System.inQueues]
      change _ = s.done o + _ + s.inHands o
      rw [show (messages [Call.processMessage m]).map (TailRecord.mk f) = [⟨f, m⟩] from rfl]
      abel
  · cases hstep

/-- A thread of the input turns to a record. -/
theorem Balanced.turn (h : Balanced s) {i : c.Tailers} {f : String} (hstep : s.turn i f = some t) :
    Balanced t := by
  rw [System.turn] at hstep
  split_ifs at hstep
  cases hstep
  exact ⟨h.input, h.main, h.outputs, h.balance⟩

/-- **What leaves one place comes to another**, so that both together stay what they were. -/
theorem add_eq_of_moved {M : Type*} [AddCancelCommMonoid M] {here here' there there' old new : M}
    (hhere : here' + new = here + old) (hthere : there' + old = there + new) :
    here' + there' = here + there := by
  refine add_right_cancel (b := new + old) ?_
  rw [add_add_add_comm, hhere, hthere, add_add_add_comm, add_comm old]

/-- **An import thread changes**, and the two queues it works on. -/
theorem Balanced.importer (h : Balanced s) (i : Fin c.importers) (next : Importer)
    (input main : MessageQueue TailRecord) (hinput : input.overflow_strategy = .throttle)
    (hmain : main.overflow_strategy = .throttle)
    (hbalance : (↑input.items + ↑main.items + next.inHand : Multiset TailRecord) =
      ↑s.inputQueue.items + ↑s.mainQueue.items + (s.importer i).inHand) :
    Balanced { s with
      inputQueue := input
      mainQueue := main
      importer := Function.update s.importer i next } := by
  refine ⟨hinput, hmain, h.outputs, fun o => ?_⟩
  rw [h.balance o]
  refine (add_eq_of_moved ?_ (s.inHands_importer o i next)).symm
  calc (s.done o + (↑input.items + ↑main.items + ↑(s.outputQueue o).items) + next.inHand)
    _ = s.done o + ↑(s.outputQueue o).items + (↑input.items + ↑main.items + next.inHand) := by
        abel
    _ = s.done o + s.inQueues o + (s.importer i).inHand := by
        rw [hbalance, System.inQueues]
        abel

theorem Balanced.outputs_update (h : Balanced s) {o : Fin c.outputs} {q : MessageQueue TailRecord}
    (hq : q.overflow_strategy = .throttle) :
    ∀ o', (Function.update s.outputQueue o q o').overflow_strategy = .throttle :=
  (Function.forall_update_iff s.outputQueue fun _ q => q.overflow_strategy = .throttle).mpr
    ⟨hq, fun o' _ => h.outputs o'⟩

/-- **An export thread changes**, and the queues it works on. -/
theorem Balanced.exporter (h : Balanced s) (e : Fin c.exporters) (next : Exporter c.outputs)
    (main : MessageQueue TailRecord) (outputQueue : Fin c.outputs → MessageQueue TailRecord)
    (hmain : main.overflow_strategy = .throttle)
    (houtputs : ∀ o, (outputQueue o).overflow_strategy = .throttle)
    (hbalance : ∀ o, (↑main.items + ↑(outputQueue o).items + next.inHand o : Multiset TailRecord) =
      ↑s.mainQueue.items + ↑(s.outputQueue o).items + (s.exporter e).inHand o) :
    Balanced { s with
      mainQueue := main
      outputQueue := outputQueue
      exporter := Function.update s.exporter e next } := by
  refine ⟨h.input, hmain, houtputs, fun o => ?_⟩
  rw [h.balance o]
  refine (add_eq_of_moved ?_ (s.inHands_exporter o e next)).symm
  calc (s.done o + (↑s.inputQueue.items + ↑main.items + ↑(outputQueue o).items) + next.inHand o)
    _ = s.done o + ↑s.inputQueue.items +
          (↑main.items + ↑(outputQueue o).items + next.inHand o) := by
        abel
    _ = s.done o + s.inQueues o + (s.exporter e).inHand o := by
        rw [hbalance, System.inQueues]
        abel

/-- **An output thread changes**, and the queue of its output, and what it has
exported. -/
theorem Balanced.output (h : Balanced s) (w : Fin c.outputThreads) (next : OutputThread)
    (outputQueue : Fin c.outputs → MessageQueue TailRecord)
    (exported interrupted : Fin c.outputs → List TailRecord)
    (houtputs : ∀ o, (outputQueue o).overflow_strategy = .throttle)
    (hbalance : ∀ o, (↑(exported o) + ↑(interrupted o) + ↑(outputQueue o).items +
        (if c.output w = o then next.inHand else 0) : Multiset TailRecord) =
      s.done o + ↑(s.outputQueue o).items +
        if c.output w = o then (s.outputThread w).inHand else 0) :
    Balanced { s with
      outputQueue := outputQueue
      exported := exported
      interrupted := interrupted
      outputThread := Function.update s.outputThread w next } := by
  refine ⟨h.input, h.main, houtputs, fun o => ?_⟩
  rw [h.balance o]
  refine (add_eq_of_moved ?_ (s.inHands_output o w next)).symm
  calc (↑(exported o) + ↑(interrupted o) +
        (↑s.inputQueue.items + ↑s.mainQueue.items + ↑(outputQueue o).items) +
        if c.output w = o then next.inHand else 0 : Multiset TailRecord)
    _ = ↑s.inputQueue.items + ↑s.mainQueue.items + (↑(exported o) + ↑(interrupted o) +
          ↑(outputQueue o).items + if c.output w = o then next.inHand else 0) := by
        abel
    _ = s.done o + s.inQueues o + if c.output w = o then (s.outputThread w).inHand else 0 := by
        rw [hbalance, System.inQueues]
        abel

/-- An import thread makes a step. -/
theorem Balanced.stepImporter (h : Balanced s) {i : Fin c.importers}
    (hstep : s.stepImporter i = some t) : Balanced t := by
  simp only [System.stepImporter] at hstep
  split at hstep
  · next htop =>
    cases hstep
    refine h.importer i _ s.inputQueue s.mainQueue h.input h.main ?_
    rw [htop]
    split_ifs <;> rfl
  · cases hstep
  · next records phase hsending =>
    cases hstep
    obtain ⟨hstrategy, hout⟩ := offer_spec records phase h.main
    refine h.importer i _ s.inputQueue _ h.input hstrategy ?_
    rw [hsending]
    rcases hout with ⟨next, hnext, hitems⟩ | ⟨hover, hitems⟩
    · rw [hnext, hitems]
      rfl
    · rw [hover, hitems, ← Multiset.coe_add]
      simp only [Option.elim_none, Importer.inHand]
      abel
  · cases hstep

/-- An import thread takes records. -/
theorem Balanced.importerTakes (h : Balanced s) {i : Fin c.importers} {got : List TailRecord}
    (hstep : s.importerTakes i got = some t) : Balanced t := by
  obtain ⟨⟨htaking, -, hgot⟩, hstep⟩ := Option.ite_none_right_eq_some.mp hstep
  cases hstep
  refine h.importer i _ _ s.mainQueue h.input h.main ?_
  have hhand : (if got = [] then Importer.top else .sending got .looks).inHand = ↑got := by
    split_ifs with hnil
    · rw [hnil]
      rfl
    · rfl
  rw [hhand, htaking, coe_take s.inputQueue hgot, Importer.inHand]
  abel

/-- What an export thread has in hand when it turns to an output. -/
theorem inHand_sendingFrom (records : List TailRecord) (n : ℕ) (o : Fin c.outputs) :
    (System.sendingFrom records n : Exporter c.outputs).inHand o =
      if n ≤ o then ↑records else 0 := by
  rw [System.sendingFrom]
  by_cases hn : n < c.outputs
  · rw [dif_pos hn]
    rfl
  · rw [dif_neg hn, if_neg (by omega)]
    rfl

/-- An export thread makes a step. What it pushes to an output is not in its hand for that
output any more. -/
theorem Balanced.stepExporter (h : Balanced s) {e : Fin c.exporters}
    (hstep : s.stepExporter e = some t) : Balanced t := by
  simp only [System.stepExporter] at hstep
  split at hstep
  · next htop =>
    cases hstep
    refine h.exporter e _ s.mainQueue s.outputQueue h.main h.outputs fun o => ?_
    rw [htop]
    split_ifs <;> rfl
  · cases hstep
  · next records o' phase hsending =>
    cases hstep
    obtain ⟨hstrategy, hout⟩ := offer_spec records phase (h.outputs o')
    refine h.exporter e _ s.mainQueue _ h.main (fun o => ?_) fun o => ?_
    · exact h.outputs_update hstrategy o
    · rw [hsending]
      rcases hout with ⟨next, hnext, hitems⟩ | ⟨hover, hitems⟩
      · rw [hnext]
        by_cases ho : o = o'
        · subst ho
          rw [Function.update_self, hitems]
          rfl
        · rw [Function.update_of_ne ho]
          rfl
      · rw [hover, Option.elim_none, inHand_sendingFrom, Exporter.inHand]
        by_cases ho : o = o'
        · subst ho
          rw [Function.update_self, hitems, ← Multiset.coe_add, if_neg (by omega),
            if_pos (le_refl _)]
          abel
        · have hiff : (o' : ℕ) + 1 ≤ o ↔ o' ≤ o := by
            rw [Fin.le_def]
            omega
          rw [Function.update_of_ne ho]
          simp only [hiff]
  · cases hstep

/-- An export thread takes records. -/
theorem Balanced.exporterTakes (h : Balanced s) {e : Fin c.exporters} {got : List TailRecord}
    (hstep : s.exporterTakes e got = some t) : Balanced t := by
  obtain ⟨⟨htaking, -, hgot⟩, hstep⟩ := Option.ite_none_right_eq_some.mp hstep
  cases hstep
  refine h.exporter e _ _ s.outputQueue h.main h.outputs fun o => ?_
  have hhand : (if got = [] then .top else System.sendingFrom got 0 : Exporter c.outputs).inHand o =
      ↑got := by
    split_ifs with hnil
    · rw [hnil]
      rfl
    · rw [inHand_sendingFrom, if_pos (Nat.zero_le _)]
  rw [hhand, htaking, coe_take s.mainQueue hgot, Exporter.inHand]
  abel

/-- An output thread makes a step. -/
theorem Balanced.stepOutput (h : Balanced s) {w : Fin c.outputThreads}
    (hstep : s.stepOutput w = some t) : Balanced t := by
  simp only [System.stepOutput] at hstep
  split at hstep
  · next htop =>
    cases hstep
    refine h.output w _ s.outputQueue s.exported s.interrupted h.outputs fun o => ?_
    rw [htop]
    split_ifs <;> rfl
  · cases hstep
  · next cut hexporting =>
    cases hstep
    refine h.output w _ s.outputQueue s.exported s.interrupted h.outputs fun o => ?_
    rw [hexporting]
    rfl
  · next r records cut hexporting =>
    cases hstep
    refine h.output w _ s.outputQueue _ s.interrupted h.outputs fun o => ?_
    rw [hexporting, System.done]
    by_cases ho : c.output w = o
    · subst ho
      have hcons : (↑(r :: records) : Multiset TailRecord) = ↑[r] + ↑records := by
        rw [Multiset.coe_add, List.singleton_append]
      rw [Function.update_self, if_pos rfl, if_pos rfl, ← Multiset.coe_add, OutputThread.inHand,
        OutputThread.inHand, hcons]
      abel
    · rw [Function.update_of_ne (Ne.symm ho), if_neg ho, if_neg ho]
  · cases hstep

/-- An output thread takes records. -/
theorem Balanced.outputTakes (h : Balanced s) {w : Fin c.outputThreads} {got : List TailRecord}
    (hstep : s.outputTakes w got = some t) : Balanced t := by
  obtain ⟨⟨htaking, -, hgot⟩, hstep⟩ := Option.ite_none_right_eq_some.mp hstep
  cases hstep
  refine h.output w _ _ s.exported s.interrupted (fun o => ?_) fun o => ?_
  · have htake : ((s.outputQueue (c.output w)).take got).overflow_strategy = .throttle :=
      h.outputs (c.output w)
    exact h.outputs_update htake o
  · have hhand : (if got = [] then OutputThread.top else .exporting got false).inHand = ↑got := by
      split_ifs with hnil
      · rw [hnil]
        rfl
      · rfl
    rw [hhand, htaking, System.done]
    by_cases ho : c.output w = o
    · subst ho
      rw [Function.update_self, if_pos rfl, if_pos rfl, coe_take (s.outputQueue _) hgot,
          OutputThread.inHand]
      abel
    · rw [Function.update_of_ne (Ne.symm ho), if_neg ho, if_neg ho]

/-- **What is given up** was in the hands of the thread. -/
theorem Balanced.givesUp (h : Balanced s) {w : Fin c.outputThreads} {n : ℕ}
    (hstep : s.givesUp w n = some t) : Balanced t := by
  rw [System.givesUp] at hstep
  split at hstep
  · next records hexporting =>
    cases hstep
    refine h.output w _ s.outputQueue s.exported _ h.outputs fun o => ?_
    rw [hexporting, System.done]
    by_cases ho : c.output w = o
    · subst ho
      have hsplit : (↑records : Multiset TailRecord) = ↑(records.take n) + ↑(records.drop n) := by
        rw [Multiset.coe_add, List.take_append_drop]
      rw [Function.update_self, if_pos rfl, if_pos rfl, ← Multiset.coe_add, OutputThread.inHand,
        OutputThread.inHand, hsplit]
      abel
    · rw [Function.update_of_ne (Ne.symm ho), if_neg ho, if_neg ho]
  · cases hstep

/-- `stop` moves no records. -/
theorem Balanced.stepStop (h : Balanced s) (hstep : s.stepStop = some t) : Balanced t := by
  rw [System.stepStop] at hstep
  split at hstep
  · cases hstep
  · cases hstep
    exact ⟨h.input, h.main, h.outputs, h.balance⟩
  · cases hstep
    refine ⟨h.input, h.main, h.outputs, fun o => (h.balance o).trans ?_⟩
    have hhand : ∀ thread : OutputThread, thread.interrupt.inHand = thread.inHand := by
      rintro (_ | _ | _ | _) <;> rfl
    refine congrArg (fun hands => s.done o + s.inQueues o + hands) ?_
    simp only [System.inHands, apply_ite OutputThread.inHand, hhand, ite_self]
  · split_ifs at hstep
    cases hstep
    exact ⟨h.input, h.main, h.outputs, h.balance⟩
  · cases hstep

/-- **No step loses track of a record.** -/
theorem Balanced.step (h : Balanced s) {event : Event c} (hstep : s.step event = some t) :
    Balanced t := by
  cases event with
  | append f bytes =>
    cases hstep
    exact ⟨h.input, h.main, h.outputs, h.balance⟩
  | rewrite f content =>
    cases hstep
    exact ⟨h.input, h.main, h.outputs, h.balance⟩
  | tailer i => exact h.stepTailer hstep
  | turn i f => exact h.turn hstep
  | importer i => exact h.stepImporter hstep
  | importerTakes i got => exact h.importerTakes hstep
  | exporter e => exact h.stepExporter hstep
  | exporterTakes e got => exact h.exporterTakes hstep
  | output w => exact h.stepOutput hstep
  | outputTakes w got => exact h.outputTakes hstep
  | givesUp w n => exact h.givesUp hstep
  | stop => exact h.stepStop hstep

theorem balanced_start (files : String → FileAtStart) : Balanced (System.start c files) where
  input := rfl
  main := rfl
  outputs _ := rfl
  balance o := by simp [System.start, handedOn, System.done, System.inQueues, System.inHands,
    Importer.inHand, Exporter.inHand, OutputThread.inHand, MessageQueue.new, MessageQueue.byName]

end Balance

end Pipeline

end IqLogger
