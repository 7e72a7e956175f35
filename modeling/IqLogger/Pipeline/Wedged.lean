import IqLogger.Lib.WaitingThreads
import IqLogger.Pipeline.Flow

/-!
# Threads that never end

A call at a queue that throttles sleeps while the queue is full, and does not look at the flags
that tell its thread to stop. So a thread that waits behind a queue from which nobody takes any
more cannot be stopped: if the threads of an output have ended and its queue is full, an export
thread in a call there waits for ever, and so does `OutputServer::stop`, which joins it; behind it
the main queue fills up, and import and processor threads wait for ever as well
(`IqLogger.Pipeline.Flow.wedged_forever`).

The general part of this is in `IqLogger.Lib.WaitingThreads`. Here it is shown that the pipeline
is such a system (`IqLogger.Pipeline.Flow.lawful_net`).
-/

namespace IqLogger.Pipeline.Flow

/-! ### Queues that are full -/

section Clogged

variable {T : Type}

/-- The queue is full, and throttles. -/
def Clogged (q : MessageQueue T) : Prop := q.isFull = true ∧ q.overflow_strategy = .throttle

variable {q : MessageQueue T} (h : Clogged q) (items : List T)

include h

/-- **A call that finds the queue full waits.** -/
theorem Clogged.offer_eq {phase : Phase} (hphase : phase ≠ .pushes) :
    (offer q items phase).2 = some .waits := by
  rcases phase with _ | _ | _
  · rw [offer, MessageQueue.enqueue_bulk, MessageQueue.checkSize, if_pos h.1, h.2]
  · rw [offer, h.1, if_pos rfl]
  · exact absurd rfl hphase

/-- No call makes room. -/
theorem Clogged.offer (phase : Phase) : Clogged (offer q items phase).1 := by
  rcases phase with _ | _ | _
  · rw [Pipeline.offer, MessageQueue.enqueue_bulk, MessageQueue.checkSize, if_pos h.1, h.2]
    exact ⟨h.1, rfl⟩
  · exact h
  · refine ⟨?_, h.2⟩
    have hfull := of_decide_eq_true h.1
    rw [Pipeline.offer, MessageQueue.push, MessageQueue.isFull, decide_eq_true_eq,
      List.length_append]
    exact Nat.le_add_right_of_le hfull

end Clogged

/-- No call changes what a queue does on overflow. -/
theorem strategy_offer {T : Type} {q : MessageQueue T} (items : List T) (phase : Phase) :
    (offer q items phase).1.overflow_strategy = q.overflow_strategy := by
  rcases phase with _ | _ | _
  · have hlook : (q.enqueue_bulk items).2.overflow_strategy = q.overflow_strategy :=
      MessageQueue.overflow_strategy_checkSize _
    rw [offer]
    rcases hcall : q.enqueue_bulk items with ⟨_ | _ | _, q'⟩ <;> rw [hcall] at hlook <;>
    exact hlook
  · rfl
  · rfl

/-! ### The pipeline as threads and queues -/

section Net

variable (c : Setup)

/-- The threads. -/
inductive Thread
  | producer (p : Fin c.producers)
  | importer (i : Fin c.importers)
  | processor (p : Fin c.processors)
  | exporter (e : Fin c.exporters)
  | output (w : Fin c.outputThreads)
  deriving DecidableEq

/-- The queues. -/
inductive Queue
  | input (i : Fin c.inputs)
  | process
  | main
  | output (o : Fin c.outputs)
  deriving DecidableEq

variable {c} {R M O : Type}

/-- The thread that makes a step. -/
def Event.thread : Event c R M O → Option (Thread c)
  | .produce p _ _ => some (.producer p)
  | .producer p => some (.producer p)
  | .importer i => some (.importer i)
  | .importerTakes i _ => some (.importer i)
  | .importerConverts i _ => some (.importer i)
  | .processor p => some (.processor p)
  | .processorTakes p _ => some (.processor p)
  | .processorConverts p _ => some (.processor p)
  | .exporter e => some (.exporter e)
  | .exporterTakes e _ => some (.exporter e)
  | .exporterConverts e _ => some (.exporter e)
  | .output w => some (.output w)
  | .outputTakes w _ => some (.output w)
  | .flush w _ _ => some (.output w)
  | .clear _ => none

/-- Who takes from a queue. An import thread takes from those of all inputs. -/
def Thread.TakesFrom : Thread c → Queue c → Prop
  | .importer _, .input _ => True
  | .processor _, .process => True
  | .exporter _, .main => True
  | .output w, .output o => c.output w = o
  | _, _ => False

namespace System

variable (s : System c R M O)

/-- A queue is full, and throttles. -/
def Full : Queue c → Prop
  | .input i => Clogged (s.inputQueue i)
  | .process => Clogged s.processQueue
  | .main => Clogged s.mainQueue
  | .output o => Clogged (s.outputQueue o)

/-- A thread is in a call at a queue, and has not found room there yet. -/
def Waits : Thread c → Queue c → Prop
  | .producer p, .input i => ∃ call, s.producer p = some call ∧ call.input = i ∧
      call.phase ≠ .pushes
  | .importer t, .process => ∃ i counter messages phase,
      s.importer t = .sending i counter messages phase ∧ phase ≠ .pushes ∧
        (c.processorScriptIndex i).isSome
  | .importer t, .main => ∃ i counter messages phase,
      s.importer t = .sending i counter messages phase ∧ phase ≠ .pushes ∧
        (c.processorScriptIndex i).isNone
  | .processor p, .main => ∃ messages phase,
      s.processor p = .sending messages phase ∧ phase ≠ .pushes
  | .exporter e, .output o => ∃ messages records phase,
      s.exporter e = .sending messages o records phase ∧ phase ≠ .pushes
  | _, _ => False

/-- A thread has ended. Producers are calls, and do not end here. -/
def Ended : Thread c → Prop
  | .producer _ => False
  | .importer i => s.importer i = .ended
  | .processor p => s.processor p = .ended
  | .exporter e => s.exporter e = .ended
  | .output w => s.outputThread w = .ended

end System

variable (c R M O) in
/-- The pipeline, as far as its threads wait for each other. -/
def net [DecidableEq R] [DecidableEq M] [DecidableEq O] :
    QueueNet (System c R M O) (Event c R M O) (Thread c) (Queue c) where
  step := System.step
  waits := System.Waits
  full := System.Full
  ended := System.Ended
  takesFrom := Thread.TakesFrom

end Net

/-! ### What a step leaves alone -/

section Frame

variable {c : Setup} {R M O : Type} {s t : System c R M O}

/-- **A step of one thread**: the others are where they were, the queues of the outputs do on
overflow what they did, and a queue stays full unless the thread takes from it and was not
idle. -/
structure Frame (s t : System c R M O) (who : Option (Thread c)) : Prop where
  producer : ∀ p, who ≠ some (.producer p) → t.producer p = s.producer p
  importer : ∀ i, who ≠ some (.importer i) → t.importer i = s.importer i
  processor : ∀ p, who ≠ some (.processor p) → t.processor p = s.processor p
  exporter : ∀ e, who ≠ some (.exporter e) → t.exporter e = s.exporter e
  output : ∀ w, who ≠ some (.output w) → t.outputThread w = s.outputThread w
  strategy : ∀ o, (t.outputQueue o).overflow_strategy = (s.outputQueue o).overflow_strategy
  full : ∀ k, s.Full k → t.Full k ∨ ∃ x, who = some x ∧ x.TakesFrom k ∧ ¬s.Ended x ∧
    ∀ k', ¬s.Waits x k'

/-- The queues, one kind after the other. -/
theorem full_of_queues {k : Queue c} (h : s.Full k)
    (hinput : ∀ i, Clogged (s.inputQueue i) → Clogged (t.inputQueue i))
    (hprocess : Clogged s.processQueue → Clogged t.processQueue)
    (hmain : Clogged s.mainQueue → Clogged t.mainQueue)
    (houtput : ∀ o, Clogged (s.outputQueue o) → Clogged (t.outputQueue o)) : t.Full k := by
  rcases k with i | _ | _ | o
  · exact hinput i h
  · exact hprocess h
  · exact hmain h
  · exact houtput o h

/-- A queue of several changes. -/
theorem clogged_update {T κ : Type} [DecidableEq κ] {queues : κ → MessageQueue T} {i : κ}
    {q : MessageQueue T} (hq : Clogged (queues i) → Clogged q) (j : κ)
    (h : Clogged (queues j)) : Clogged (Function.update queues i q j) := by
  by_cases hj : j = i
  · subst hj
    rw [Function.update_self]
    exact hq h
  · rw [Function.update_of_ne hj]
    exact h

/-- A queue of several changes, but not what it does on overflow. -/
theorem strategy_update {T κ : Type} [DecidableEq κ] {queues : κ → MessageQueue T} {i : κ}
    {q : MessageQueue T} (hq : q.overflow_strategy = (queues i).overflow_strategy) (j : κ) :
    (Function.update queues i q j).overflow_strategy = (queues j).overflow_strategy := by
  by_cases hj : j = i
  · subst hj
    rwa [Function.update_self]
  · rw [Function.update_of_ne hj]

variable (s) in
/-- A producer changes, and a queue of an input. -/
theorem frame_producer (p : Fin c.producers) (next : ℕ) (call : Option (Offer c R))
    (inputQueue : Fin c.inputs → MessageQueue (Numbered R)) (refused : List ℕ)
    (hinput : ∀ i, Clogged (s.inputQueue i) → Clogged (inputQueue i)) :
    Frame s { s with
      next := next
      inputQueue := inputQueue
      refused := refused
      producer := Function.update s.producer p call } (some (.producer p)) where
  producer _ hp := Function.update_of_ne (fun h => hp (by rw [h])) ..
  importer _ _ := rfl
  processor _ _ := rfl
  exporter _ _ := rfl
  output _ _ := rfl
  strategy _ := rfl
  full _ h := Or.inl (full_of_queues h hinput id id fun _ => id)

variable (s) in
/-- An import thread changes, and the queues it sends to. -/
theorem frame_importer (i : Fin c.importers) (next : Importer c R M)
    (process : MessageQueue (Numbered (M × UInt16))) (main : MessageQueue (Numbered M))
    (unread : List ℕ) (receive_counter : Fin c.inputs → ℕ) (receive_total : ℕ)
    (hprocess : Clogged s.processQueue → Clogged process)
    (hmain : Clogged s.mainQueue → Clogged main) :
    Frame s { s with
      processQueue := process
      mainQueue := main
      unread := unread
      receive_counter := receive_counter
      receive_total := receive_total
      importer := Function.update s.importer i next } (some (.importer i)) where
  producer _ _ := rfl
  importer _ hi := Function.update_of_ne (fun h => hi (by rw [h])) ..
  processor _ _ := rfl
  exporter _ _ := rfl
  output _ _ := rfl
  strategy _ := rfl
  full _ h := Or.inl (full_of_queues h (fun _ => id) hprocess hmain fun _ => id)

variable (s) in
/-- A processor thread changes, and the main queue. -/
theorem frame_processor (p : Fin c.processors) (next : Processor M)
    (main : MessageQueue (Numbered M)) (unprocessed : List ℕ)
    (hmain : Clogged s.mainQueue → Clogged main) :
    Frame s { s with
      mainQueue := main
      unprocessed := unprocessed
      processor := Function.update s.processor p next } (some (.processor p)) where
  producer _ _ := rfl
  importer _ _ := rfl
  processor _ hp := Function.update_of_ne (fun h => hp (by rw [h])) ..
  exporter _ _ := rfl
  output _ _ := rfl
  strategy _ := rfl
  full _ h := Or.inl (full_of_queues h (fun _ => id) id hmain fun _ => id)

variable (s) in
/-- An export thread changes, and a queue of an output. -/
theorem frame_exporter (e : Fin c.exporters) (next : Exporter c M O)
    (outputQueue : Fin c.outputs → MessageQueue (Numbered O))
    (unconverted : Fin c.outputs → List ℕ)
    (hstrategy : ∀ o, (outputQueue o).overflow_strategy = (s.outputQueue o).overflow_strategy)
    (houtput : ∀ o, Clogged (s.outputQueue o) → Clogged (outputQueue o)) :
    Frame s { s with
      outputQueue := outputQueue
      unconverted := unconverted
      exporter := Function.update s.exporter e next } (some (.exporter e)) where
  producer _ _ := rfl
  importer _ _ := rfl
  processor _ _ := rfl
  exporter _ he := Function.update_of_ne (fun h => he (by rw [h])) ..
  output _ _ := rfl
  strategy := hstrategy
  full _ h := Or.inl (full_of_queues h (fun _ => id) id id houtput)

variable (s) in
/-- An output thread changes. -/
theorem frame_output (w : Fin c.outputThreads) (next : OutputThread O)
    (written givenUp : Fin c.outputs → List ℕ) (send_counter : Fin c.outputs → ℕ)
    (sent_total : ℕ) :
    Frame s { s with
      written := written
      givenUp := givenUp
      send_counter := send_counter
      sent_total := sent_total
      outputThread := Function.update s.outputThread w next } (some (.output w)) where
  producer _ _ := rfl
  importer _ _ := rfl
  processor _ _ := rfl
  exporter _ _ := rfl
  output _ hw := Function.update_of_ne (fun h => hw (by rw [h])) ..
  strategy _ := rfl
  full _ h := Or.inl (full_of_queues h (fun _ => id) id id fun _ => id)

theorem frame_stepProducer {p : Fin c.producers} (hstep : s.stepProducer p = some t) :
    Frame s t (some (.producer p)) := by
  simp only [System.stepProducer] at hstep
  split at hstep
  · cases hstep
  · next call _ =>
    split at hstep <;> cases hstep <;>
    exact frame_producer s p _ _ _ _ (clogged_update fun hq => hq.offer [call.record] call.phase)

theorem frame_stepImporter {i : Fin c.importers} (hstep : s.stepImporter i = some t) :
    Frame s t (some (.importer i)) := by
  simp only [System.stepImporter] at hstep
  split at hstep
  · cases hstep
    exact frame_importer s i _ _ _ _ _ _ id id
  · next j counter messages phase _ =>
    split at hstep
    · cases hstep
      exact frame_importer s i _ _ _ _ _ _ id fun hq => hq.offer messages phase
    · cases hstep
      exact frame_importer s i _ _ _ _ _ _ (fun hq => hq.offer _ phase) id
  · cases hstep
    exact frame_importer s i _ _ _ _ _ _ id id
  · cases hstep

theorem frame_importerConverts {i : Fin c.importers} {outcomes : List (Option M)}
    (hstep : s.importerConverts i outcomes = some t) : Frame s t (some (.importer i)) := by
  simp only [System.importerConverts] at hstep
  split at hstep
  · obtain ⟨-, hstep⟩ := Option.ite_none_right_eq_some.mp hstep
    cases hstep
    exact frame_importer s i _ _ _ _ _ _ id id
  · cases hstep

theorem frame_stepProcessor {p : Fin c.processors} (hstep : s.stepProcessor p = some t) :
    Frame s t (some (.processor p)) := by
  simp only [System.stepProcessor] at hstep
  split at hstep
  · cases hstep
    exact frame_processor s p _ _ _ id
  · next messages phase _ =>
    cases hstep
    exact frame_processor s p _ _ _ fun hq => hq.offer messages phase
  · cases hstep

theorem frame_processorConverts {p : Fin c.processors} {outcomes : List (Option M)}
    (hstep : s.processorConverts p outcomes = some t) : Frame s t (some (.processor p)) := by
  simp only [System.processorConverts] at hstep
  split at hstep
  · obtain ⟨-, hstep⟩ := Option.ite_none_right_eq_some.mp hstep
    cases hstep
    exact frame_processor s p _ _ _ id
  · cases hstep

theorem frame_stepExporter {e : Fin c.exporters} (hstep : s.stepExporter e = some t) :
    Frame s t (some (.exporter e)) := by
  simp only [System.stepExporter] at hstep
  split at hstep
  · cases hstep
    exact frame_exporter s e _ _ _ (fun _ => rfl) fun _ => id
  · next messages o records phase _ =>
    cases hstep
    exact frame_exporter s e _ _ _ (strategy_update (strategy_offer records phase))
      (clogged_update fun hq => hq.offer records phase)
  · cases hstep

theorem frame_exporterConverts {e : Fin c.exporters} {outcomes : List (Option O)}
    (hstep : s.exporterConverts e outcomes = some t) : Frame s t (some (.exporter e)) := by
  simp only [System.exporterConverts] at hstep
  split at hstep
  · obtain ⟨-, hstep⟩ := Option.ite_none_right_eq_some.mp hstep
    cases hstep
    exact frame_exporter s e _ _ _ (fun _ => rfl) fun _ => id
  · cases hstep

theorem frame_stepOutput {w : Fin c.outputThreads} (hstep : s.stepOutput w = some t) :
    Frame s t (some (.output w)) := by
  simp only [System.stepOutput] at hstep
  split at hstep
  · cases hstep
    exact frame_output s w _ _ _ _ _
  · cases hstep
    exact frame_output s w _ _ _ _ _
  · cases hstep
    exact frame_output s w _ _ _ _ _
  · cases hstep

theorem frame_flush {w : Fin c.outputThreads} {n : ℕ} {success : Bool}
    (hstep : s.flush w n success = some t) : Frame s t (some (.output w)) := by
  simp only [System.flush] at hstep
  split at hstep
  · obtain ⟨-, hstep⟩ := Option.ite_none_right_eq_some.mp hstep
    cases hstep
    exact frame_output s w _ _ _ _ _
  · cases hstep

/-- **An import thread takes a batch**, and was neither waiting nor ended. -/
theorem frame_importerTakes [DecidableEq R] {i : Fin c.importers} {got : List (Numbered R)}
    (hstep : s.importerTakes i got = some t) : Frame s t (some (.importer i)) := by
  simp only [System.importerTakes] at hstep
  split at hstep
  · next j counter htaking =>
    obtain ⟨-, hstep⟩ := Option.ite_none_right_eq_some.mp hstep
    cases hstep
    refine ⟨fun _ _ => rfl, fun _ hi => Function.update_of_ne (fun h => hi (by rw [h])) ..,
      fun _ _ => rfl, fun _ _ => rfl, fun _ _ => rfl, fun _ => rfl, ?_⟩
    have hended : ¬s.Ended (.importer i) := by simp [System.Ended, htaking]
    have hwaits : ∀ k, ¬s.Waits (.importer i) k := by
      rintro (_ | _ | _ | _) <;> simp [System.Waits, htaking]
    rintro (j | _ | _ | o) h
    · exact Or.inr ⟨_, rfl, trivial, hended, hwaits⟩
    · exact Or.inl h
    · exact Or.inl h
    · exact Or.inl h
  · cases hstep

theorem frame_processorTakes [DecidableEq M] {p : Fin c.processors}
    {got : List (Numbered (M × UInt16))} (hstep : s.processorTakes p got = some t) :
    Frame s t (some (.processor p)) := by
  simp only [System.processorTakes] at hstep
  split at hstep
  · next htaking =>
    obtain ⟨-, hstep⟩ := Option.ite_none_right_eq_some.mp hstep
    cases hstep
    refine ⟨fun _ _ => rfl, fun _ _ => rfl,
      fun _ hp => Function.update_of_ne (fun h => hp (by rw [h])) .., fun _ _ => rfl,
      fun _ _ => rfl, fun _ => rfl, ?_⟩
    have hended : ¬s.Ended (.processor p) := by simp [System.Ended, htaking]
    have hwaits : ∀ k, ¬s.Waits (.processor p) k := by
      rintro (_ | _ | _ | _) <;> simp [System.Waits, htaking]
    rintro (j | _ | _ | o) h
    · exact Or.inl h
    · exact Or.inr ⟨_, rfl, trivial, hended, hwaits⟩
    · exact Or.inl h
    · exact Or.inl h
  · cases hstep

theorem frame_exporterTakes [DecidableEq M] {e : Fin c.exporters} {got : List (Numbered M)}
    (hstep : s.exporterTakes e got = some t) : Frame s t (some (.exporter e)) := by
  simp only [System.exporterTakes] at hstep
  split at hstep
  · next htaking =>
    obtain ⟨-, hstep⟩ := Option.ite_none_right_eq_some.mp hstep
    cases hstep
    refine ⟨fun _ _ => rfl, fun _ _ => rfl, fun _ _ => rfl,
      fun _ he => Function.update_of_ne (fun h => he (by rw [h])) .., fun _ _ => rfl,
      fun _ => rfl, ?_⟩
    have hended : ¬s.Ended (.exporter e) := by simp [System.Ended, htaking]
    have hwaits : ∀ k, ¬s.Waits (.exporter e) k := by
      rintro (_ | _ | _ | _) <;> simp [System.Waits, htaking]
    rintro (j | _ | _ | o) h
    · exact Or.inl h
    · exact Or.inl h
    · exact Or.inr ⟨_, rfl, trivial, hended, hwaits⟩
    · exact Or.inl h
  · cases hstep

theorem frame_outputTakes [DecidableEq O] {w : Fin c.outputThreads} {got : List (Numbered O)}
    (hstep : s.outputTakes w got = some t) : Frame s t (some (.output w)) := by
  simp only [System.outputTakes] at hstep
  split at hstep
  · next htaking =>
    obtain ⟨-, hstep⟩ := Option.ite_none_right_eq_some.mp hstep
    cases hstep
    refine ⟨fun _ _ => rfl, fun _ _ => rfl, fun _ _ => rfl, fun _ _ => rfl,
      fun _ hw => Function.update_of_ne (fun h => hw (by rw [h])) .., strategy_update rfl, ?_⟩
    have hended : ¬s.Ended (.output w) := by simp [System.Ended, htaking]
    have hwaits : ∀ k, ¬s.Waits (.output w) k := by
      rintro (_ | _ | _ | _) <;> simp [System.Waits]
    rintro (j | _ | _ | o) h
    · exact Or.inl h
    · exact Or.inl h
    · exact Or.inl h
    · by_cases ho : c.output w = o
      · exact Or.inr ⟨_, rfl, ho, hended, hwaits⟩
      · refine Or.inl ?_
        have hsame := Function.update_of_ne (Ne.symm ho) ((s.outputQueue (c.output w)).take got)
          s.outputQueue
        exact (congrArg Clogged hsame).mpr h
  · cases hstep

/-- **Every step** is one of a thread, or only clears a flag. -/
theorem frame_step [DecidableEq R] [DecidableEq M] [DecidableEq O] {event : Event c R M O}
    (hstep : s.step event = some t) : Frame s t event.thread := by
  rcases event with _ | _ | _ | _ | _ | _ | _ | _ | _ | _ | _ | _ | _ | _ | _
  · obtain ⟨-, hstep⟩ := Option.ite_none_right_eq_some.mp hstep
    cases hstep
    exact frame_producer s _ _ _ _ _ fun _ => id
  · exact frame_stepProducer hstep
  · exact frame_stepImporter hstep
  · exact frame_importerTakes hstep
  · exact frame_importerConverts hstep
  · exact frame_stepProcessor hstep
  · exact frame_processorTakes hstep
  · exact frame_processorConverts hstep
  · exact frame_stepExporter hstep
  · exact frame_exporterTakes hstep
  · exact frame_exporterConverts hstep
  · exact frame_stepOutput hstep
  · exact frame_outputTakes hstep
  · exact frame_flush hstep
  · cases hstep
    exact ⟨fun _ _ => rfl, fun _ _ => rfl, fun _ _ => rfl, fun _ _ => rfl, fun _ _ => rfl,
      fun _ => rfl, fun _ h => Or.inl h⟩

/-! ### Threads that have ended, and threads that wait -/

variable [DecidableEq R] [DecidableEq M] [DecidableEq O] {event : Event c R M O}

/-- A thread that has ended makes no step. -/
theorem step_eq_none_of_ended {x : Thread c} (hx : event.thread = some x) (h : s.Ended x) :
    s.step event = none := by
  rcases x with p | i | p | e | w
  · exact h.elim
  · rcases event <;> simp_all [Event.thread, System.step, System.stepImporter,
      System.importerTakes, System.importerConverts, System.Ended]
  · rcases event <;> simp_all [Event.thread, System.step, System.stepProcessor,
      System.processorTakes, System.processorConverts, System.Ended]
  · rcases event <;> simp_all [Event.thread, System.step, System.stepExporter,
      System.exporterTakes, System.exporterConverts, System.Ended]
  · rcases event <;> simp_all [Event.thread, System.step, System.stepOutput,
      System.outputTakes, System.flush, System.Ended]

/-- **A thread that has ended stays where it is.** -/
theorem ended_step (hstep : s.step event = some t) {x : Thread c} (h : s.Ended x) :
    t.Ended x := by
  have hframe := frame_step hstep
  have hx : event.thread ≠ some x := by
    intro hx
    rw [step_eq_none_of_ended hx h] at hstep
    cases hstep
  rcases x with p | i | p | e | w
  · exact h.elim
  · exact (hframe.importer i hx).trans h
  · exact (hframe.processor p hx).trans h
  · exact (hframe.exporter e hx).trans h
  · exact (hframe.output w hx).trans h

/-- A producer that waits makes its step: it looks again. -/
theorem waits_producer {p : Fin c.producers} {k : Queue c} (hwaits : s.Waits (.producer p) k)
    (hfull : s.Full k) (hx : event.thread = some (.producer p)) (hstep : s.step event = some t) :
    t.Waits (.producer p) k := by
  rcases k with i | _ | _ | o
  · obtain ⟨call, hcall, rfl, hphase⟩ := hwaits
    rcases event with ⟨p', i, record⟩ | p' | _ | _ | _ | _ | _ | _ | _ | _ | _ | _ | _ | _ | _ <;>
      simp only [Event.thread, Option.some.injEq, Thread.producer.injEq, reduceCtorEq] at hx
    · subst hx
      obtain ⟨hnone, -⟩ := Option.ite_none_right_eq_some.mp hstep
      rw [hcall] at hnone
      cases hnone
    · subst hx
      have hoffer := Clogged.offer_eq hfull [call.record] hphase
      simp only [System.step, System.stepProducer, hcall, hoffer] at hstep
      cases hstep
      exact ⟨_, Function.update_self .., rfl, by simp⟩
  all_goals exact hwaits.elim

theorem waits_importer {i : Fin c.importers} {k : Queue c} (hwaits : s.Waits (.importer i) k)
    (hfull : s.Full k) (hx : event.thread = some (.importer i)) (hstep : s.step event = some t) :
    t.Waits (.importer i) k := by
  have hevent : ∀ {j counter messages phase}, s.importer i = .sending j counter messages phase →
      s.stepImporter i = some t := by
    intro j counter messages phase hsending
    rcases event with _ | _ | i' | ⟨i', got⟩ | ⟨i', outcomes⟩ | _ | _ | _ | _ | _ | _ | _ | _ |
      _ | _
    all_goals
      simp only [Event.thread, Option.some.injEq, Thread.importer.injEq, reduceCtorEq] at hx
    · subst hx
      exact hstep
    · subst hx
      simp [System.step, System.importerTakes, hsending] at hstep
    · subst hx
      simp [System.step, System.importerConverts, hsending] at hstep
  rcases k with j | _ | _ | o
  · exact hwaits.elim
  · obtain ⟨j, counter, messages, phase, hsending, hphase, hscript⟩ := hwaits
    obtain ⟨index, hindex⟩ := Option.isSome_iff_exists.mp hscript
    have hoffer := Clogged.offer_eq hfull (messages.map fun m => (m.1, m.2, index)) hphase
    have hown := hevent hsending
    simp only [System.stepImporter, hsending, hindex, hoffer] at hown
    cases hown
    exact ⟨j, counter, messages, .waits, Function.update_self .., by simp, hscript⟩
  · obtain ⟨j, counter, messages, phase, hsending, hphase, hscript⟩ := hwaits
    have hoffer := Clogged.offer_eq hfull messages hphase
    have hown := hevent hsending
    simp only [System.stepImporter, hsending, Option.isNone_iff_eq_none.mp hscript, hoffer] at hown
    cases hown
    exact ⟨j, counter, messages, .waits, Function.update_self .., by simp, hscript⟩
  · exact hwaits.elim

theorem waits_processor {p : Fin c.processors} {k : Queue c} (hwaits : s.Waits (.processor p) k)
    (hfull : s.Full k) (hx : event.thread = some (.processor p)) (hstep : s.step event = some t) :
    t.Waits (.processor p) k := by
  rcases k with j | _ | _ | o
  · exact hwaits.elim
  · exact hwaits.elim
  · obtain ⟨messages, phase, hsending, hphase⟩ := hwaits
    have hoffer := Clogged.offer_eq hfull messages hphase
    rcases event with _ | _ | _ | _ | _ | p' | ⟨p', got⟩ | ⟨p', outcomes⟩ | _ | _ | _ | _ | _ |
      _ | _
    all_goals
      simp only [Event.thread, Option.some.injEq, Thread.processor.injEq, reduceCtorEq] at hx
    · subst hx
      simp only [System.step, System.stepProcessor, hsending, hoffer] at hstep
      cases hstep
      exact ⟨messages, .waits, Function.update_self .., by simp⟩
    · subst hx
      simp [System.step, System.processorTakes, hsending] at hstep
    · subst hx
      simp [System.step, System.processorConverts, hsending] at hstep
  · exact hwaits.elim

theorem waits_exporter {e : Fin c.exporters} {k : Queue c} (hwaits : s.Waits (.exporter e) k)
    (hfull : s.Full k) (hx : event.thread = some (.exporter e)) (hstep : s.step event = some t) :
    t.Waits (.exporter e) k := by
  rcases k with j | _ | _ | o
  · exact hwaits.elim
  · exact hwaits.elim
  · exact hwaits.elim
  · obtain ⟨messages, records, phase, hsending, hphase⟩ := hwaits
    have hoffer := Clogged.offer_eq hfull records hphase
    rcases event with _ | _ | _ | _ | _ | _ | _ | _ | e' | ⟨e', got⟩ | ⟨e', outcomes⟩ | _ | _ |
      _ | _
    all_goals
      simp only [Event.thread, Option.some.injEq, Thread.exporter.injEq, reduceCtorEq] at hx
    · subst hx
      simp only [System.step, System.stepExporter, hsending, hoffer] at hstep
      cases hstep
      exact ⟨messages, records, .waits, Function.update_self .., by simp⟩
    · subst hx
      simp [System.step, System.exporterTakes, hsending] at hstep
    · subst hx
      simp [System.step, System.exporterConverts, hsending] at hstep

/-- **A thread that waits at a full queue keeps waiting**, in its own steps and in those of the
others. -/
theorem waits_step (hstep : s.step event = some t) {x : Thread c} {k : Queue c}
    (hwaits : s.Waits x k) (hfull : s.Full k) : t.Waits x k := by
  have hframe := frame_step hstep
  by_cases hx : event.thread = some x
  · rcases x with p | i | p | e | w
    · exact waits_producer hwaits hfull hx hstep
    · exact waits_importer hwaits hfull hx hstep
    · exact waits_processor hwaits hfull hx hstep
    · exact waits_exporter hwaits hfull hx hstep
    · rcases k with _ | _ | _ | _ <;> exact hwaits.elim
  · have hsame : t.Waits x k ↔ s.Waits x k := by
      rcases x with p | i | p | e | w <;> rcases k with _ | _ | _ | _ <;>
        simp only [System.Waits, hframe.producer, hframe.importer, hframe.processor,
          hframe.exporter, hx, ne_eq, not_false_eq_true]
    exact hsame.mpr hwaits

omit [DecidableEq R] [DecidableEq M] [DecidableEq O] in
/-- A thread that waits has not ended. -/
theorem not_ended_of_waits {x : Thread c} {k : Queue c} (h : s.Waits x k) : ¬s.Ended x := by
  rcases x with p | i | p | e | w
  · exact id
  · rcases k with _ | _ | _ | _
    · exact h.elim
    · obtain ⟨_, _, _, _, hsending, -⟩ := h
      simp [System.Ended, hsending]
    · obtain ⟨_, _, _, _, hsending, -⟩ := h
      simp [System.Ended, hsending]
    · exact h.elim
  · rcases k with _ | _ | _ | _
    · exact h.elim
    · exact h.elim
    · obtain ⟨_, _, hsending, -⟩ := h
      simp [System.Ended, hsending]
    · exact h.elim
  · rcases k with _ | _ | _ | _
    · exact h.elim
    · exact h.elim
    · exact h.elim
    · obtain ⟨_, _, _, hsending, -⟩ := h
      simp [System.Ended, hsending]
  · rcases k with _ | _ | _ | _ <;> exact h.elim

/-- **A full queue stays full** while those who take from it wait or have ended. -/
theorem full_step (hstep : s.step event = some t) {k : Queue c} (h : s.Full k)
    (hidle : ∀ x : Thread c, x.TakesFrom k → s.Ended x ∨ ∃ k', s.Waits x k' ∧ s.Full k') :
    t.Full k := by
  rcases (frame_step hstep).full k h with hfull | ⟨x, -, htakes, hended, hwaits⟩
  · exact hfull
  · rcases hidle x htakes with hx | ⟨k', hx, -⟩
    · exact absurd hx hended
    · exact absurd hx (hwaits k')

end Frame

/-! ### Waiting for ever -/

section Forever

variable {c : Setup} {R M O : Type} [DecidableEq R] [DecidableEq M] [DecidableEq O]

/-- **The pipeline is a system of threads that wait for room.** -/
theorem lawful_net : (net c R M O).Lawful where
  waits_step hstep hwaits hfull := waits_step hstep hwaits hfull
  ended_step hstep h := ended_step hstep h
  full_step hstep h hidle := full_step hstep h hidle
  not_ended h := not_ended_of_waits h

/-- **Threads that wait behind threads that have ended wait for ever.** Let each of some threads
wait at a full queue, from which only threads take that have ended or are among these. Then in
every run from there each of them is still waiting, and has not ended: whoever joins one of them,
as `stop` does, waits for ever too. -/
theorem wedged_forever (s t : System c R M O) (W : Set (Thread c))
    (hwedged : (net c R M O).Wedged s W) (events : List (Event c R M O))
    (hrun : events.foldlM System.step s = some t) :
    ∀ x ∈ W, (∃ k, t.Waits x k ∧ t.Full k) ∧ ¬t.Ended x := by
  have h : (net c R M O).Wedged t W := hwedged.run lawful_net hrun
  intro x hx
  obtain ⟨k, hwaits, hfull, -⟩ := h x hx
  exact ⟨⟨k, hwaits, hfull⟩, h.not_ended lawful_net hx⟩

/-- One input, one output, one thread of each kind, and no script. -/
def chain : Setup where
  inputs := 1
  producers := 1
  importers := 1
  processors := 0
  exporters := 1
  outputs := 1
  outputThreads := 1
  max_queue_size _ := 1
  overflow_strategy _ := .throttle
  processorScriptIndex _ := none
  output w := w

/-- A queue with as many items as it may hold. -/
def brimful : MessageQueue (Numbered Char) :=
  (MessageQueue.byName : MessageQueue (Numbered Char)).push (List.replicate 10000 (0, 'a'))

/-- The number of the only input, and of the only output. -/
def onlyOne : Fin 1 := ⟨0, Nat.one_pos⟩

/-- The output has stopped, with its queue and all others full. -/
def stoppedOutput : System chain Char Char Char :=
  { System.start chain Char Char Char with
    inputQueue := fun _ => (MessageQueue.new 1 .throttle).push [(1, 'b')]
    mainQueue := brimful
    outputQueue := fun _ => brimful
    producer := fun _ => some ⟨onlyOne, (2, 'c'), .looks⟩
    importer := fun _ => .sending onlyOne 0 [(3, 'd')] .waits
    exporter := fun _ => .sending [(4, 'e')] onlyOne [(4, 'e')] .looks
    outputThread := fun _ => .ended }

theorem clogged_brimful : Clogged brimful := by
  refine ⟨?_, rfl⟩
  rw [MessageQueue.isFull, decide_eq_true_eq, brimful, MessageQueue.push, List.length_append,
    List.length_replicate]
  exact Nat.le_add_left ..

/-- All threads are wedged but that of the output. -/
theorem wedged_stoppedOutput :
    (net chain Char Char Char).Wedged stoppedOutput {x | ∀ w, x ≠ .output w} := by
  rintro (p | i | p | e | w) hx
  · refine ⟨.input onlyOne, ⟨_, rfl, rfl, by simp⟩, ⟨rfl, rfl⟩, fun y hy => Or.inr ?_⟩
    rintro w rfl
    exact hy
  · refine ⟨.main, ⟨_, _, _, _, rfl, by simp, rfl⟩, clogged_brimful, fun y hy => Or.inr ?_⟩
    rintro w rfl
    exact hy
  · exact p.elim0
  · refine ⟨.output onlyOne, ⟨_, _, _, rfl, by simp⟩, clogged_brimful, fun y hy => ?_⟩
    rcases y with _ | _ | _ | _ | w
    · exact hy.elim
    · exact hy.elim
    · exact hy.elim
    · exact hy.elim
    · exact Or.inl rfl
  · exact absurd rfl (hx w)

theorem wedged_forever_stoppedOutput : ∃ t : System chain Char Char Char,
    [Event.clear .outputServer].foldlM System.step stoppedOutput = some t ∧
      ∀ x : Thread chain, (∀ w, x ≠ .output w) → (∃ k, t.Waits x k ∧ t.Full k) ∧ ¬t.Ended x :=
  ⟨_, rfl, wedged_forever stoppedOutput _ {x | ∀ w, x ≠ .output w} wedged_stoppedOutput
    [.clear .outputServer] rfl⟩

end Forever

end IqLogger.Pipeline.Flow
