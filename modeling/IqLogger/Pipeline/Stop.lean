import IqLogger.Lib.Run
import IqLogger.Pipeline.Balance
import IqLogger.Pipeline.SavedPositions

/-!
# What a stop leaves behind

A stage ends when its thread finds the flag off, and then nobody empties the queue it took
from. So what is in one of the queues when the program stops stays there, although the
position saved for its file may be behind it
(`IqLogger.Pipeline.acknowledged_not_exported`).

But a thread only looks at its flag when it has nothing in hand, and `stop` waits for all of
them (`IqLogger.Pipeline.Awaited`), so that the hands are empty when it is over. What lies
before a saved position was handed on, and what was handed on is then exported, or in a
queue, or in a write that was given up (`IqLogger.Pipeline.stop_accounts`). A write is given up
only when it was under way at the moment the `io_service` of its output was stopped: no more
is lost than what the threads of the output had in hand then (`IqLogger.Pipeline.CutOff`).
-/

namespace IqLogger

namespace Pipeline

open Tail

open PointersTableInternalRecord (kept)

variable {c : Config}

/-- **What is acknowledged was handed on.** -/
theorem acknowledged_sublist (h : List (String × Call)) (f : String) :
    ((acknowledged (callsOf f h)).map (TailRecord.mk f)).Sublist (handedOn h) := by
  have hmessages : (acknowledged (callsOf f h)).Sublist (messages (callsOf f h)) :=
    (List.rdropWhile_prefix _ _).sublist.filterMap _
  refine (hmessages.map _).trans ?_
  clear hmessages
  induction h using List.reverseRecOn with
  | nil => exact List.Sublist.refl _
  | append_singleton h call ih =>
    obtain ⟨g, call⟩ := call
    rw [handedOn_append]
    by_cases hg : g = f
    · subst hg
      rw [callsOf_append_self, messages_append, List.map_append]
      exact ih.append_right _
    · rw [callsOf_append_of_ne _ _ hg]
      exact ih.trans (List.sublist_append_left ..)

/-! ### Threads that have ended -/

section Ended

variable {s t : System c}

/-- A family in which one member that is not `e` is changed has `e` where it had it. -/
theorem update_eq_of_ne {κ α : Type*} [DecidableEq κ] {g : κ → α} {w : κ} {next e : α}
    (hw : g w ≠ e) {v : κ} (hv : g v = e) : Function.update g w next v = e := by
  rwa [Function.update_of_ne]
  rintro rfl
  exact hw hv

/-- A thread that has ended stays so. -/
theorem Downstream.ended (h : Downstream s t) {th : Thread c} (hth : s.Ended th) : t.Ended th := by
  cases h with
  | importer i hrunning next =>
    cases th with
    | importer j => exact update_eq_of_ne hrunning hth
    | _ => exact hth
  | exporter e hrunning next =>
    cases th with
    | exporter j => exact update_eq_of_ne hrunning hth
    | _ => exact hth
  | output w hrunning next =>
    cases th with
    | output j => exact update_eq_of_ne hrunning hth
    | _ => exact hth

theorem Downstream.stopping (h : Downstream s t) : t.stopping = s.stopping := by
  cases h <;> rfl

/-- **All threads are awaited**: `stop` has still to wait for a thread, or it has ended,
unless `stop` does not come that far. -/
def Awaited (s : System c) : Prop :=
  ∀ th, .join th ∈ s.stopping ∨ .throw ∈ s.stopping ∨ s.Ended th

theorem Awaited.mono (h : Awaited s) (hstopping : t.stopping = s.stopping)
    (hended : ∀ th, s.Ended th → t.Ended th) : Awaited t := by
  intro th
  rw [hstopping]
  exact (h th).imp_right fun h => h.imp_right (hended th)

theorem Awaited.downstream (h : Awaited s) (hstep : Downstream s t) : Awaited t :=
  h.mono hstep.stopping fun _ => hstep.ended

/-- An action of `stop` that is no wait is behind it. -/
theorem Awaited.advance {action : StopAction c} {rest : List (StopAction c)} (h : Awaited s)
    (hstopping : s.stopping = action :: rest) (hjoin : ∀ th, action ≠ .join th)
    (hthrow : action ≠ .throw) (hrest : t.stopping = rest)
    (hended : ∀ th, s.Ended th → t.Ended th) : Awaited t := by
  intro th
  have hth := h th
  rw [hstopping] at hth
  rw [hrest]
  refine hth.imp (fun hmem => ?_) fun hth => hth.imp (fun hmem => ?_) (hended th)
  · exact (List.mem_cons.mp hmem).resolve_left (hjoin th).symm
  · exact (List.mem_cons.mp hmem).resolve_left hthrow.symm

/-- A step of `stop` waits for a thread, and then it has ended. -/
theorem Awaited.stepStop (h : Awaited s) (hstep : s.stepStop = some t) : Awaited t := by
  rw [System.stepStop] at hstep
  split at hstep
  · cases hstep
  · next rest hstopping =>
    cases hstep
    refine h.advance hstopping (by simp) (by simp) rfl fun th hended => ?_
    cases th with
    | _ => exact hended
  · next o rest hstopping =>
    cases hstep
    refine h.advance hstopping (by simp) (by simp) rfl fun th hended => ?_
    cases th with
    | output w =>
      change (if c.output w = o then (s.outputThread w).interrupt else s.outputThread w) = .ended
      have hw : s.outputThread w = .ended := hended
      rw [hw]
      split_ifs <;> rfl
    | _ => exact hended
  · next th' rest hstopping =>
    split_ifs at hstep with hended
    cases hstep
    intro th
    have hth := h th
    rw [hstopping] at hth
    rcases hth with hmem | hth
    · rcases List.mem_cons.mp hmem with heq | hmem
      · obtain rfl := StopAction.join.inj heq
        exact Or.inr (Or.inr hended)
      · exact Or.inl hmem
    · refine Or.inr (hth.imp_left fun hmem => ?_)
      simpa using hmem
  · cases hstep

/-- **No thread is forgotten.** -/
theorem Awaited.step (h : Awaited s) {event : Event c} (hstep : s.step event = some t) :
    Awaited t := by
  cases event with
  | append f bytes =>
    cases hstep
    exact h
  | rewrite f content =>
    cases hstep
    exact h
  | tailer i =>
    obtain ⟨hrunning, saved, input, next, history, rfl⟩ := stepTailer_shape hstep
    refine h.mono rfl fun th hth => ?_
    cases th with
    | tailer j => exact update_eq_of_ne hrunning hth
    | _ => exact hth
  | turn i f =>
    obtain ⟨⟨hrunning, -⟩, hstep⟩ := Option.ite_none_right_eq_some.mp hstep
    cases hstep
    refine h.mono rfl fun th hth => ?_
    cases th with
    | tailer j => exact update_eq_of_ne (by simp [hrunning]) hth
    | _ => exact hth
  | stop => exact h.stepStop hstep
  | _ => exact h.downstream (downstream_of_step hstep trivial)

theorem mem_stopProgram_of_stopOutput {o : Fin c.outputs} {action : StopAction c}
    (h : action ∈ stopOutput c o) : action ∈ stopProgram c := by
  refine List.mem_append_right _ (List.mem_append_left _ (List.mem_cons_of_mem _ ?_))
  exact List.mem_flatMap.mpr ⟨o, List.mem_finRange o, h⟩

/-- `stop` waits for every thread. -/
theorem awaited_start (files : String → FileAtStart) : Awaited (System.start c files) := by
  intro th
  change .join th ∈ stopProgram c ∨ .throw ∈ stopProgram c ∨ _
  cases th with
  | tailer i => cases i <;> simp [stopProgram, stopInputServer, stopInput]
  | importer i => simp [stopProgram, stopInputServer]
  | exporter e => simp [stopProgram, stopOutputServer]
  | output w =>
    cases htype : c.type (c.output w) with
    | gelf =>
      refine Or.inl (mem_stopProgram_of_stopOutput (o := c.output w) ?_)
      simp [stopOutput, htype]
    | log =>
      refine Or.inr (Or.inl (mem_stopProgram_of_stopOutput (o := c.output w) ?_))
      simp [stopOutput, htype]

/-- When `stop` is over, nothing is in the hands of a thread. -/
theorem Awaited.inHands_eq_zero (h : Awaited s) (hstop : s.stopping = []) (o : Fin c.outputs) :
    s.inHands o = 0 := by
  have hended : ∀ th, s.Ended th := by
    intro th
    have hth := h th
    rw [hstop] at hth
    simpa using hth
  have himporter : ∀ i, (s.importer i).inHand = 0 := fun i => by
    rw [show s.importer i = .ended from hended (.importer i), Importer.inHand]
  have hexporter : ∀ e, (s.exporter e).inHand o = 0 := fun e => by
    rw [show s.exporter e = .ended from hended (.exporter e), Exporter.inHand]
  have houtput : ∀ w, (s.outputThread w).inHand = 0 := fun w => by
    rw [show s.outputThread w = .ended from hended (.output w), OutputThread.inHand]
  simp [System.inHands, himporter, hexporter, houtput]

end Ended

/-! ### Writes that are given up -/

section CutOff

variable {s t : System c}

/-- What an output thread has in hand of a write that the stop of the `io_service` has met. -/
def OutputThread.cut : OutputThread → Multiset TailRecord
  | .exporting records true => ↑records
  | _ => 0

/-- What the threads of an output have in hand. -/
def System.inWrite (s : System c) (o : Fin c.outputs) : Multiset TailRecord :=
  ∑ w, if c.output w = o then (s.outputThread w).inHand else 0

/-- What an output has given up, and what it may still give up. -/
def System.cutOff (s : System c) (o : Fin c.outputs) : Multiset TailRecord :=
  ↑(s.interrupted o) + ∑ w, if c.output w = o then (s.outputThread w).cut else 0

/-- **What an output gives up is what the stop has met**: it was in the hands of the threads
of the output when its `io_service` was stopped. -/
def CutOff (files : String → FileAtStart) (events : List (Event c)) (o : Fin c.outputs)
    (records : Multiset TailRecord) : Prop :=
  records = 0 ∨ ∃ before after u, events = before ++ .stop :: after ∧
    before.foldlM System.step (System.start c files) = some u ∧
    u.stopping.head? = some (.stopService o) ∧ records ≤ u.inWrite o

theorem CutOff.mono {files : String → FileAtStart} {events more : List (Event c)}
    {o : Fin c.outputs} {records records' : Multiset TailRecord}
    (h : CutOff files events o records) (hle : records' ≤ records) :
    CutOff files (events ++ more) o records' := by
  rcases h with rfl | ⟨before, after, u, rfl, hrun, hhead, hbound⟩
  · exact Or.inl (Multiset.le_zero.mp hle)
  · refine Or.inr ⟨before, after ++ more, u, ?_, hrun, hhead, hle.trans hbound⟩
    rw [List.append_assoc, List.cons_append]

/-- The output whose `io_service` an action of `stop` stops. -/
def StopAction.service : StopAction c → Option (Fin c.outputs)
  | .stopService o => some o
  | _ => none

/-- **An output thread changes**, and no more can be given up than before. -/
theorem cutOff_output_le (w : Fin c.outputThreads) (next : OutputThread)
    (outputQueue : Fin c.outputs → MessageQueue TailRecord)
    (exported interrupted : Fin c.outputs → List TailRecord) (o : Fin c.outputs)
    (hle : (↑(interrupted o) + (if c.output w = o then next.cut else 0) : Multiset TailRecord) ≤
      ↑(s.interrupted o) + if c.output w = o then (s.outputThread w).cut else 0) :
    System.cutOff { s with
      outputQueue := outputQueue
      exported := exported
      interrupted := interrupted
      outputThread := Function.update s.outputThread w next } o ≤ s.cutOff o := by
  obtain ⟨rest, hold, hnew⟩ := Finset.sum_apply_update
    (fun w thread => if c.output w = o then OutputThread.cut thread else 0) s.outputThread w next
  rw [System.cutOff, System.cutOff, hold, hnew, ← add_assoc, ← add_assoc]
  exact add_le_add_left hle rest

theorem cutOff_stepOutput {w : Fin c.outputThreads} (hstep : s.stepOutput w = some t)
    (o : Fin c.outputs) : t.cutOff o ≤ s.cutOff o := by
  simp only [System.stepOutput] at hstep
  split at hstep
  · next htop =>
    cases hstep
    refine cutOff_output_le w _ s.outputQueue s.exported s.interrupted o ?_
    rw [htop]
    split_ifs <;> exact le_refl _
  · cases hstep
  · next hexporting =>
    cases hstep
    refine cutOff_output_le w _ s.outputQueue s.exported s.interrupted o (add_le_add_right ?_ _)
    split_ifs
    · exact Multiset.zero_le _
    · exact le_refl _
  · next r records cut hexporting =>
    cases hstep
    refine cutOff_output_le w _ s.outputQueue _ s.interrupted o (add_le_add_right ?_ _)
    rw [hexporting]
    -- one record less can be given up
    cases cut with
    | true =>
      have hle : (↑records : Multiset TailRecord) ≤ ↑(r :: records) :=
        Multiset.coe_le.mpr (List.sublist_cons_self r records).subperm
      split_ifs
      · exact hle
      · exact le_refl _
    | false => exact le_refl _
  · cases hstep

theorem cutOff_outputTakes {w : Fin c.outputThreads} {got : List TailRecord}
    (hstep : s.outputTakes w got = some t) (o : Fin c.outputs) : t.cutOff o ≤ s.cutOff o := by
  obtain ⟨⟨htaking, -⟩, hstep⟩ := Option.ite_none_right_eq_some.mp hstep
  cases hstep
  refine cutOff_output_le w _ _ s.exported s.interrupted o ?_
  rw [htaking]
  split_ifs <;> exact le_refl _

/-- What is given up could be given up before. -/
theorem cutOff_givesUp {w : Fin c.outputThreads} {n : ℕ} (hstep : s.givesUp w n = some t)
    (o : Fin c.outputs) : t.cutOff o ≤ s.cutOff o := by
  rw [System.givesUp] at hstep
  split at hstep
  · next records hexporting =>
    cases hstep
    refine cutOff_output_le w _ s.outputQueue s.exported _ o ?_
    rw [hexporting]
    by_cases ho : c.output w = o
    · subst ho
      have hle : (↑(records.take n) : Multiset TailRecord) ≤ ↑records :=
        Multiset.coe_le.mpr (List.take_sublist n records).subperm
      have hwhole : (OutputThread.exporting (records.drop n) false).cut = 0 := rfl
      rw [Function.update_self, if_pos rfl, if_pos rfl, ← Multiset.coe_add, hwhole, add_zero]
      exact add_le_add_right hle _
    · rw [Function.update_of_ne (Ne.symm ho), if_neg ho, if_neg ho]
  · cases hstep

/-- **Only the stop of an `io_service` makes a write one that can be given up.** -/
theorem cutOff_step {event : Event c} (hevent : event ≠ .stop) (hstep : s.step event = some t)
    (o : Fin c.outputs) : t.cutOff o ≤ s.cutOff o := by
  cases event with
  | append f bytes => cases hstep; exact le_refl _
  | rewrite f content => cases hstep; exact le_refl _
  | tailer i =>
    obtain ⟨-, saved, input, next, history, rfl⟩ := stepTailer_shape hstep
    exact le_refl _
  | turn i f =>
    obtain ⟨-, hstep⟩ := Option.ite_none_right_eq_some.mp hstep
    cases hstep
    exact le_refl _
  | importer i =>
    simp only [System.step, System.stepImporter] at hstep
    split at hstep <;> cases hstep <;> exact le_refl _
  | importerTakes i got =>
    obtain ⟨-, hstep⟩ := Option.ite_none_right_eq_some.mp hstep
    cases hstep
    exact le_refl _
  | exporter e =>
    simp only [System.step, System.stepExporter] at hstep
    split at hstep <;> cases hstep <;> exact le_refl _
  | exporterTakes e got =>
    obtain ⟨-, hstep⟩ := Option.ite_none_right_eq_some.mp hstep
    cases hstep
    exact le_refl _
  | output w => exact cutOff_stepOutput hstep o
  | outputTakes w got => exact cutOff_outputTakes hstep o
  | givesUp w n => exact cutOff_givesUp hstep o
  | stop => exact absurd rfl hevent

/-- **What a step of `stop` does to the writes**: only the stop of an `io_service` meets
some, and that of another output does not. -/
theorem cutOff_stepStop (hstep : s.stepStop = some t) :
    ∃ action, s.stopping = action :: t.stopping ∧ ∀ o,
      t.cutOff o = if action.service = some o then ↑(s.interrupted o) + s.inWrite o
        else s.cutOff o := by
  rw [System.stepStop] at hstep
  split at hstep
  · cases hstep
  · next flag rest hstopping =>
    cases hstep
    exact ⟨_, hstopping, fun o => rfl⟩
  · next o' rest hstopping =>
    cases hstep
    refine ⟨_, hstopping, fun o => ?_⟩
    have hcut : ∀ thread : OutputThread, thread.interrupt.cut = thread.inHand := by
      rintro (_ | _ | _ | _) <;> rfl
    have hservice : (StopAction.stopService o').service = some o' := rfl
    rw [hservice]
    by_cases ho : o' = o
    · subst ho
      rw [if_pos rfl, System.cutOff, System.inWrite]
      refine congrArg _ (Finset.sum_congr rfl fun w _ => ?_)
      by_cases hw : c.output w = o'
      · dsimp only
        rw [if_pos hw, if_pos hw, if_pos hw, hcut]
      · rw [if_neg hw, if_neg hw]
    · rw [if_neg fun heq => ho (Option.some.inj heq), System.cutOff, System.cutOff]
      refine congrArg _ (Finset.sum_congr rfl fun w _ => ?_)
      by_cases hw : c.output w = o
      · dsimp only
        rw [if_pos hw, if_pos hw, if_neg fun heq => ho (heq.symm.trans hw)]
      · rw [if_neg hw, if_neg hw]
  · next th rest hstopping =>
    split_ifs at hstep
    cases hstep
    exact ⟨_, hstopping, fun o => rfl⟩
  · cases hstep

/-- **The invariant of the writes**: each `io_service` is stopped once, until then none of
the writes of its output can be given up, and afterwards those that were under way. -/
structure Interrupted (files : String → FileAtStart) (events : List (Event c)) (s : System c) :
    Prop where
  once : (s.stopping.filterMap StopAction.service).Nodup
  uncut : ∀ o ∈ s.stopping.filterMap StopAction.service, s.cutOff o = 0
  cutOff : ∀ o, CutOff files events o (s.cutOff o)

theorem Interrupted.step {files : String → FileAtStart} {events : List (Event c)}
    (h : Interrupted files events s)
    (hrun : events.foldlM System.step (System.start c files) = some s) {event : Event c}
    (hstep : s.step event = some t) : Interrupted files (events ++ [event]) t := by
  by_cases hevent : event = .stop
  · subst hevent
    obtain ⟨action, hstopping, hcut⟩ := cutOff_stepStop hstep
    have honce := h.once
    have huncut := h.uncut
    rw [hstopping, List.filterMap_cons] at honce huncut
    cases hservice : action.service with
    | none =>
      rw [hservice] at honce huncut
      have hsame : ∀ o, t.cutOff o = s.cutOff o := fun o => by
        rw [hcut, hservice, if_neg (Option.some_ne_none o).symm]
      exact ⟨honce, fun o ho => (hsame o).trans (huncut o ho),
        fun o => (h.cutOff o).mono (hsame o).le⟩
    | some o' =>
      rw [hservice] at honce huncut
      obtain ⟨hnot, honce⟩ := List.nodup_cons.mp honce
      refine ⟨honce, fun o ho => ?_, fun o => ?_⟩
      · rw [hcut, hservice, if_neg]
        · exact huncut o (List.mem_cons_of_mem _ ho)
        · rintro heq
          exact hnot (Option.some.inj heq ▸ ho)
      · by_cases ho : o' = o
        · -- nothing was given up so far, and now it is what the threads have in hand
          subst ho
          have hzero := huncut o' List.mem_cons_self
          have hnone : (↑(s.interrupted o') : Multiset TailRecord) = 0 :=
            Multiset.le_zero.mp (hzero ▸ Multiset.le_add_right _ _)
          refine Or.inr ⟨events, [], s, rfl, hrun, ?_, ?_⟩
          · rw [hstopping]
            cases action with
            | stopService o =>
              rw [Option.some.inj hservice]
              rfl
            | _ => cases hservice
          · rw [hcut, hservice, if_pos rfl, hnone, zero_add]
        · refine (h.cutOff o).mono ?_
          rw [hcut, hservice, if_neg fun heq => ho (Option.some.inj heq)]
  · have hstopping : t.stopping = s.stopping := by
      cases event with
      | append f bytes => cases hstep; rfl
      | rewrite f content => cases hstep; rfl
      | tailer i =>
        obtain ⟨-, saved, input, next, history, rfl⟩ := stepTailer_shape hstep
        rfl
      | turn i f =>
        obtain ⟨-, hstep⟩ := Option.ite_none_right_eq_some.mp hstep
        cases hstep
        rfl
      | stop => exact absurd rfl hevent
      | _ => exact (downstream_of_step hstep trivial).stopping
    have hle := cutOff_step hevent hstep
    refine ⟨hstopping ▸ h.once, fun o ho => ?_, fun o => (h.cutOff o).mono (hle o)⟩
    rw [hstopping] at ho
    exact Multiset.le_zero.mp (h.uncut o ho ▸ hle o)

/-- To wait for threads stops no `io_service`. -/
theorem filterMap_service_join {α : Type} (l : List α) (thread : α → Thread c) :
    (l.map fun a => StopAction.join (thread a)).filterMap StopAction.service = [] := by
  induction l with
  | nil => rfl
  | cons a l ih => rw [List.map_cons, List.filterMap_cons_none rfl, ih]

/-- `stop` stops the `io_service` of each GELF output, and of no other one. -/
theorem filterMap_service_stopProgram : (stopProgram c).filterMap StopAction.service =
    (List.finRange c.outputs).filter fun o => c.type o = .gelf := by
  have hinput : (stopInputServer c).filterMap StopAction.service = [] := by
    rw [stopInputServer, stopInput, List.cons_append, List.filterMap_cons_none rfl,
      List.cons_append, List.filterMap_cons_none rfl, List.cons_append,
      List.filterMap_cons_none rfl, List.filterMap_append, filterMap_service_join,
      filterMap_service_join, List.append_nil]
  have houtput : ∀ o, (stopOutput c o).filterMap StopAction.service =
      if c.type o = .gelf then [o] else [] := by
    intro o
    rw [stopOutput, List.filterMap_cons_none rfl]
    cases htype : c.type o with
    | gelf =>
      have hservice : (StopAction.stopService o).service = some o := rfl
      rw [if_pos rfl]
      dsimp only
      rw [List.filterMap_cons_some hservice, filterMap_service_join]
    | log => rfl
  rw [stopProgram, List.filterMap_append, hinput, List.nil_append, stopOutputServer,
    List.cons_append, List.filterMap_cons_none rfl, List.filterMap_append, filterMap_service_join,
    List.append_nil, List.filterMap_flatMap]
  simp only [houtput]
  induction List.finRange c.outputs with
  | nil => rfl
  | cons o os ih =>
    rw [List.flatMap_cons, ih, List.filter_cons]
    by_cases ho : c.type o = .gelf <;> simp [ho]

theorem interrupted_start (files : String → FileAtStart) :
    Interrupted files [] (System.start c files) := by
  have hzero : ∀ o, (System.start c files).cutOff o = 0 := fun o => by
    simp [System.cutOff, System.start, OutputThread.cut]
  refine ⟨?_, fun o _ => hzero o, fun o => Or.inl (hzero o)⟩
  change ((stopProgram c).filterMap StopAction.service).Nodup
  rw [filterMap_service_stopProgram]
  exact (List.nodup_finRange _).filter _

end CutOff

/-! ### Runs that end with a stop -/

/-- **What a stop leaves behind.** In any run that ends with `stop`, whatever the numbers of
threads and outputs and however their steps are interleaved: what lies before the position
saved for a file that only grew was handed on in records; and for each output, every record
that was handed on has been exported, or is in a queue on the way to it, or was in
a write that was given up, and in no two of these places; and the writes that were given up
are such that were under way when the `io_service` of the output was stopped. -/
theorem stop_accounts (c : Config) (files : String → FileAtStart) (events : List (Event c))
    (s : System c) (hrun : events.foldlM System.step (System.start c files) = some s)
    (hstop : s.stopping = []) :
    (∀ f ∈ growing files events, ∀ p, s.saved f = some p → ∃ q : ℕ, p = q ∧
      (files f).position ≤ q ∧ q ≤ (s.file f).content.length ∧
      (acknowledged (callsOf f s.history)).flatten =
        kept c.startMsgRegEx (between (s.file f).content (files f).position q)) ∧
    (∀ o, (↑(handedOn s.history) : Multiset TailRecord) = s.done o + s.inQueues o) ∧
    (∀ o, CutOff files events o ↑(s.interrupted o)) ∧
    ∀ f o, (↑((acknowledged (callsOf f s.history)).map (TailRecord.mk f)) : Multiset TailRecord) ≤
      s.done o + s.inQueues o := by
  have hinv : Balanced s ∧ Awaited s ∧
      events.foldlM System.step (System.start c files) = some s ∧ Interrupted files events s := by
    refine Machine.interleaving_induction (P := fun events s => Balanced s ∧ Awaited s ∧
      events.foldlM System.step (System.start c files) = some s ∧ Interrupted files events s)
      ?_ ?_ events s hrun
    · exact ⟨balanced_start files, awaited_start files, rfl, interrupted_start files⟩
    · rintro sofar t event u ⟨hbalanced, hawaited, hsofar, hinterrupted⟩ hstep
      exact ⟨hbalanced.step hstep, hawaited.step hstep,
        Machine.foldlM_snoc_eq_some.mpr ⟨t, hsofar, hstep⟩, hinterrupted.step hsofar hstep⟩
  obtain ⟨hbalanced, hawaited, -, hinterrupted⟩ := hinv
  have hbalance : ∀ o, (↑(handedOn s.history) : Multiset TailRecord) = s.done o + s.inQueues o := by
    intro o
    rw [hbalanced.balance o, hawaited.inHands_eq_zero hstop, add_zero]
  refine ⟨(positioned_run files events s hrun).saved, hbalance, fun o => ?_, fun f o => ?_⟩
  · rw [← List.append_nil events]
    exact (hinterrupted.cutOff o).mono (Multiset.le_add_right _ _)
  · rw [← hbalance o]
    exact Multiset.coe_le.mpr (acknowledged_sublist s.history f).subperm

/-- The only thread of its kind, and the only output. -/
def only : Fin 1 := Fin.last 0

/-- One thread of each kind, and one output. -/
def oneOfEach : Config where
  monitors := 1
  importers := 1
  exporters := 1
  outputs := 1
  outputThreads := 1
  type _ := .gelf
  output _ := only
  max_queue_size := 10000
  startMsgRegEx := none

/-- A file of one line. -/
def oneLine (f : String) : FileAtStart :=
  if f = "/v/a" then ⟨ascii "x\n", 0, none⟩ else ⟨[], 0, none⟩

/-- The monitor thread reads the line and saves the position behind it. -/
def readLine : List (Event oneOfEach) :=
  [.tailer (some only), .turn (some only) "/v/a"] ++
    List.replicate 7 (.tailer (some only))

/-- The record is taken from queue to queue, and exported. -/
def passOn : List (Event oneOfEach) :=
  [.importer only, .importerTakes only [⟨"/v/a", ascii "x"⟩], .importer only,
    .importer only, .exporter only, .exporterTakes only [⟨"/v/a", ascii "x"⟩],
    .exporter only, .exporter only, .output only,
    .outputTakes only [⟨"/v/a", ascii "x"⟩], .output only, .output only]

/-- Every thread ends when its flag is off. -/
def stopAll : List (Event oneOfEach) :=
  [.stop, .stop, .tailer none, .tailer (some only), .stop, .stop, .importer only, .stop,
    .stop, .stop, .stop, .output only, .stop, .exporter only, .stop]

/-- A stop that comes late: the record has been exported, and no write is given up. -/
theorem stop_accounts_exported :
    ∃ s, (readLine ++ passOn ++ stopAll).foldlM System.step (System.start oneOfEach oneLine) =
        some s ∧
      s.exported only = [⟨"/v/a", ascii "x"⟩] ∧ s.interrupted only = [] ∧
      ∀ o, (↑(handedOn s.history) : Multiset TailRecord) = s.done o + s.inQueues o :=
  ⟨Option.get _ (by decide +kernel), (Option.some_get _).symm, by decide +kernel,
    by decide +kernel, (stop_accounts oneOfEach oneLine (readLine ++ passOn ++ stopAll) _
      (Option.some_get _).symm (by decide +kernel)).2.1⟩

/-- **A stop that comes early** leaves the record in the queue of the input, although the
position behind it has been saved. -/
theorem acknowledged_not_exported :
    ¬∀ (c : Config) (files : String → FileAtStart) (events : List (Event c)) (s : System c),
      events.foldlM System.step (System.start c files) = some s → s.stopping = [] →
      ∀ f p, s.saved f = some p → ∀ m ∈ acknowledged (callsOf f s.history),
        ∀ o, ⟨f, m⟩ ∈ s.exported o := by
  intro h
  have h := h oneOfEach oneLine (readLine ++ stopAll) (Option.get _ (by decide +kernel))
    (Option.some_get _).symm (by decide +kernel) "/v/a" 2 (by decide +kernel) (ascii "x")
    (by decide +kernel) only
  revert h
  decide +kernel

end Pipeline

end IqLogger
