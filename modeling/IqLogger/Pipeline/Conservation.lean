import IqLogger.Pipeline.Accounts

/-!
# What the metrics add up to

No step of a thread loses track of a record, or of what is counted
(`IqLogger.Pipeline.Flow.Balanced.step`). So no metric ever runs ahead of what it counts
(`IqLogger.Pipeline.Flow.metrics_behind`), and once the threads have nothing in hand and the queues
are empty, the metrics of the program can be checked against each other
(`IqLogger.Pipeline.Flow.conserved`): the total of the inputs is the sum of its parts, so is that of
the outputs, and of the messages that were received each output has counted all but those that a
script has ignored or that it could not convert itself.
-/

namespace IqLogger.Pipeline.Flow

variable {c : Setup} {R M O : Type}

section Steps

variable {s t : System c R M O}

/-! ### Producers -/

/-- **A call at any queue** goes on, or is over: then it was accepted and has pushed its items, or
was refused. -/
theorem offer_cases {T : Type} (q : MessageQueue T) (items : List T) (phase : Phase) :
    (∃ next, (offer q items phase).2 = some next ∧ (offer q items phase).1.items = q.items) ∨
      (offer q items phase).2 = none ∧
        ((accepted q items phase = true ∧ (offer q items phase).1.items = q.items ++ items) ∨
          accepted q items phase = false ∧ (offer q items phase).1.items = q.items) := by
  rcases phase with _ | _ | _
  · rw [offer, accepted, MessageQueue.enqueue_bulk]
    rcases hcheck : q.checkSize items.length with ⟨admission, q'⟩
    have hitems : q'.items = q.items := by
      have hsame := MessageQueue.items_checkSize (q := q) items.length
      rwa [hcheck] at hsame
    rcases admission with _ | _ | _
    · exact Or.inl ⟨_, rfl, hitems⟩
    · exact Or.inl ⟨_, rfl, hitems⟩
    · exact Or.inr ⟨rfl, Or.inr ⟨by simp, hitems⟩⟩
  · exact Or.inl ⟨_, rfl, rfl⟩
  · exact Or.inr ⟨rfl, Or.inl ⟨rfl, rfl⟩⟩

/-- The queues of the inputs, when one of them changes. -/
theorem sum_inputQueue (s : System c R M O) (i : Fin c.inputs) (q : MessageQueue (Numbered R)) :
    ∃ rest, ∑ j, numbers (s.inputQueue j).items = numbers (s.inputQueue i).items + rest ∧
      ∑ j, numbers (Function.update s.inputQueue i q j).items = numbers q.items + rest :=
  Finset.sum_apply_update (fun _ q => numbers q.items) s.inputQueue i q

/-- A producer has a record. -/
theorem Balanced.produce (h : Balanced s) {p : Fin c.producers} {i : Fin c.inputs} {record : R}
    (hstep : s.produce p i record = some t) : Balanced t := by
  obtain ⟨hnone, hstep⟩ := Option.ite_none_right_eq_some.mp hstep
  cases hstep
  have hnew : Offer.inHand (some ⟨i, (s.next, record), .looks⟩) +
      ∑ i, numbers (s.inputQueue i).items + ↑s.refused =
      Offer.inHand (s.producer p) + ∑ i, numbers (s.inputQueue i).items + ↑s.refused +
        {s.next} := by
    rw [Option.isNone_iff_eq_none.mp hnone, Offer.inHand, Offer.inHand]
    abel
  have hbefore := s.before_producer p (some ⟨i, (s.next, record), .looks⟩) s.inputQueue s.refused
    hnew
  refine h.of_moved {s.next} 0 h.process h.main h.outputs ?_ ?_ (fun o => (add_zero _).symm)
    (add_zero _).symm h.total h.sent h.sentTotal
  · rw [List.range_succ, ← Multiset.coe_add]
    rfl
  · exact (add_zero _).trans hbefore

/-- A producer makes a step in its call. -/
theorem Balanced.stepProducer (h : Balanced s) {p : Fin c.producers}
    (hstep : s.stepProducer p = some t) : Balanced t := by
  simp only [System.stepProducer] at hstep
  split at hstep
  · cases hstep
  · next call hcall =>
    have hrecord : numbers [call.record] = {call.record.1} := rfl
    obtain ⟨rest, hold, hnew⟩ := sum_inputQueue s call.input
      (offer (s.inputQueue call.input) [call.record] call.phase).1
    obtain ⟨next, hnext, hitems⟩ | ⟨hover, ⟨haccepted, hitems⟩ | ⟨haccepted, hitems⟩⟩ :=
      offer_cases (s.inputQueue call.input) [call.record] call.phase
    · rw [hnext] at hstep
      cases hstep
      refine h.producer p (some { call with phase := next }) _ s.refused ?_
      rw [hold, hnew, hcall, hitems]
      rfl
    · rw [hover, haccepted] at hstep
      cases hstep
      refine h.producer p none _ s.refused ?_
      rw [hold, hnew, hcall, hitems, numbers_append, hrecord, Offer.inHand, Offer.inHand]
      abel
    · rw [hover, haccepted] at hstep
      cases hstep
      refine h.producer p none _ (s.refused ++ [call.record.1]) ?_
      rw [hold, hnew, hcall, hitems, ← Multiset.coe_add, Multiset.coe_singleton, Offer.inHand,
        Offer.inHand]
      abel

/-! ### Import threads -/

theorem unread_importingFrom (i counter : ℕ) :
    (importingFrom i counter : Importer c R M).unread = 0 := by
  rw [importingFrom]
  split_ifs <;> rfl

theorem read_importingFrom (i counter : ℕ) :
    (importingFrom i counter : Importer c R M).read = 0 := by
  rw [importingFrom]
  split_ifs <;> rfl

theorem counted_importingFrom (i counter : ℕ) :
    (importingFrom i counter : Importer c R M).counted = counter := by
  rw [importingFrom]
  split_ifs <;> rfl

/-- An import thread in a call, or behind it: it has nothing to read, and has counted the
messages. -/
theorem unread_sent (j : Fin c.inputs) (counter : ℕ) (messages : List (Numbered M))
    (out : Option Phase) :
    (out.elim (importingFrom (j + 1) (counter + messages.length))
      (.sending j counter messages) : Importer c R M).unread = 0 := by
  rcases out with _ | phase
  · exact unread_importingFrom ..
  · rfl

theorem counted_sent (j : Fin c.inputs) (counter : ℕ) (messages : List (Numbered M))
    (out : Option Phase) :
    (out.elim (importingFrom (j + 1) (counter + messages.length))
      (.sending j counter messages) : Importer c R M).counted = counter + messages.length := by
  rcases out with _ | phase
  · exact counted_importingFrom ..
  · rfl

/-- An import thread makes a step. -/
theorem Balanced.stepImporter (h : Balanced s) {i : Fin c.importers}
    (hstep : s.stepImporter i = some t) : Balanced t := by
  simp only [System.stepImporter] at hstep
  split at hstep
  · next htop =>
    cases hstep
    refine h.importer_sends i _ s.processQueue s.mainQueue s.receive_total h.process h.main ?_ ?_ ?_
    · rw [htop, apply_ite Importer.unread, unread_importingFrom]
      exact ite_self _
    · rw [htop, apply_ite Importer.read, read_importingFrom]
      exact congrArg (· + _ + _) (ite_self _)
    · rw [htop, apply_ite Importer.counted, counted_importingFrom]
      exact congrArg _ (ite_self _)
  · next j counter messages phase hsending =>
    split at hstep
    · cases hstep
      obtain ⟨hstrategy, hout⟩ := offer_spec messages phase h.main
      refine h.importer_sends i _ s.processQueue _ s.receive_total h.process hstrategy ?_ ?_ ?_
      · rw [hsending, unread_sent, Importer.unread]
      · rw [hsending]
        rcases hout with ⟨next, hnext, hitems⟩ | ⟨hover, hitems⟩
        · rw [hnext, hitems]
          rfl
        · rw [hover, hitems, numbers_append, Option.elim_none, read_importingFrom, Importer.read]
          abel
      · rw [hsending, counted_sent, Importer.counted]
    · next index _ =>
      cases hstep
      have hnumbers : numbers (messages.map fun m => (m.1, m.2, index)) = numbers messages :=
        numbers_map (fun m : Numbered M => (m.1, m.2, index)) (fun _ => rfl) messages
      obtain ⟨hstrategy, hout⟩ :=
        offer_spec (messages.map fun m => (m.1, m.2, index)) phase h.process
      refine h.importer_sends i _ _ s.mainQueue s.receive_total hstrategy h.main ?_ ?_ ?_
      · rw [hsending, unread_sent, Importer.unread]
      · rw [hsending]
        rcases hout with ⟨next, hnext, hitems⟩ | ⟨hover, hitems⟩
        · rw [hnext, hitems]
          rfl
        · rw [hover, hitems, numbers_append, hnumbers, Option.elim_none, read_importingFrom,
            Importer.read]
          abel
      · rw [hsending, counted_sent, Importer.counted]
  · next counter htotalling =>
    cases hstep
    refine h.importer_sends i _ s.processQueue s.mainQueue _ h.process h.main ?_ ?_ ?_
    · rw [htotalling]
      rfl
    · rw [htotalling]
      rfl
    · rw [htotalling]
      rfl
  · cases hstep

/-- An import thread has converted its batch: what has become messages is counted at once. -/
theorem Balanced.importerConverts (h : Balanced s) {i : Fin c.importers}
    {outcomes : List (Option M)} (hstep : s.importerConverts i outcomes = some t) :
    Balanced t := by
  simp only [System.importerConverts] at hstep
  split at hstep
  · next j counter records hconverting =>
    obtain ⟨hlength, hstep⟩ := Option.ite_none_right_eq_some.mp hstep
    cases hstep
    set messages := converted records outcomes with hmessages
    have hsplit := numbers_converted hlength
    rw [← hmessages] at hsplit
    refine h.importer i _ s.inputQueue s.processQueue s.mainQueue _ _ s.receive_total
      (numbers messages) h.process h.main ?_ ?_ ?_ ?_
    · have hunread : (if messages = [] then importingFrom (j + 1) counter else
          .sending j counter messages .looks : Importer c R M).unread = 0 := by
        rw [apply_ite Importer.unread, unread_importingFrom]
        exact ite_self _
      rw [hunread, hconverting, Importer.unread, hsplit, ← Multiset.coe_add]
      abel
    · have hread : (if messages = [] then importingFrom (j + 1) counter else
          .sending j counter messages .looks : Importer c R M).read = numbers messages := by
        split_ifs with hnil
        · rw [hnil, read_importingFrom]
          rfl
        · rfl
      rw [hread, hconverting, Importer.read]
      abel
    · obtain ⟨rest, hold, hnew⟩ := Finset.sum_apply_update (fun _ n => n) s.receive_counter j
        (s.receive_counter j + messages.length)
      rw [hold, hnew, card_numbers]
      omega
    · have hcounted : (if messages = [] then importingFrom (j + 1) counter else
          .sending j counter messages .looks : Importer c R M).counted =
          counter + messages.length := by
        split_ifs with hnil
        · rw [hnil, counted_importingFrom]
          rfl
        · rfl
      rw [hcounted, hconverting, Importer.counted, card_numbers, add_assoc]
  · cases hstep

/-! ### Processor threads -/

/-- A processor thread makes a step. -/
theorem Balanced.stepProcessor (h : Balanced s) {p : Fin c.processors}
    (hstep : s.stepProcessor p = some t) : Balanced t := by
  simp only [System.stepProcessor] at hstep
  split at hstep
  · next htop =>
    cases hstep
    refine h.processor p _ s.processQueue s.mainQueue s.unprocessed h.process h.main ?_
    rw [htop]
    split_ifs <;> rfl
  · next messages phase hsending =>
    cases hstep
    obtain ⟨hstrategy, hout⟩ := offer_spec messages phase h.main
    refine h.processor p _ s.processQueue _ s.unprocessed h.process hstrategy ?_
    rw [hsending]
    rcases hout with ⟨next, hnext, hitems⟩ | ⟨hover, hitems⟩
    · rw [hnext, hitems]
      rfl
    · rw [hover, hitems, numbers_append, Option.elim_none, Processor.inHand, Processor.inHand]
      abel
  · cases hstep

/-- The scripts have run on a batch. -/
theorem Balanced.processorConverts (h : Balanced s) {p : Fin c.processors}
    {outcomes : List (Option M)} (hstep : s.processorConverts p outcomes = some t) :
    Balanced t := by
  simp only [System.processorConverts] at hstep
  split at hstep
  · next records hconverting =>
    obtain ⟨hlength, hstep⟩ := Option.ite_none_right_eq_some.mp hstep
    cases hstep
    refine h.processor p _ s.processQueue s.mainQueue _ h.process h.main ?_
    have hhand : (if converted records outcomes = [] then .top else
        .sending (converted records outcomes) .looks : Processor M).inHand =
        numbers (converted records outcomes) := by
      split_ifs with hnil
      · rw [hnil]
        rfl
      · rfl
    rw [hhand, hconverting, Processor.inHand, numbers_converted hlength, ← Multiset.coe_add]
    abel
  · cases hstep

/-! ### Export threads -/

theorem inHand_exportingFrom (messages : List (Numbered M)) (n : ℕ) (o : Fin c.outputs) :
    (exportingFrom messages n : Exporter c M O).inHand o =
      if n ≤ o then numbers messages else 0 := by
  rw [exportingFrom]
  by_cases hn : n < c.outputs
  · rw [dif_pos hn]
    rfl
  · rw [dif_neg hn, if_neg (by omega)]
    rfl

theorem inHand_exportingFrom_succ (messages : List (Numbered M)) (o' o : Fin c.outputs) :
    (exportingFrom messages (o' + 1) : Exporter c M O).inHand o =
      if o' < o then numbers messages else 0 :=
  inHand_exportingFrom messages (o' + 1) o

/-- An export thread makes a step. What it pushes to an output is not in its hand for that
output any more. -/
theorem Balanced.stepExporter (h : Balanced s) {e : Fin c.exporters}
    (hstep : s.stepExporter e = some t) : Balanced t := by
  simp only [System.stepExporter] at hstep
  split at hstep
  · next htop =>
    cases hstep
    refine h.exporter e _ s.mainQueue s.outputQueue s.unconverted h.main h.outputs fun o => ?_
    rw [htop]
    split_ifs <;> rfl
  · next messages o' records phase hsending =>
    cases hstep
    obtain ⟨hstrategy, hout⟩ := offer_spec records phase (h.outputs o')
    refine h.exporter e _ s.mainQueue _ s.unconverted h.main ?_ fun o => ?_
    · exact (Function.forall_update_iff s.outputQueue
        fun _ q => q.overflow_strategy = .throttle).mpr ⟨hstrategy, fun o _ => h.outputs o⟩
    · rw [hsending]
      rcases hout with ⟨next, hnext, hitems⟩ | ⟨hover, hitems⟩
      · rw [hnext]
        by_cases ho : o = o'
        · subst ho
          rw [Function.update_self, hitems]
          rfl
        · rw [Function.update_of_ne ho]
          rfl
      · rw [hover, Option.elim_none, inHand_exportingFrom_succ, Exporter.inHand]
        by_cases ho : o = o'
        · subst ho
          rw [Function.update_self, hitems, numbers_append, if_neg (lt_irrefl _),
            if_neg (lt_irrefl _), if_pos rfl]
          abel
        · rw [Function.update_of_ne ho, if_neg (Ne.symm ho)]
  · cases hstep

/-- An export thread has converted its batch for an output. -/
theorem Balanced.exporterConverts (h : Balanced s) {e : Fin c.exporters}
    {outcomes : List (Option O)} (hstep : s.exporterConverts e outcomes = some t) :
    Balanced t := by
  simp only [System.exporterConverts] at hstep
  split at hstep
  · next messages o' hconverting =>
    obtain ⟨hlength, hstep⟩ := Option.ite_none_right_eq_some.mp hstep
    cases hstep
    refine h.exporter e _ s.mainQueue s.outputQueue _ h.main h.outputs fun o => ?_
    have hhand : (if converted messages outcomes = [] then exportingFrom messages (o' + 1) else
        .sending messages o' (converted messages outcomes) .looks : Exporter c M O).inHand o =
        if o' < o then numbers messages else if o' = o then numbers (converted messages outcomes)
          else 0 := by
      by_cases hnil : converted messages outcomes = []
      · rw [if_pos hnil, inHand_exportingFrom_succ, hnil, numbers_nil, ite_self]
      · rw [if_neg hnil]
        rfl
    rw [hhand, hconverting, Exporter.inHand]
    by_cases ho : o = o'
    · subst ho
      rw [Function.update_self, if_neg (lt_irrefl _), if_pos rfl, if_pos (le_refl _),
        numbers_converted hlength, ← Multiset.coe_add]
      abel
    · have hlt : o' ≤ o ↔ o' < o := ⟨fun hle => lt_of_le_of_ne hle (Ne.symm ho), le_of_lt⟩
      rw [Function.update_of_ne ho, if_neg (Ne.symm ho)]
      simp only [hlt]
  · cases hstep

/-! ### Output threads -/

/-- An output thread makes a step. -/
theorem Balanced.stepOutput (h : Balanced s) {w : Fin c.outputThreads}
    (hstep : s.stepOutput w = some t) : Balanced t := by
  simp only [System.stepOutput] at hstep
  split at hstep
  · next htop =>
    cases hstep
    refine h.output w _ s.outputQueue s.written s.givenUp s.send_counter s.sent_total h.outputs
      (fun o => ?_) (fun o => ?_) ?_
    all_goals
      rw [htop]
      split_ifs <;> rfl
  · next flushed hexporting =>
    cases hstep
    refine h.output w _ s.outputQueue s.written s.givenUp _ s.sent_total h.outputs
      (fun o => ?_) (fun o => ?_) ?_
    · rw [hexporting]
      rfl
    · rw [hexporting]
      by_cases ho : c.output w = o
      · subst ho
        rw [Function.update_self, if_pos rfl, if_pos rfl, OutputThread.uncounted,
          OutputThread.uncounted]
        omega
      · rw [Function.update_of_ne (Ne.symm ho), if_neg ho, if_neg ho]
    · obtain ⟨rest, hold, hnew⟩ := Finset.sum_apply_update (fun _ n => n) s.send_counter
        (c.output w) (s.send_counter (c.output w) + flushed)
      rw [hexporting, hold, hnew, OutputThread.untotalled, OutputThread.untotalled]
      omega
  · next count htotalling =>
    cases hstep
    refine h.output w _ s.outputQueue s.written s.givenUp s.send_counter _ h.outputs
      (fun o => ?_) (fun o => ?_) ?_
    · rw [htotalling]
      rfl
    · rw [htotalling]
      rfl
    · rw [htotalling, OutputThread.untotalled, OutputThread.untotalled]
      omega
  · cases hstep

/-- **What an output thread flushes** was in its hands. -/
theorem Balanced.flush (h : Balanced s) {w : Fin c.outputThreads} {n : ℕ} {success : Bool}
    (hstep : s.flush w n success = some t) : Balanced t := by
  simp only [System.flush] at hstep
  split at hstep
  · next records flushed hexporting =>
    obtain ⟨⟨-, hn, -⟩, hstep⟩ := Option.ite_none_right_eq_some.mp hstep
    cases hstep
    have hsplit : numbers records = ↑((records.take n).map Prod.fst) + numbers (records.drop n) :=
      (congrArg numbers (List.take_append_drop n records).symm).trans (numbers_append ..)
    have hlength : ((records.take n).map Prod.fst).length = n := by
      rw [List.length_map, List.length_take, min_eq_left hn]
    refine h.output w _ s.outputQueue _ _ s.send_counter s.sent_total h.outputs
      (fun o => ?_) (fun o => ?_) ?_
    · rw [hexporting]
      by_cases ho : c.output w = o
      · subst ho
        rw [if_pos rfl, if_pos rfl, OutputThread.inHand, OutputThread.inHand, hsplit]
        rcases success with _ | _
        · rw [if_neg Bool.false_ne_true, if_neg Bool.false_ne_true, Function.update_self,
            ← Multiset.coe_add]
          abel
        · rw [if_pos rfl, if_pos rfl, Function.update_self, ← Multiset.coe_add]
          abel
      · rw [if_neg ho, if_neg ho]
        rcases success with _ | _
        · rw [if_neg Bool.false_ne_true, if_neg Bool.false_ne_true,
            Function.update_of_ne (Ne.symm ho)]
        · rw [if_pos rfl, if_pos rfl, Function.update_of_ne (Ne.symm ho)]
    · rw [hexporting]
      by_cases ho : c.output w = o
      · subst ho
        rw [if_pos rfl, if_pos rfl, OutputThread.uncounted, OutputThread.uncounted]
        rcases success with _ | _
        · rw [if_neg Bool.false_ne_true, if_neg Bool.false_ne_true, Function.update_self,
            List.length_append, hlength]
          omega
        · rw [if_pos rfl, if_pos rfl, Function.update_self, List.length_append, hlength]
          omega
      · rw [if_neg ho, if_neg ho]
        rcases success with _ | _
        · rw [if_neg Bool.false_ne_true, if_neg Bool.false_ne_true,
            Function.update_of_ne (Ne.symm ho)]
        · rw [if_pos rfl, if_pos rfl, Function.update_of_ne (Ne.symm ho)]
    · rw [hexporting]
      rfl
  · cases hstep

/-! ### Batches that are taken -/

theorem Balanced.importerTakes [DecidableEq R] (h : Balanced s) {i : Fin c.importers}
    {got : List (Numbered R)} (hstep : s.importerTakes i got = some t) : Balanced t := by
  simp only [System.importerTakes] at hstep
  split at hstep
  · next j counter htaking =>
    obtain ⟨⟨-, hgot⟩, hstep⟩ := Option.ite_none_right_eq_some.mp hstep
    cases hstep
    have htake := numbers_take (s.inputQueue j) (List.isSubperm_iff.mp hgot)
    obtain ⟨rest, hold, hnew⟩ := sum_inputQueue s j ((s.inputQueue j).take got)
    refine h.importer i _ _ s.processQueue s.mainQueue s.unread s.receive_counter s.receive_total 0
      h.process h.main ?_ ?_ rfl ?_
    · have hunread : (if got = [] then importingFrom (j + 1) counter else
          .converting j counter got : Importer c R M).unread = numbers got := by
        by_cases hnil : got = []
        · rw [if_pos hnil, unread_importingFrom, hnil]
          rfl
        · rw [if_neg hnil]
          rfl
      rw [hold, hnew, hunread, htaking, Importer.unread, htake]
      abel
    · have hread : (if got = [] then importingFrom (j + 1) counter else
          .converting j counter got : Importer c R M).read = 0 := by
        rw [apply_ite Importer.read, read_importingFrom]
        exact ite_self _
      rw [hread, htaking, Importer.read, add_zero]
    · have hcounted : (if got = [] then importingFrom (j + 1) counter else
          .converting j counter got : Importer c R M).counted = counter := by
        rw [apply_ite Importer.counted, counted_importingFrom]
        exact ite_self _
      rw [hcounted, htaking]
      rfl
  · cases hstep

theorem Balanced.processorTakes [DecidableEq M] (h : Balanced s) {p : Fin c.processors}
    {got : List (Numbered (M × UInt16))} (hstep : s.processorTakes p got = some t) :
    Balanced t := by
  simp only [System.processorTakes] at hstep
  split at hstep
  · next htaking =>
    obtain ⟨⟨-, hgot⟩, hstep⟩ := Option.ite_none_right_eq_some.mp hstep
    cases hstep
    refine h.processor p _ (s.processQueue.take got) s.mainQueue s.unprocessed h.process h.main ?_
    have hhand : (if got = [] then .top else .converting got : Processor M).inHand =
        numbers got := by
      by_cases hnil : got = []
      · rw [if_pos hnil, hnil]
        rfl
      · rw [if_neg hnil]
        rfl
    rw [hhand, htaking, Processor.inHand, numbers_take _ (List.isSubperm_iff.mp hgot)]
    abel
  · cases hstep

theorem Balanced.exporterTakes [DecidableEq M] (h : Balanced s) {e : Fin c.exporters}
    {got : List (Numbered M)} (hstep : s.exporterTakes e got = some t) : Balanced t := by
  simp only [System.exporterTakes] at hstep
  split at hstep
  · next htaking =>
    obtain ⟨⟨-, hgot⟩, hstep⟩ := Option.ite_none_right_eq_some.mp hstep
    cases hstep
    refine h.exporter e _ (s.mainQueue.take got) s.outputQueue s.unconverted h.main h.outputs
      fun o => ?_
    have hhand : (if got = [] then .top else exportingFrom got 0 : Exporter c M O).inHand o =
        numbers got := by
      by_cases hnil : got = []
      · rw [if_pos hnil, hnil]
        rfl
      · rw [if_neg hnil, inHand_exportingFrom, if_pos (Nat.zero_le _)]
    rw [hhand, htaking, Exporter.inHand, numbers_take _ (List.isSubperm_iff.mp hgot)]
    abel
  · cases hstep

theorem Balanced.outputTakes [DecidableEq O] (h : Balanced s) {w : Fin c.outputThreads}
    {got : List (Numbered O)} (hstep : s.outputTakes w got = some t) : Balanced t := by
  simp only [System.outputTakes] at hstep
  split at hstep
  · next htaking =>
    obtain ⟨⟨-, hgot⟩, hstep⟩ := Option.ite_none_right_eq_some.mp hstep
    cases hstep
    refine h.output w _ _ s.written s.givenUp s.send_counter s.sent_total ?_ (fun o => ?_)
      (fun o => ?_) ?_
    · exact (Function.forall_update_iff s.outputQueue
        fun _ q => q.overflow_strategy = .throttle).mpr
        ⟨h.outputs (c.output w), fun o _ => h.outputs o⟩
    · have hhand : (if got = [] then .top else .exporting got 0 : OutputThread O).inHand =
          numbers got := by
        by_cases hnil : got = []
        · rw [if_pos hnil, hnil]
          rfl
        · rw [if_neg hnil]
          rfl
      rw [hhand, htaking, OutputThread.inHand]
      by_cases ho : c.output w = o
      · subst ho
        rw [Function.update_self, if_pos rfl, if_pos rfl,
          numbers_take (s.outputQueue _) (List.isSubperm_iff.mp hgot)]
        abel
      · rw [Function.update_of_ne (Ne.symm ho), if_neg ho, if_neg ho]
    · rw [htaking, apply_ite OutputThread.uncounted]
      exact congrArg (_ + _ + _ + ite _ · 0) (ite_self _).symm
    · rw [htaking, apply_ite OutputThread.untotalled]
      exact congrArg (_ + _ + ·) (ite_self _).symm
  · cases hstep

/-- **No step loses track of a number**, or of what is counted. -/
theorem Balanced.step [DecidableEq R] [DecidableEq M] [DecidableEq O] (h : Balanced s)
    {event : Event c R M O} (hstep : s.step event = some t) : Balanced t := by
  rcases event with _ | _ | _ | _ | _ | _ | _ | _ | _ | _ | _ | _ | _ | _ | _
  · exact h.produce hstep
  · exact h.stepProducer hstep
  · exact h.stepImporter hstep
  · exact h.importerTakes hstep
  · exact h.importerConverts hstep
  · exact h.stepProcessor hstep
  · exact h.processorTakes hstep
  · exact h.processorConverts hstep
  · exact h.stepExporter hstep
  · exact h.exporterTakes hstep
  · exact h.exporterConverts hstep
  · exact h.stepOutput hstep
  · exact h.outputTakes hstep
  · exact h.flush hstep
  · cases hstep
    exact ⟨h.process, h.main, h.outputs, h.balance, h.received, h.total, h.sent, h.sentTotal⟩

end Steps

/-! ### When nothing is on its way -/

/-- The threads have nothing in hand, and the queues are empty. -/
structure System.Idle (s : System c R M O) : Prop where
  producer : ∀ p, s.producer p = none
  inputQueue : ∀ i, (s.inputQueue i).items = []
  importer : ∀ i, s.importer i = .top ∨ s.importer i = .ended
  processQueue : s.processQueue.items = []
  processor : ∀ p, s.processor p = .top ∨ s.processor p = .taking ∨ s.processor p = .ended
  mainQueue : s.mainQueue.items = []
  exporter : ∀ e, s.exporter e = .top ∨ s.exporter e = .taking ∨ s.exporter e = .ended
  outputQueue : ∀ o, (s.outputQueue o).items = []
  outputThread : ∀ w, s.outputThread w = .top ∨ s.outputThread w = .taking ∨
    s.outputThread w = .ended

section Idle

variable {s : System c R M O} (h : s.Idle)

include h

theorem System.Idle.before_eq : s.before = ↑(s.refused ++ s.unread) := by
  have hproducer : ∀ p, Offer.inHand (s.producer p) = 0 := by
    intro p
    rw [h.producer p]
    rfl
  have hqueue : ∀ i, numbers (s.inputQueue i).items = 0 := by
    intro i
    rw [h.inputQueue i]
    rfl
  have himporter : ∀ i, (s.importer i).unread = 0 := by
    intro i
    rcases h.importer i with hi | hi <;> rw [hi, Importer.unread]
  rw [System.before, Finset.sum_eq_zero fun p _ => hproducer p,
    Finset.sum_eq_zero fun i _ => hqueue i, Finset.sum_eq_zero fun i _ => himporter i,
    ← Multiset.coe_add]
  abel

theorem System.Idle.within_eq : s.within = ↑s.unprocessed := by
  have himporter : ∀ i, (s.importer i).read = 0 := by
    intro i
    rcases h.importer i with hi | hi <;> rw [hi, Importer.read]
  have hprocessor : ∀ p, (s.processor p).inHand = 0 := by
    intro p
    rcases h.processor p with hp | hp | hp <;> rw [hp, Processor.inHand]
  rw [System.within, Finset.sum_eq_zero fun i _ => himporter i,
    Finset.sum_eq_zero fun p _ => hprocessor p, h.processQueue, h.mainQueue, numbers_nil,
    numbers_nil]
  abel

theorem System.Idle.behind_eq (o : Fin c.outputs) :
    s.behind o = ↑(s.unconverted o ++ s.written o ++ s.givenUp o) := by
  have hexporter : ∀ e, (s.exporter e).inHand o = 0 := by
    intro e
    rcases h.exporter e with he | he | he <;> rw [he, Exporter.inHand]
  have houtput : ∀ w, (if c.output w = o then (s.outputThread w).inHand else 0) = 0 := by
    intro w
    rcases h.outputThread w with hw | hw | hw <;> rw [hw, OutputThread.inHand, ite_self]
  rw [System.behind, Finset.sum_eq_zero fun e _ => hexporter e,
    Finset.sum_eq_zero fun w _ => houtput w, h.outputQueue o, numbers_nil, ← Multiset.coe_add,
    ← Multiset.coe_add]
  abel

theorem System.Idle.counted_eq : ∑ i, (s.importer i).counted = 0 := by
  refine Finset.sum_eq_zero fun i _ => ?_
  rcases h.importer i with hi | hi <;> rw [hi, Importer.counted]

theorem System.Idle.uncounted_eq (o : Fin c.outputs) :
    (∑ w, if c.output w = o then (s.outputThread w).uncounted else 0) = 0 := by
  refine Finset.sum_eq_zero fun w _ => ?_
  rcases h.outputThread w with hw | hw | hw <;> rw [hw, OutputThread.uncounted, ite_self]

theorem System.Idle.untotalled_eq : ∑ w, (s.outputThread w).untotalled = 0 := by
  refine Finset.sum_eq_zero fun w _ => ?_
  rcases h.outputThread w with hw | hw | hw <;> rw [hw, OutputThread.untotalled]

end Idle

/-! ### A run -/

/-- One input with a script, and two outputs with a thread each. -/
def sampleSetup : Setup where
  inputs := 1
  producers := 1
  importers := 1
  processors := 1
  exporters := 1
  outputs := 2
  outputThreads := 2
  max_queue_size _ := 4
  overflow_strategy _ := .drop
  processorScriptIndex _ := some 0
  output w := w

/-- Of two records the script ignores the second, and the second output cannot convert the
first. -/
def sampleEvents : List (Event sampleSetup Char Char Char) :=
  let p : Fin sampleSetup.producers := ⟨0, Nat.one_pos⟩
  let t : Fin sampleSetup.importers := ⟨0, Nat.one_pos⟩
  let n : Fin sampleSetup.processors := ⟨0, Nat.one_pos⟩
  let e : Fin sampleSetup.exporters := ⟨0, Nat.one_pos⟩
  let w : Fin sampleSetup.outputThreads := ⟨0, Nat.two_pos⟩
  let i : Fin sampleSetup.inputs := ⟨0, Nat.one_pos⟩
  [.produce p i 'a', .producer p, .producer p, .produce p i 'b', .producer p, .producer p,
    .importer t, .importerTakes t [(0, 'a'), (1, 'b')],
    .importerConverts t [some 'A', some 'B'], .importer t, .importer t, .importer t,
    .processor n, .processorTakes n [(0, 'A', 0), (1, 'B', 0)],
    .processorConverts n [some 'A', none], .processor n, .processor n,
    .exporter e, .exporterTakes e [(0, 'A')], .exporterConverts e [some 'A'], .exporter e,
    .exporter e, .exporterConverts e [none],
    .output w, .outputTakes w [(0, 'A')], .flush w 1 true, .output w, .output w]

theorem isSome_sampleEvents :
    (sampleEvents.foldlM System.step (System.start sampleSetup Char Char Char)).isSome = true := by
  decide +kernel

/-- What these events lead to. -/
def sample : System sampleSetup Char Char Char :=
  (sampleEvents.foldlM System.step (System.start sampleSetup Char Char Char)).get
    isSome_sampleEvents

theorem idle_sample : sample.Idle where
  producer := Fin.forall_fin_one.mpr rfl
  inputQueue := Fin.forall_fin_one.mpr rfl
  importer := Fin.forall_fin_one.mpr (Or.inl rfl)
  processQueue := rfl
  processor := Fin.forall_fin_one.mpr (Or.inl rfl)
  mainQueue := rfl
  exporter := Fin.forall_fin_one.mpr (Or.inl rfl)
  outputQueue := Fin.forall_fin_two.mpr ⟨rfl, rfl⟩
  outputThread := Fin.forall_fin_two.mpr ⟨Or.inl rfl, Or.inl rfl⟩

/-! ### The metrics -/

section Run

variable [DecidableEq R] [DecidableEq M] [DecidableEq O]

theorem balanced_of_run {s : System c R M O} {events : List (Event c R M O)}
    (hrun : events.foldlM System.step (System.start c R M O) = some s) : Balanced s :=
  Machine.interleaving_induction (P := fun _ s => Balanced s) balanced_start
    (fun _ _ _ _ h hstep => h.step hstep) events s hrun

/-- **No metric runs ahead of what it counts**, whatever the threads do: the totals are behind
their parts, and an output has counted no more than the inputs have. For each output, every record
is in exactly one place. -/
theorem metrics_behind (s : System c R M O) (events : List (Event c R M O))
    (hrun : events.foldlM System.step (System.start c R M O) = some s) :
    s.receive_total ≤ ∑ i, s.receive_counter i ∧
      s.sent_total ≤ ∑ o, s.send_counter o ∧
      ∀ o, s.send_counter o ≤ ∑ i, s.receive_counter i ∧
        (↑(List.range s.next) : Multiset ℕ) = s.before + s.within + s.behind o := by
  have h := balanced_of_run hrun
  refine ⟨?_, ?_, fun o => ⟨?_, h.balance o⟩⟩
  · rw [h.total]
    exact Nat.le_add_right ..
  · rw [h.sentTotal]
    exact Nat.le_add_right ..
  · have hdone : (↑(s.written o) + ↑(s.givenUp o) : Multiset ℕ) ≤ s.within + s.behind o := by
      rw [System.behind, add_assoc _ (↑(s.written o) : Multiset ℕ), ← add_assoc]
      exact Multiset.le_add_left ..
    calc s.send_counter o
      _ ≤ (s.written o).length + (s.givenUp o).length := by
          rw [h.sent o]
          exact Nat.le_add_right ..
      _ = Multiset.card (↑(s.written o) + ↑(s.givenUp o) : Multiset ℕ) := by
          rw [Multiset.card_add, Multiset.coe_card, Multiset.coe_card]
      _ ≤ ∑ i, s.receive_counter i := by
          rw [h.received o]
          exact Multiset.card_le_card hdone

theorem metrics_behind_sample :
    sample.receive_total ≤ ∑ i, sample.receive_counter i ∧
      sample.sent_total ≤ ∑ o, sample.send_counter o ∧
      ∀ o, sample.send_counter o ≤ ∑ i, sample.receive_counter i ∧
        (↑(List.range sample.next) : Multiset ℕ) =
          sample.before + sample.within + sample.behind o :=
  metrics_behind sample sampleEvents (Option.some_get isSome_sampleEvents).symm

/-- **When nothing is on its way**, the metrics add up: the totals are the sums of their parts, and
what was received is, for each output, what a script has left out, what could not be converted for
it, and what it has counted. Every record that was offered is then in one of the lists of what
became of it. -/
theorem conserved (s : System c R M O) (events : List (Event c R M O))
    (hrun : events.foldlM System.step (System.start c R M O) = some s) (hidle : s.Idle) :
    s.receive_total = ∑ i, s.receive_counter i ∧
      s.sent_total = ∑ o, s.send_counter o ∧
      ∀ o, s.send_counter o = (s.written o).length + (s.givenUp o).length ∧
        s.receive_total = s.unprocessed.length + (s.unconverted o).length + s.send_counter o ∧
        (List.range s.next).Perm (s.refused ++ s.unread ++ (s.unprocessed ++
          (s.unconverted o ++ s.written o ++ s.givenUp o))) := by
  have h := balanced_of_run hrun
  have htotal : ∑ i, s.receive_counter i = s.receive_total := by
    rw [h.total, hidle.counted_eq, add_zero]
  refine ⟨htotal.symm, ?_, fun o => ?_⟩
  · rw [h.sentTotal, hidle.untotalled_eq, add_zero]
  have hsent : s.send_counter o = (s.written o).length + (s.givenUp o).length := by
    rw [h.sent o, hidle.uncounted_eq o, add_zero]
  refine ⟨hsent, ?_, ?_⟩
  · rw [← htotal, h.received o, hidle.within_eq, hidle.behind_eq o, Multiset.card_add,
      Multiset.coe_card, Multiset.coe_card, List.length_append, List.length_append, hsent]
    omega
  · refine Multiset.coe_eq_coe.mp ((h.balance o).trans ?_)
    rw [hidle.before_eq, hidle.within_eq, hidle.behind_eq o, add_assoc, Multiset.coe_add,
      Multiset.coe_add]

theorem conserved_sample :
    sample.receive_total = ∑ i, sample.receive_counter i ∧
      sample.sent_total = ∑ o, sample.send_counter o ∧
      ∀ o, sample.send_counter o = (sample.written o).length + (sample.givenUp o).length ∧
        sample.receive_total = sample.unprocessed.length + (sample.unconverted o).length +
          sample.send_counter o ∧
        (List.range sample.next).Perm (sample.refused ++ sample.unread ++ (sample.unprocessed ++
          (sample.unconverted o ++ sample.written o ++ sample.givenUp o))) :=
  conserved sample sampleEvents (Option.some_get isSome_sampleEvents).symm idle_sample

end Run

end IqLogger.Pipeline.Flow
