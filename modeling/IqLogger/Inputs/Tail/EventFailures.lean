import IqLogger.Inputs.Tail.Monitor
import IqLogger.Lib.Run

/-!
# Events that fail

Handling an event can fail in four ways, and which of them it is can be read off
the table and the file system beforehand: a record is to be made for a file that
cannot be opened, the link of an open file cannot be read, the saved position of a
deleted file cannot be erased or its watch not be looked up, or the entry of the
name is empty (`IqLogger.Tail.TailMonitor.outcome_handle`). The first three throw,
the last one dereferences a null pointer.

Two results say what a failure does to everything else. `modify` makes the entry
before the record, so a creation that fails leaves an empty entry behind and the
next event of the name is the end of the program: the table stays whole exactly
in the runs in which no creation fails
(`IqLogger.Tail.TailMonitor.table_unharmed_iff`). And the exception of one event
is caught outside the loop of the monitor thread, so that neither the rest of the
batch nor any later batch is handled: all events are handled exactly when none
fails (`IqLogger.Tail.TailMonitor.all_handled_iff`).
-/

namespace IqLogger

namespace Tail

namespace TailMonitor

/-! ### When an event fails -/

section Fails

variable (fs : FileSystem) (m : TailMonitor) (event : Event)

/-- The event is one of those that call `modify`. -/
def Modifies : Prop :=
  event.eventType = .init ∨ event.eventType = .create ∨ event.eventType = .modify

/-- `createRecord` is called and throws: there is no entry under the name, and the
file cannot be opened. -/
def CreationFails : Prop :=
  Modifies event ∧ m.internalTable.lookup event.source.filename = none ∧
    fs.openFile event.source.filename = none

/-- `getCurrentFileName` is called and throws: the link of the file of the record
cannot be read. -/
def LinkFails : Prop :=
  event.eventType = .move ∧ ∃ ptr,
    m.internalTable.lookup event.source.filename = some (some ptr) ∧
      fs.fdLink ptr.record.fileDescriptor = none

/-- `erasePosition` or `removeWatch` is called and throws: the saved position of the
record cannot be erased, or it cannot be told whether its link leads to a directory. -/
def RemovalFails : Prop :=
  event.eventType = .delete ∧ ∃ ptr,
    m.internalTable.lookup event.source.filename = some (some ptr) ∧
      (fs.eraseFails event.source.filename = true ∨
        ∃ path, ptr.record.symlinkPath = some path ∧ fs.statusFails path = true)

/-- The entry of the name is looked at and empty. -/
def EmptyEntry : Prop :=
  event.eventType ≠ .unknown ∧ m.internalTable.lookup event.source.filename = some none

/-- **Every entry holds a record.** -/
def Filled : Prop := ∀ filename, m.internalTable.lookup filename ≠ some none

variable {fs m event} {savedPosition : String → Int}

theorem createRecord_eq_none (source : TailSource) :
    m.createRecord fs savedPosition source = none ↔ fs.openFile source.filename = none := by
  rw [createRecord, Option.map_eq_none_iff]

/-- How `modify` ends. -/
theorem outcome_modify (savedPosition : String → Int) (source : TailSource) :
    ((m.modify fs savedPosition source).outcome = .crashed ↔
        m.internalTable.lookup source.filename = some none) ∧
      ((m.modify fs savedPosition source).outcome = .thrown ↔
        m.internalTable.lookup source.filename = none ∧ fs.openFile source.filename = none) := by
  rw [modify]
  split
  case h_1 h => simp [h, processRecord]
  case h_2 h => simp [h]
  case h_3 h =>
    split
    case h_1 ptr hptr =>
      have hopen : fs.openFile source.filename ≠ none := fun hc =>
        Option.some_ne_none ptr (hptr.symm.trans ((createRecord_eq_none source).mpr hc))
      simp [h, hopen, processRecord]
    case h_2 hnone => simp [h, (createRecord_eq_none source).mp hnone]

/-- How `remove` ends. -/
theorem outcome_remove (fs : FileSystem) (source : TailSource) :
    ((m.remove fs source).outcome = .crashed ↔
        m.internalTable.lookup source.filename = some none) ∧
      ((m.remove fs source).outcome = .thrown ↔
        ∃ ptr, m.internalTable.lookup source.filename = some (some ptr) ∧
          (fs.eraseFails source.filename = true ∨
            ∃ path, ptr.record.symlinkPath = some path ∧ fs.statusFails path = true)) := by
  rw [remove]
  split
  case h_1 ptr h =>
    dsimp only
    split_ifs with hfails
    · rw [Bool.or_eq_true, Option.any_eq_true] at hfails
      simpa [h] using hfails
    · rw [Bool.or_eq_true, Option.any_eq_true] at hfails
      simpa [h] using hfails
  case h_2 h => simp [h]
  case h_3 h => simp [h]

/-- **How an event ends**: a null pointer is dereferenced exactly when the entry
is empty, and an exception thrown exactly when a file cannot be opened, a link not
be read or a record not be removed. -/
theorem outcome_handle :
    ((m.handle fs savedPosition event).outcome = .crashed ↔ m.EmptyEntry event) ∧
      ((m.handle fs savedPosition event).outcome = .thrown ↔
        m.CreationFails fs event ∨ m.LinkFails fs event ∨ m.RemovalFails fs event) := by
  have hmodify : Modifies event →
      m.handle fs savedPosition event = m.modify fs savedPosition event.source := by
    rintro (h | h | h) <;> rw [handle, h] <;> rfl
  by_cases hmod : Modifies event
  · have hknown : event.eventType ≠ .unknown := by
      rcases hmod with h | h | h <;> simp [h]
    have hmove : event.eventType ≠ .move := by
      rcases hmod with h | h | h <;> simp [h]
    have hdelete : event.eventType ≠ .delete := by
      rcases hmod with h | h | h <;> simp [h]
    rw [hmodify hmod]
    simpa [EmptyEntry, CreationFails, LinkFails, RemovalFails, hmod, hknown, hmove, hdelete] using
      m.outcome_modify savedPosition event.source
  · have hcreation : ¬m.CreationFails fs event := fun h => hmod h.1
    cases htype : event.eventType with
    | init => exact absurd (Or.inl htype) hmod
    | create => exact absurd (Or.inr (Or.inl htype)) hmod
    | modify => exact absurd (Or.inr (Or.inr htype)) hmod
    | unknown => simp [handle, htype, EmptyEntry, hcreation, LinkFails, RemovalFails]
    | delete =>
      have hhandle : m.handle fs savedPosition event = m.remove fs event.source := by
        rw [handle, htype]
      rw [hhandle]
      simpa [EmptyEntry, hcreation, LinkFails, RemovalFails, htype] using
        m.outcome_remove fs event.source
    | move =>
      simp only [handle, htype, EmptyEntry, hcreation, LinkFails, RemovalFails, move]
      split
      case h_1 ptr h =>
        cases hlink : fs.fdLink ptr.record.fileDescriptor with
        | none => simp [h, hlink, PointersTableInternalRecord.getCurrentFileName]
        | some path =>
          simp only [PointersTableInternalRecord.getCurrentFileName, hlink, Option.map_some]
          split_ifs <;> simp [h, hlink]
      case h_2 h => simp [h]
      case h_3 h => simp [h]

end Fails

/-! ### The table -/

section Table

variable {fs : FileSystem} {m : TailMonitor} {event : Event} {savedPosition : String → Int}

/-- **A creation that fails changes the table**: an empty entry is left behind. -/
theorem internalTable_of_creationFails (savedPosition : String → Int)
    (h : m.CreationFails fs event) :
    (m.handle fs savedPosition event).monitor.internalTable =
      m.internalTable.insert event.source.filename none := by
  obtain ⟨hmod, hlook, hopen⟩ := h
  have hmodify : m.handle fs savedPosition event = m.modify fs savedPosition event.source := by
    rcases hmod with h | h | h <;> rw [handle, h] <;> rfl
  rw [hmodify, modify, hlook]
  -- `insert` has made the entry before `createRecord` throws
  simp only [(createRecord_eq_none event.source).mpr hopen]

theorem internalTable_ne_of_creationFails (h : m.CreationFails fs event) :
    (m.handle fs savedPosition event).monitor.internalTable ≠ m.internalTable := by
  intro heq
  have hlook := AList.lookup_insert (a := event.source.filename) (b := (none : Option RecordPtr))
    m.internalTable
  rw [← internalTable_of_creationFails savedPosition h, heq, h.2.1] at hlook
  simp at hlook

theorem Filled.insert (h : m.Filled) (filename : String) (ptr : RecordPtr) {m' : TailMonitor}
    (hm' : m'.internalTable = m.internalTable.insert filename (some ptr)) : m'.Filled := by
  intro k hk
  rw [hm'] at hk
  rcases AList.lookup_insert_eq_some.mp hk with ⟨-, hnone⟩ | ⟨-, hk⟩
  · cases hnone
  · exact h k hk

theorem Filled.erase (h : m.Filled) (filename : String) {m' : TailMonitor}
    (hm' : m'.internalTable = m.internalTable.erase filename) : m'.Filled := by
  intro k hk
  rw [hm'] at hk
  exact h k (AList.lookup_erase_eq_some.mp hk).2

/-- **An event keeps the table filled** unless a creation fails. -/
theorem Filled.handle (h : m.Filled) (hfails : ¬m.CreationFails fs event) :
    (m.handle fs savedPosition event).monitor.Filled := by
  have hmodify : Modifies event → (m.modify fs savedPosition event.source).monitor.Filled := by
    intro hmod
    rw [modify]
    split
    case h_1 => exact h.insert _ _ rfl
    case h_2 => exact h
    case h_3 hlook =>
      split
      case h_1 => exact h.insert _ _ rfl
      case h_2 hnone =>
        exact absurd ⟨hmod, hlook, (createRecord_eq_none event.source).mp hnone⟩ hfails
  rw [TailMonitor.handle]
  split
  case h_1 htype => exact hmodify (Or.inl htype)
  case h_2 htype => exact hmodify (Or.inr (Or.inl htype))
  case h_3 htype => exact hmodify (Or.inr (Or.inr htype))
  case h_4 =>
    rw [move]
    split
    case h_1 ptr _ =>
      split
      case h_1 newFilename _ =>
        split_ifs
        · have hinsert : Filled { m with
              internalTable := m.internalTable.insert newFilename
                (some ({ ptr with record := ptr.record.rename newFilename })) } :=
            h.insert _ _ rfl
          exact hinsert.erase _ rfl
        · exact h.erase _ rfl
        · exact h
      case h_2 => exact h
    case h_2 => exact h
    case h_3 => exact h
  case h_5 =>
    rw [remove]
    split
    · exact h.erase _ rfl
    · exact h
    · exact h
  case h_6 => exact h

/-- **A flush keeps the table filled**, and dereferences no null pointer. -/
theorem Filled.flush (h : m.Filled) : m.flush.monitor.Filled ∧ m.flush.outcome = .done := by
  rw [TailMonitor.flush]
  generalize hout : (⟨m, [], .done⟩ : Result) = out
  have hstart : out.monitor.Filled ∧ out.outcome = .done := by
    rw [← hout]
    exact ⟨h, rfl⟩
  clear hout
  generalize m.internalTable.keys = keys
  induction keys generalizing out with
  | nil => exact hstart
  | cons k keys ih =>
    refine ih _ ?_
    obtain ⟨hfilled, hdone⟩ := hstart
    dsimp only
    split
    case h_1 => exact ⟨hfilled.insert _ _ rfl, rfl⟩
    case h_2 hnone => exact absurd hnone (hfilled k)
    case h_3 => exact ⟨hfilled, hdone⟩

/-- An operation on the table: an event of the queue, handled with what is then
seen of the file system and of the saved positions, or a flush of the timer
thread. -/
inductive TableOp where
  | event (fs : FileSystem) (savedPosition : String → Int) (e : Event) : TableOp
  | flush : TableOp

/-- What an operation does. -/
def TableOp.apply (m : TailMonitor) : TableOp → Result
  | .event fs savedPosition e => m.handle fs savedPosition e
  | .flush => m.flush

/-- The monitor after an operation. An exception ends one thread, and the others
go on. -/
def TableOp.next (m : TailMonitor) (op : TableOp) : TailMonitor := (op.apply m).monitor

/-- The operation calls `createRecord`, and that throws. -/
def TableOp.CreationFails (m : TailMonitor) : TableOp → Prop
  | .event fs _ e => m.CreationFails fs e
  | .flush => False

/-- **A step that does no harm**: if `createRecord` throws, the table is as it was;
afterwards every entry holds a record, and no null pointer was dereferenced. -/
def TableOp.Unharmed (m : TailMonitor) (op : TableOp) : Prop :=
  (op.CreationFails m → (op.next m).internalTable = m.internalTable) ∧
    (op.next m).Filled ∧ (op.apply m).outcome ≠ .crashed

theorem filled_start (startMsgRegEx : Option DelimiterRegex) (mode : StateMode) :
    (start startMsgRegEx mode).Filled := by
  intro k
  simp [start]

/-- One step, from a filled table. -/
theorem TableOp.unharmed_iff {m : TailMonitor} (h : m.Filled) (op : TableOp) :
    op.Unharmed m ↔ ¬op.CreationFails m := by
  constructor
  · rintro ⟨htable, -, -⟩ hfails
    -- the empty entry it leaves is a change of the table
    cases op with
    | event fs savedPosition e => exact internalTable_ne_of_creationFails hfails (htable hfails)
    -- a flush makes no records
    | flush => exact hfails
  · intro hfails
    refine ⟨fun hc => absurd hc hfails, ?_, ?_⟩
    · cases op with
      | event fs savedPosition e => exact h.handle hfails
      | flush => exact h.flush.1
    · cases op with
      | event fs savedPosition e =>
        exact fun hc => h _ (outcome_handle.1.mp hc).2
      | flush =>
        have hdone : (TableOp.flush.apply m).outcome = .done := h.flush.2
        rw [hdone]
        simp

/-- **The table stays whole exactly while no creation fails.** Over every run of
operations from the start of a monitor, whatever each of them sees of the file
system: failing creations leave the table as it was, every entry holds a record
and no null pointer is dereferenced, in every step, if and only if in no step
`createRecord` throws. -/
theorem table_unharmed_iff (startMsgRegEx : Option DelimiterRegex) (mode : StateMode)
    (ops : List TableOp) :
    Machine.Along TableOp.next (fun m op => op.Unharmed m) (start startMsgRegEx mode) ops ↔
      Machine.Along TableOp.next (fun m op => ¬op.CreationFails m)
        (start startMsgRegEx mode) ops := by
  have hfilled := filled_start startMsgRegEx mode
  constructor
  · intro h
    refine (Machine.Along.of_invariant Filled (fun m op hm hop => ?_) hfilled h).1
    exact ⟨(op.unharmed_iff hm).mp hop, hop.2.1⟩
  · intro h
    refine (Machine.Along.of_invariant Filled (fun m op hm hop => ?_) hfilled h).1
    have hunharmed := (op.unharmed_iff hm).mpr hop
    exact ⟨hunharmed, hunharmed.2.1⟩

/-- A log file that is gone when its event is handled, and an event of the same
name later on. -/
theorem vanished_file_leaves_entry :
    let gone : FileSystem :=
      { openFile _ := none, content _ := [], readSymlink _ := none, fdLink _ := none }
    let op : TableOp := .event gone (fun _ => 0) ⟨1, .modify, ⟨"/var/log/app.log", none⟩⟩
    let m := start none ⟨false, false, by decide⟩
    ¬Machine.Along TableOp.next (fun m op => op.Unharmed m) m [op, op] ∧
      (op.apply (op.next m)).outcome = .crashed := by
  intro gone op m
  have hfails : op.CreationFails m := ⟨Or.inr (Or.inr rfl), rfl, rfl⟩
  exact ⟨fun h => (op.unharmed_iff (filled_start none _)).mp h.1 hfails, rfl⟩

end Table

/-! ### The monitor thread -/

section Thread

/-- An event of a batch, with what is seen of the file system and of the saved
positions when it is handled. -/
structure QueuedEvent where
  event : Event
  fs : FileSystem
  savedPosition : String → Int

/-- What `run` does: the events it has begun to handle, in order, the monitor
afterwards, and how it ends. -/
structure BatchResult where
  handled : List Event
  monitor : TailMonitor
  outcome : Outcome

/-- The loop of `run` over the events it has dequeued. Nothing in it catches
exceptions. -/
def run : List QueuedEvent → TailMonitor → BatchResult
  | [], m => ⟨[], m, .done⟩
  | e :: batch, m =>
    let out := m.handle e.fs e.savedPosition e.event
    match out.outcome with
    | .done =>
      let rest := run batch out.monitor
      { rest with handled := e.event :: rest.handled }
    | outcome => ⟨[e.event], out.monitor, outcome⟩

/-- A monitor thread, over the batches it dequeues: the events it has begun to
handle, batch by batch, and whether it goes on. An exception is caught outside
the loop, and so it ends the thread. -/
def monitorThread : List (List QueuedEvent) → TailMonitor → List (List Event) × Bool
  | [], _ => ([], true)
  | batch :: batches, m =>
    let out := run batch m
    match out.outcome with
    | .done =>
      let rest := monitorThread batches out.monitor
      (out.handled :: rest.1, rest.2)
    | _ => ([out.handled], false)

/-- An event fails, in one way or another. -/
def QueuedEvent.Fails (m : TailMonitor) (e : QueuedEvent) : Prop :=
  m.CreationFails e.fs e.event ∨ m.LinkFails e.fs e.event ∨ m.RemovalFails e.fs e.event ∨
    m.EmptyEntry e.event

/-- The monitor after an event. -/
def QueuedEvent.next (m : TailMonitor) (e : QueuedEvent) : TailMonitor :=
  (m.handle e.fs e.savedPosition e.event).monitor

theorem outcome_eq_done_iff (m : TailMonitor) (e : QueuedEvent) :
    (m.handle e.fs e.savedPosition e.event).outcome = .done ↔ ¬e.Fails m := by
  obtain ⟨hcrashed, hthrown⟩ := @outcome_handle e.fs m e.event e.savedPosition
  rw [QueuedEvent.Fails, ← or_assoc (b := m.RemovalFails e.fs e.event),
    ← or_assoc, ← hthrown, ← hcrashed]
  cases (m.handle e.fs e.savedPosition e.event).outcome <;> simp

/-- **A batch is handled to its end exactly when none of its events fails.** -/
theorem run_eq (batch : List QueuedEvent) (m : TailMonitor) :
    (Machine.Along QueuedEvent.next (fun m e => ¬e.Fails m) m batch →
        run batch m = ⟨batch.map QueuedEvent.event, batch.foldl QueuedEvent.next m, .done⟩) ∧
      (¬Machine.Along QueuedEvent.next (fun m e => ¬e.Fails m) m batch →
        (run batch m).outcome ≠ .done) := by
  induction batch generalizing m with
  | nil => exact ⟨fun _ => rfl, fun h => absurd trivial h⟩
  | cons e batch ih =>
    obtain ⟨hall, hsome⟩ := ih (e.next m)
    by_cases he : e.Fails m
    · -- the loop is left at the event that fails, and the rest of the batch is lost
      have hdone := (outcome_eq_done_iff m e).not.mpr (not_not.mpr he)
      refine ⟨fun h => absurd he h.1, fun _ => ?_⟩
      rw [run]
      cases hout : (m.handle e.fs e.savedPosition e.event).outcome with
      | done => exact absurd hout hdone
      | thrown => simp
      | crashed => simp
    · have hdone := (outcome_eq_done_iff m e).mpr he
      have hrun : run (e :: batch) m =
          { run batch (e.next m) with handled := e.event :: (run batch (e.next m)).handled } := by
        rw [run, hdone]
        rfl
      rw [hrun]
      refine ⟨fun h => ?_, fun h => hsome fun hrest => h ⟨he, hrest⟩⟩
      rw [hall h.2]
      rfl

/-- **All events are handled exactly when none fails.** For every monitor and
every list of batches: the monitor thread handles all events of all batches, in
order and each once, and goes on, if and only if no event fails in the state it is
met in. -/
theorem all_handled_iff (m : TailMonitor) (batches : List (List QueuedEvent)) :
    monitorThread batches m = (batches.map (List.map QueuedEvent.event), true) ↔
      Machine.Along QueuedEvent.next (fun m e => ¬e.Fails m) m batches.flatten := by
  induction batches generalizing m with
  | nil => exact iff_of_true rfl trivial
  | cons batch batches ih =>
    obtain ⟨hall, hsome⟩ := run_eq batch m
    rw [List.flatten_cons, Machine.along_append]
    by_cases hbatch : Machine.Along QueuedEvent.next (fun m e => ¬e.Fails m) m batch
    · rw [monitorThread, hall hbatch, ← ih (batch.foldl QueuedEvent.next m)]
      simp [hbatch, Prod.ext_iff]
    · rw [monitorThread]
      refine iff_of_false ?_ fun h => hbatch h.1
      cases hout : (run batch m).outcome with
      | done => exact absurd hout (hsome hbatch)
      | thrown => simp
      | crashed => simp

/-- Two events of one batch, the first of a file that is gone, and a batch after
them. -/
theorem vanished_file_ends_thread :
    let fs : FileSystem :=
      { openFile f := if f = "/var/log/a.log" then none else some 3
        content _ := []
        readSymlink _ := none
        fdLink _ := none }
    let queued := fun f => (⟨⟨1, .create, ⟨f, none⟩⟩, fs, fun _ => 0⟩ : QueuedEvent)
    let batches := [[queued "/var/log/a.log", queued "/var/log/b.log"], [queued "/var/log/b.log"]]
    let m := start none ⟨false, false, by decide⟩
    monitorThread batches m ≠ (batches.map (List.map QueuedEvent.event), true) ∧
      monitorThread batches m = ([[(queued "/var/log/a.log").event]], false) := by
  intro fs queued batches m
  have heq : monitorThread batches m = ([[(queued "/var/log/a.log").event]], false) := by rfl
  refine ⟨?_, heq⟩
  rw [heq]
  decide

end Thread

end TailMonitor

end Tail

end IqLogger
