import IqLogger.Inputs.Tail.Monitor
import IqLogger.Lib.Run

/-!
# Saved positions

`SavePositionServer` keeps the positions of files over restarts. When the program
starts it loads them from a directory into a table, and empties the directory; from
then on positions are saved to the directory and erased from it, and new records
ask the table. So the positions live in three places: in the table, in the
directory, and in the records.

The table is never changed after the start
(`IqLogger.Tail.Daemon.savedPointersTable_run`): a position that was loaded for a
name outlives the file it was saved for. When that file was deleted or renamed away,
and there is a new one under its name, the record of the new file starts at the
position of the old one; the main result, `IqLogger.Tail.Daemon.new_file_read_iff`,
says when all of the new file is read all the same.
-/

namespace IqLogger

namespace Tail

/-- `SavePositionServer`: the table of the positions loaded at the start, and the
directory with a file for each position saved since. -/
structure SavePositionServer where
  savedPointersTable : AList fun _ : String => Int
  dataDir : AList fun _ : String => Int

/-- `getSavedPathByFileName`: the first character is dropped, and the separators
become dashes. -/
def getSavedPathByFileName (filename : String) : String :=
  String.ofList ((filename.toList.drop 1).map fun c => if c = '/' then '-' else c)

namespace SavePositionServer

variable (s : SavePositionServer)

/-- The loop body of `initImpl`: the position in a file of the directory is put in
the table, and the file removed. -/
def loadFile (name : String) : SavePositionServer where
  savedPointersTable :=
    if name ∈ s.savedPointersTable then s.savedPointersTable
    else s.savedPointersTable.insert name ((s.dataDir.lookup name).getD 0)
  dataDir := s.dataDir.erase name

/-- `initImpl`, when the directory holds some positions. -/
def init (dataDir : AList fun _ : String => Int) : SavePositionServer :=
  dataDir.keys.foldl loadFile ⟨∅, dataDir⟩

/-- `getSavedPosition`. -/
def getSavedPosition (filename : String) : Int :=
  (s.savedPointersTable.lookup (getSavedPathByFileName filename)).getD 0

/-- `savePosition`. -/
def savePosition (filename : String) (position : Int) : SavePositionServer :=
  { s with dataDir := s.dataDir.insert (getSavedPathByFileName filename) position }

/-- `erasePosition`. -/
def erasePosition (filename : String) : SavePositionServer :=
  { s with dataDir := s.dataDir.erase (getSavedPathByFileName filename) }

/-- What a call of the monitor does to the server, when the positions of some names
cannot be erased. -/
def perform (eraseFails : String → Bool) (s : SavePositionServer) :
    MonitorCall → SavePositionServer
  | .record _ _ (.savePosition filename position) => s.savePosition filename position
  | .erasePosition filename => if eraseFails filename then s else s.erasePosition filename
  | _ => s

/-- **No call changes the table.** -/
theorem savedPointersTable_perform (eraseFails : String → Bool) (call : MonitorCall) :
    (s.perform eraseFails call).savedPointersTable = s.savedPointersTable := by
  rcases call with _ | ⟨_, _, _ | _ | _⟩ | filename | _
  case erasePosition =>
    rw [perform]
    split_ifs <;> rfl
  all_goals rfl

theorem savedPointersTable_foldl (eraseFails : String → Bool) (calls : List MonitorCall) :
    (calls.foldl (perform eraseFails) s).savedPointersTable = s.savedPointersTable := by
  induction calls generalizing s with
  | nil => rfl
  | cons call calls ih => rw [List.foldl_cons, ih, savedPointersTable_perform]

end SavePositionServer

/-! ### The monitor and the server -/

/-- A monitor with the positions it saves, and how its threads are: `thrown` when
an exception has ended the monitor thread, `crashed` when the program has ended. -/
structure Daemon where
  monitor : TailMonitor
  positions : SavePositionServer
  status : Outcome

/-- What happens to a monitor, with the file system it finds: an event, or the
timer that flushes its records. -/
inductive DaemonOp where
  | event (fs : FileSystem) (event : Event) : DaemonOp
  | flush : DaemonOp

namespace Daemon

/-- A monitor that starts with the positions in a directory. -/
def start (startMsgRegEx : Option DelimiterRegex) (mode : StateMode)
    (dataDir : AList fun _ : String => Int) : Daemon :=
  ⟨.start startMsgRegEx mode, .init dataDir, .done⟩

/-- A method of the monitor has ended. -/
def finish (d : Daemon) (eraseFails : String → Bool) (out : Result) (status : Outcome) :
    Daemon × List MonitorCall :=
  (⟨out.monitor, out.calls.foldl (SavePositionServer.perform eraseFails) d.positions, status⟩,
    out.calls)

/-- One step. -/
def step (d : Daemon) : DaemonOp → Daemon × List MonitorCall
  | .event fs event =>
    if d.status = .done then
      let out := d.monitor.handle fs d.positions.getSavedPosition event
      d.finish fs.eraseFails out out.outcome
    else (d, [])
  | .flush =>
    if d.status ≠ .crashed then
      let out := d.monitor.flush
      -- a flush erases no positions
      d.finish (fun _ => false) out (if out.outcome = .crashed then .crashed else d.status)
    else (d, [])

/-- **One step changes neither the table of positions nor the mode.** -/
theorem step_spec (d : Daemon) (op : DaemonOp) :
    (d.step op).1.positions.savedPointersTable = d.positions.savedPointersTable ∧
      (d.step op).1.monitor.mode = d.monitor.mode := by
  cases op with
  | event fs event =>
    rw [step]
    split_ifs
    · exact ⟨SavePositionServer.savedPointersTable_foldl .., TailMonitor.mode_handle ..⟩
    · exact ⟨rfl, rfl⟩
  | flush =>
    rw [step]
    split_ifs
    · exact ⟨SavePositionServer.savedPointersTable_foldl .., TailMonitor.mode_flush⟩
    · exact ⟨rfl, rfl⟩

/-- **The table of a run is the one loaded at the start**, and its mode the
configured one. -/
theorem savedPointersTable_run (startMsgRegEx : Option DelimiterRegex) (mode : StateMode)
    (dataDir : AList fun _ : String => Int) (ops : List DaemonOp) :
    let d := (Machine.run step (start startMsgRegEx mode dataDir) ops).1
    d.positions.savedPointersTable = (SavePositionServer.init dataDir).savedPointersTable ∧
      d.monitor.mode = mode := by
  refine Machine.run_induction (P := fun _ (d : Daemon) _ => d.positions.savedPointersTable =
    (SavePositionServer.init dataDir).savedPointersTable ∧ d.monitor.mode = mode) ⟨rfl, rfl⟩ ?_ ops
  intro _ op d _ ⟨htable, hmode⟩
  obtain ⟨htable', hmode'⟩ := d.step_spec op
  exact ⟨htable'.trans htable, hmode'.trans hmode⟩

/-- **When a new file is read from its beginning.** Let an event of a file find no
entry under its name, as after the file that had the name before was deleted or
renamed away. The record that is made, or rather its first `process`, passes all of
the file to `processBuffer` if and only if the file is empty, or it is no symbolic
link and the position loaded for the name at the start is its beginning or lies
beyond its end. -/
theorem new_file_read_iff (startMsgRegEx : Option DelimiterRegex) (mode : StateMode)
    (hmode : mode.saveState = true) (dataDir : AList fun _ : String => Int)
    (ops : List DaemonOp) (fs : FileSystem) (event : Event) (i : ℕ)
    (htype : event.eventType = .init ∨ event.eventType = .create ∨ event.eventType = .modify)
    (hopen : fs.openFile event.source.filename = some i) :
    let d := (Machine.run step (start startMsgRegEx mode dataDir) ops).1
    let saved := (SavePositionServer.init dataDir).getSavedPosition event.source.filename
    d.status = .done → d.monitor.internalTable.lookup event.source.filename = none →
      (bytesRead i (d.step (.event fs event)).2 = fs.content i ↔
        fs.content i = [] ∨ fs.readSymlink event.source.filename = none ∧
          (saved = 0 ∨ (fs.content i).length < saved)) := by
  intro d saved hstatus hfree
  -- however long the run was, the position is looked up in the table of the start
  obtain ⟨htable, hd⟩ := savedPointersTable_run startMsgRegEx mode dataDir ops
  have hsaved : d.positions.getSavedPosition event.source.filename = saved := by
    rw [SavePositionServer.getSavedPosition, htable]
    rfl
  have hmode' : d.monitor.mode.saveState = true := by
    rw [hd]
    exact hmode
  obtain ⟨ptr, hptr⟩ : ∃ ptr,
      d.monitor.createRecord fs d.positions.getSavedPosition event.source = some ptr :=
    ⟨_, congrArg (Option.map _) hopen⟩
  have hrecord : ptr.record = .create event.source i d.monitor.startMsgRegEx d.monitor.mode
      (fs.readSymlink event.source.filename) saved := by
    rw [TailMonitor.createRecord, hopen, hsaved] at hptr
    rw [← Option.some.inj hptr]
  have hfd : ptr.record.fileDescriptor = i := by rw [hrecord, PointersTableInternalRecord.create]
  -- the event makes the record and processes it
  have hcalls : (d.step (.event fs event)).2 =
      [.createRecord ptr.id i] ++ ptr.calls (ptr.record.process (fs.content i)).2 := by
    have hhandle : d.monitor.handle fs d.positions.getSavedPosition event =
        d.monitor.modify fs d.positions.getSavedPosition event.source := by
      rw [TailMonitor.handle]
      rcases htype with h | h | h <;> rw [h] <;> rfl
    rw [step, if_pos hstatus, hhandle, TailMonitor.modify_of_createRecord event.source hfree hptr,
      hfd]
    rfl
  rw [hcalls, bytesRead_append, bytesRead_createRecord, bytesRead_calls, if_pos hfd,
    List.nil_append, hrecord]
  exact PointersTableInternalRecord.buffers_process_create _ _ _ hmode' _ _ _

/-- The modes of an input that saves its state. -/
def savingMode : StateMode := ⟨false, true, by simp⟩

/-- A file system with one file. -/
def oneFile (f : String) (i : ℕ) (content : Bytes) : FileSystem where
  openFile filename := if filename = f then some i else none
  content j := if j = i then content else []
  readSymlink _ := none
  fdLink j := if j = i then some f else none

/-- A file was read up to its third byte, is read on, and is deleted; the new file
under its name is shorter than that. -/
theorem new_file_read_short :
    bytesRead 1 ((Machine.run step
        (start none savingMode ((∅ : AList fun _ : String => Int).insert "v-a" 3))
        [.event (oneFile "/v/a" 0 (ascii "a\nb\n")) ⟨1, .init, ⟨"/v/a", none⟩⟩,
          .event (oneFile "/v/b" 0 []) ⟨1, .delete, ⟨"/v/a", none⟩⟩]).1.step
      (.event (oneFile "/v/a" 1 (ascii "c\n")) ⟨1, .create, ⟨"/v/a", none⟩⟩)).2 = ascii "c\n" :=
  (new_file_read_iff none savingMode rfl _ _ (oneFile "/v/a" 1 (ascii "c\n"))
    ⟨1, .create, ⟨"/v/a", none⟩⟩ 1 (Or.inr (Or.inl rfl)) rfl (by decide +kernel)
    (by decide +kernel)).mpr (by decide +kernel)

/-- **A new file is not read from its beginning** when it has grown past the
position that was loaded for the file that had its name before. -/
theorem new_file_not_read :
    ¬∀ (mode : StateMode) (dataDir : AList fun _ : String => Int) (ops : List DaemonOp)
      (fs fs' : FileSystem) (f : String) (i : ℕ), mode.saveState = true →
      let d := (Machine.run step (start none mode dataDir)
        (ops ++ [.event fs ⟨1, .delete, ⟨f, none⟩⟩])).1
      d.status = .done → d.monitor.internalTable.lookup f = none → fs'.openFile f = some i →
      fs'.readSymlink f = none →
      bytesRead i (d.step (.event fs' ⟨1, .create, ⟨f, none⟩⟩)).2 = fs'.content i := by
  intro h
  have h := h savingMode ((∅ : AList fun _ : String => Int).insert "v-a" 3)
    [.event (oneFile "/v/a" 0 (ascii "a\nb\n")) ⟨1, .init, ⟨"/v/a", none⟩⟩] (oneFile "/v/b" 0 [])
    (oneFile "/v/a" 1 (ascii "c\nd\n")) "/v/a" 1 rfl (by decide +kernel) (by decide +kernel) rfl rfl
  revert h
  decide +kernel

end Daemon

end Tail

end IqLogger
