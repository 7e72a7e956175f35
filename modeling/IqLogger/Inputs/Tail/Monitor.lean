import IqLogger.Inputs.Tail.Record
import IqLogger.Lib.Tables

/-!
# The monitor

`TailMonitor` keeps a table of the records of the files it reads, under their
names, and handles the events of its queue: a file that was created or modified
is processed, and a record is made for it if there is none under its name; when a
file was moved away, its record is put under the name the file has now; when it
was deleted, its record is dropped.

A record is shared between the table and the methods that use it, but it is
under one key at a time, and so it is kept there by value, with a number that tells
it from every other record. Making a record can fail, as the file may be gone by
the time its event is handled: the entry is made first, so that it is left behind
with no record in it.

What the monitor sees of the file system is a parameter of each call
(`IqLogger.Tail.FileSystem`), and so are the positions that were saved.
-/

namespace IqLogger

namespace Tail

/-- What a monitor sees of the file system: a file opened by its name, the content
of an open file, where a symbolic link leads, and the link in `/proc/self/fd` of an
open file, unless reading it fails. Two more calls can throw: `std::filesystem::remove`
of the saved position of a name, and `std::filesystem::is_directory` of a path; unless
said otherwise they do not. -/
structure FileSystem where
  openFile : String → Option ℕ
  content : ℕ → Bytes
  readSymlink : String → Option String
  fdLink : ℕ → Option String
  eraseFails : String → Bool := fun _ => false
  statusFails : String → Bool := fun _ => false

namespace PointersTableInternalRecord

variable (r : PointersTableInternalRecord)

/-- `getCurrentFileName`, unless it throws. -/
def getCurrentFileName (fs : FileSystem) : Option String :=
  (fs.fdLink r.fileDescriptor).map fun path => if path ≠ "" then path else r.source.filename

/-- `rename`. -/
def rename (filename : String) : PointersTableInternalRecord :=
  { r with source := { r.source with filename := filename } }

end PointersTableInternalRecord

/-- `PointersTableInternalRecordPtr`: a record, and which one it is. -/
structure RecordPtr where
  id : ℕ
  record : PointersTableInternalRecord

/-- `PointersTableInternal`: records by file name. An entry without a record is a
null pointer. -/
abbrev PointersTableInternal := AList fun _ : String => Option RecordPtr

/-- `TailMonitor`. The number of records made so far is the number of the next. -/
structure TailMonitor where
  startMsgRegEx : Option DelimiterRegex
  mode : StateMode
  internalTable : PointersTableInternal
  created : ℕ

/-- What a monitor does besides changing its table. -/
inductive MonitorCall where
  /-- A record is made for an open file. -/
  | createRecord (id fileDescriptor : ℕ) : MonitorCall
  /-- A call of the record of an open file. -/
  | record (id fileDescriptor : ℕ) (call : Call) : MonitorCall
  /-- `SavePositionServer::erasePosition`. -/
  | erasePosition (filename : String) : MonitorCall
  /-- `InotifyServer::removeWatch`. -/
  | removeWatch (path : String) : MonitorCall
  deriving DecidableEq, Repr

/-- How a method ends. -/
inductive Outcome where
  | done : Outcome
  /-- An exception leaves the method. -/
  | thrown : Outcome
  /-- A null pointer is dereferenced. -/
  | crashed : Outcome
  deriving DecidableEq, Repr

/-- What a method of the monitor does. -/
structure Result where
  monitor : TailMonitor
  calls : List MonitorCall
  outcome : Outcome

/-- The calls of a record, as calls of its monitor. -/
def RecordPtr.calls (ptr : RecordPtr) (calls : List Call) : List MonitorCall :=
  calls.map (.record ptr.id ptr.record.fileDescriptor)

/-! ### What has been read -/

/-- The files a record was made for. -/
def opened (calls : List MonitorCall) : List ℕ :=
  calls.filterMap fun | .createRecord _ fileDescriptor => some fileDescriptor | _ => none

/-- The bytes of a file that were passed to `processBuffer`, by whichever record
of it. -/
def bytesRead (i : ℕ) (calls : List MonitorCall) : Bytes :=
  (buffers (calls.filterMap fun
    | .record _ fileDescriptor call => if fileDescriptor = i then some call else none
    | _ => none)).flatten

section Calls

variable (c d : List MonitorCall) (i id fileDescriptor : ℕ)

@[simp] theorem opened_append : opened (c ++ d) = opened c ++ opened d :=
  List.filterMap_append ..

@[simp] theorem opened_calls (ptr : RecordPtr) (cs : List Call) : opened (ptr.calls cs) = [] := by
  simp [RecordPtr.calls, opened]

@[simp] theorem opened_createRecord :
    opened [.createRecord id fileDescriptor] = [fileDescriptor] := rfl

@[simp] theorem bytesRead_append : bytesRead i (c ++ d) = bytesRead i c ++ bytesRead i d := by
  simp [bytesRead]

@[simp] theorem bytesRead_createRecord : bytesRead i [.createRecord id fileDescriptor] = [] := rfl

theorem bytesRead_calls (ptr : RecordPtr) (cs : List Call) :
    bytesRead i (ptr.calls cs) =
      if ptr.record.fileDescriptor = i then (buffers cs).flatten else [] := by
  by_cases h : ptr.record.fileDescriptor = i
  · rw [if_pos h, bytesRead, RecordPtr.calls, List.filterMap_map]
    congr 2
    simp [h]
  · rw [if_neg h, bytesRead, RecordPtr.calls, List.filterMap_map]
    simp [h]

end Calls

namespace TailMonitor

/-- The monitor when it starts. -/
def start (startMsgRegEx : Option DelimiterRegex) (mode : StateMode) : TailMonitor :=
  ⟨startMsgRegEx, mode, ∅, 0⟩

section Methods

variable (fs : FileSystem) (savedPosition : String → Int) (m : TailMonitor)

/-- `createRecord`, if the file can be opened. -/
def createRecord (source : TailSource) : Option RecordPtr :=
  (fs.openFile source.filename).map fun fileDescriptor =>
    ⟨m.created, .create source fileDescriptor m.startMsgRegEx m.mode
      (fs.readSymlink source.filename) (savedPosition source.filename)⟩

/-- `accessor->second->process()`, for the record under a name. -/
def processRecord (filename : String) (ptr : RecordPtr) : Result :=
  let out := ptr.record.process (fs.content ptr.record.fileDescriptor)
  { monitor := { m with
      internalTable := m.internalTable.insert filename (some { ptr with record := out.1 }) }
    calls := ptr.calls out.2
    outcome := .done }

/-- `modify`. -/
def modify (source : TailSource) : Result :=
  match m.internalTable.lookup source.filename with
  | some (some ptr) => m.processRecord fs source.filename ptr
  -- an entry whose record could not be made
  | some none => ⟨m, [], .crashed⟩
  | none =>
    match m.createRecord fs savedPosition source with
    | some ptr =>
      let out := { m with created := m.created + 1 }.processRecord fs source.filename ptr
      { out with calls := .createRecord ptr.id ptr.record.fileDescriptor :: out.calls }
    -- the entry was inserted before the file was opened, and it stays
    | none =>
      ⟨{ m with internalTable := m.internalTable.insert source.filename none }, [], .thrown⟩

/-- `create`. -/
def create (source : TailSource) : Result := m.modify fs savedPosition source

/-- `move`. -/
def move (source : TailSource) : Result :=
  match m.internalTable.lookup source.filename with
  | some (some ptr) =>
    match ptr.record.getCurrentFileName fs with
    | some newFilename =>
      if newFilename ≠ source.filename then
        let ptr := { ptr with record := ptr.record.rename newFilename }
        -- under a name that is taken the record is dropped
        let table :=
          if m.internalTable.lookup newFilename = none then
            m.internalTable.insert newFilename (some ptr)
          else m.internalTable
        ⟨{ m with internalTable := table.erase source.filename }, [], .done⟩
      else ⟨m, [], .done⟩
    | none => ⟨m, [], .thrown⟩
  | some none => ⟨m, [], .crashed⟩
  | none => ⟨m, [], .done⟩

/-- `remove`. The entry is gone by then, but `erasePosition` can throw, as it only
catches the failures of streams, and so can `removeWatch`, as it asks whether its path
is a directory. -/
def remove (source : TailSource) : Result :=
  match m.internalTable.lookup source.filename with
  | some (some ptr) =>
    { monitor := { m with internalTable := m.internalTable.erase source.filename }
      calls := .erasePosition source.filename ::
        (if fs.eraseFails source.filename then []
          else (ptr.record.symlinkPath.map .removeWatch).toList)
      outcome :=
        if fs.eraseFails source.filename || ptr.record.symlinkPath.any fs.statusFails then .thrown
        else .done }
  | some none => ⟨m, [], .crashed⟩
  | none => ⟨m, [], .done⟩

/-- `flush`: the records are flushed one after the other. -/
def flush : Result :=
  m.internalTable.keys.foldl (fun out k =>
      match out.outcome, out.monitor.internalTable.lookup k with
      | .done, some (some ptr) =>
        let flushed := ptr.record.flush
        { monitor := { out.monitor with
            internalTable :=
              out.monitor.internalTable.insert k (some { ptr with record := flushed.1 }) }
          calls := out.calls ++ ptr.calls flushed.2
          outcome := .done }
      | .done, some none => { out with outcome := .crashed }
      -- after a crash nothing more is done
      | _, _ => out)
    ⟨m, [], .done⟩

/-- The `switch` in `run`. -/
def handle (event : Event) : Result :=
  match event.eventType with
  | .init => m.create fs savedPosition event.source
  | .create => m.create fs savedPosition event.source
  | .modify => m.modify fs savedPosition event.source
  | .move => m.move fs event.source
  | .delete => m.remove fs event.source
  | .unknown => ⟨m, [], .done⟩

end Methods

/-! ### What the methods do to the table

Each method changes the entries of one name, or of two; `lookup` of the table
afterwards says which. -/

section Table

variable {fs : FileSystem} {savedPosition : String → Int} {m : TailMonitor} (source : TailSource)
  {ptr : RecordPtr} (k : String)

theorem lookup_processRecord (filename : String) (ptr : RecordPtr) :
    (m.processRecord fs filename ptr).monitor.internalTable.lookup k =
      if k = filename then
        some (some { ptr with
          record := (ptr.record.process (fs.content ptr.record.fileDescriptor)).1 })
      else m.internalTable.lookup k := by
  rw [processRecord, AList.lookup_insert_apply]

/-- `modify` with a record under the name. -/
theorem modify_of_lookup (h : m.internalTable.lookup source.filename = some (some ptr)) :
    m.modify fs savedPosition source = m.processRecord fs source.filename ptr := by
  rw [modify, h]

/-- `modify` with no entry under the name, when the file can be opened. -/
theorem modify_of_createRecord (h : m.internalTable.lookup source.filename = none)
    (hptr : m.createRecord fs savedPosition source = some ptr) :
    m.modify fs savedPosition source =
      { { m with created := m.created + 1 }.processRecord fs source.filename ptr with
        calls := .createRecord ptr.id ptr.record.fileDescriptor ::
          ptr.calls (ptr.record.process (fs.content ptr.record.fileDescriptor)).2 } := by
  rw [modify, h]
  simp only [hptr]
  rfl

/-- `move`, when the file has the same name again. -/
theorem move_of_same (h : m.internalTable.lookup source.filename = some (some ptr))
    (hname : ptr.record.getCurrentFileName fs = some source.filename) :
    m.move fs source = ⟨m, [], .done⟩ := by
  rw [move, h]
  simp [hname]

/-- `move`, when the file has another name: the record is put under that name if
there is no entry, and dropped if there is one. -/
theorem lookup_move (h : m.internalTable.lookup source.filename = some (some ptr))
    {newFilename : String} (hname : ptr.record.getCurrentFileName fs = some newFilename)
    (hne : newFilename ≠ source.filename) :
    (m.move fs source).monitor.internalTable.lookup k =
      if k = source.filename then none
      else if k = newFilename ∧ m.internalTable.lookup k = none then
        some (some { ptr with record := ptr.record.rename newFilename })
      else m.internalTable.lookup k := by
  rw [move, h]
  simp only [hname, hne, ne_eq, not_false_eq_true, if_true]
  rw [AList.lookup_erase_apply, AList.lookup_insert_if_none]

/-- `move` makes no calls, and changes nothing but the table. -/
theorem move_spec (h : m.internalTable.lookup source.filename = some (some ptr))
    {newFilename : String} (hname : ptr.record.getCurrentFileName fs = some newFilename) :
    (m.move fs source).calls = [] ∧ (m.move fs source).outcome = .done ∧
      (m.move fs source).monitor.mode = m.mode := by
  rw [move, h]
  simp only [hname]
  split_ifs <;> exact ⟨rfl, rfl, rfl⟩

/-- **No method changes the mode.** -/
theorem mode_handle (event : Event) :
    (m.handle fs savedPosition event).monitor.mode = m.mode := by
  have hmodify : (m.modify fs savedPosition event.source).monitor.mode = m.mode := by
    rw [modify]
    split
    · rfl
    · rfl
    · split <;> rfl
  rw [handle]
  split
  · exact hmodify
  · exact hmodify
  · exact hmodify
  · rw [move]
    split
    · split
      · split_ifs <;> rfl
      · rfl
    · rfl
    · rfl
  · rw [remove]
    split <;> rfl
  · rfl

theorem mode_flush : m.flush.monitor.mode = m.mode := by
  rw [flush]
  generalize hout : (⟨m, [], .done⟩ : Result) = out
  have hmode : out.monitor.mode = m.mode := by rw [← hout]
  clear hout
  generalize m.internalTable.keys = keys
  induction keys generalizing out with
  | nil => exact hmode
  | cons k keys ih =>
    refine ih _ ?_
    dsimp only
    split <;> exact hmode

end Table

end TailMonitor

end Tail

end IqLogger
