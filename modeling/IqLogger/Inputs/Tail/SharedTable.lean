import IqLogger.Inputs.Tail.EventFailures
import IqLogger.Inputs.Tail.Positions

/-!
# The table with its pointers

The entries of the table of `TailMonitor` are shared pointers, and `move` works on the
record before it touches the table: the record is given its new name in place, the new
entry gets a second reference to it, and only then is the old entry erased. Here the
records are kept apart from the table, as the objects the entries refer to
(`IqLogger.Tail.SharedMonitor`), so that a record under two names would be one record,
and a change made under one name would be seen under the other.

It never comes to that: a record carries the name of its entry
(`IqLogger.Tail.SharedMonitor.Keyed`), and so no two entries can share one
(`IqLogger.Tail.SharedMonitor.Keyed.eq_of_id_eq`). Each method is described by the entries
it changes (`IqLogger.Tail.SharedMonitor.entry_move` and the like). From there follow that
the invariant survives (`IqLogger.Tail.SharedMonitor.Keyed.handle`), and that nothing is
lost by keeping the records in the table by value, as the other modules do
(`IqLogger.Tail.SharedMonitor.handle_represents`).
-/

namespace IqLogger

namespace Tail

/-- `TailMonitor`: an entry of the table refers to a record by its number, or is a null
pointer. The records are all that have been made, in that order. -/
structure SharedMonitor where
  startMsgRegEx : Option DelimiterRegex
  mode : StateMode
  internalTable : AList fun _ : String => Option ℕ
  records : List PointersTableInternalRecord

/-- What a method of the monitor does. -/
structure SharedResult where
  monitor : SharedMonitor
  calls : List MonitorCall
  outcome : Outcome

/-- An event, with what the monitor sees of the file system and of the saved positions
while it handles it. -/
structure Occasion where
  fs : FileSystem
  savedPosition : String → Int
  event : Event

namespace PointersTableInternalRecord

variable (r : PointersTableInternalRecord)

/-- Reading does not touch the name, and saves no position. -/
theorem readLoop_source (content : Bytes) (added get totalRead : ℕ)
    (r : PointersTableInternalRecord) :
    (r.readLoop content added get totalRead).1.source = r.source ∧
      saved (r.readLoop content added get totalRead).2 = [] := by
  fun_induction readLoop content added get totalRead r with
  | case1 => exact ⟨rfl, rfl⟩
  | case2 get totalRead r hlt needRead read actualRead hpos out r' rest ih =>
    obtain ⟨hsame, -, -, ms, hms⟩ := r.processBuffer_spec read
    obtain ⟨hsource, hsaved⟩ := ih
    refine ⟨hsource.trans hsame.source, ?_⟩
    change saved (.processBuffer read :: ((r.processBuffer read).2 ++ rest.2)) = []
    rw [saved_cons_processBuffer, saved_append, hms, saved_map]
    exact hsaved
  | case3 => exact ⟨rfl, rfl⟩

/-- A position is saved under the name of the record. -/
theorem eq_filename_of_mem_savePosition {save : String × Int} (h : save ∈ saved r.savePosition) :
    save.1 = r.source.filename := by
  rw [savePosition] at h
  split_ifs at h
  · rw [List.mem_singleton.mp h]
  · cases h

/-- **`process` keeps the name**, and saves the position under it. -/
theorem process_source (content : Bytes) :
    (r.process content).1.source = r.source ∧
      ∀ save ∈ saved (r.process content).2, save.1 = r.source.filename := by
  rw [process]
  split_ifs with hlink hfail
  · exact ⟨rfl, fun save hsave => by cases hsave⟩
  · exact ⟨rfl, fun save hsave => by cases hsave⟩
  · generalize hr : (if (content.length : Int) < r.fileCurrentPosition then
      { r with fileCurrentPosition := 0 } else r) = r₀
    have hsource : r₀.source = r.source := by
      rw [← hr]
      split_ifs <;> rfl
    dsimp only
    rw [hr, ← hsource]
    split_ifs
    · exact ⟨rfl, fun save hsave => by cases hsave⟩
    · obtain ⟨hread, hsaved⟩ := readLoop_source content
        (content.length - r₀.fileCurrentPosition).toNat
        (content.length - (content.length - r₀.fileCurrentPosition).toNat) 0 r₀
      refine ⟨hread, fun save hsave => ?_⟩
      rw [saved_append, hsaved, List.nil_append] at hsave
      rw [eq_filename_of_mem_savePosition _ hsave, hread]
    · exact ⟨rfl, fun save hsave => eq_filename_of_mem_savePosition _ hsave⟩
    · exact ⟨rfl, fun save hsave => eq_filename_of_mem_savePosition _ hsave⟩

/-- `flush` keeps the name, and saves the position under it. -/
theorem flush_source :
    r.flush.1.source = r.source ∧ ∀ save ∈ saved r.flush.2, save.1 = r.source.filename := by
  rw [flush]
  split_ifs with hbuffer
  · refine ⟨rfl, fun save hsave => ?_⟩
    rw [saved_cons_processMessage] at hsave
    exact eq_filename_of_mem_savePosition
      { r with buffer := [], nothingPending := fun _ => rfl } hsave
  · exact ⟨rfl, fun save hsave => by cases hsave⟩

end PointersTableInternalRecord

namespace SharedMonitor

/-- The monitor when it starts. -/
def start (startMsgRegEx : Option DelimiterRegex) (mode : StateMode) : SharedMonitor :=
  ⟨startMsgRegEx, mode, ∅, []⟩

section Methods

variable (fs : FileSystem) (savedPosition : String → Int) (m : SharedMonitor)

/-- `createRecord`, if the file can be opened. -/
def createRecord (source : TailSource) : Option PointersTableInternalRecord :=
  (fs.openFile source.filename).map fun fileDescriptor =>
    .create source fileDescriptor m.startMsgRegEx m.mode (fs.readSymlink source.filename)
      (savedPosition source.filename)

/-- `accessor->second->process()`. -/
def processRecord (id : ℕ) : SharedResult :=
  match m.records[id]? with
  | some r =>
    let out := r.process (fs.content r.fileDescriptor)
    { monitor := { m with records := m.records.set id out.1 }
      calls := out.2.map (.record id r.fileDescriptor)
      outcome := .done }
  -- no pointer dangles
  | none => ⟨m, [], .crashed⟩

/-- `modify`. -/
def modify (source : TailSource) : SharedResult :=
  match m.internalTable.lookup source.filename with
  | some (some id) => m.processRecord fs id
  | some none => ⟨m, [], .crashed⟩
  | none =>
    match m.createRecord fs savedPosition source with
    | some r =>
      let id := m.records.length
      let out := { m with
        internalTable := m.internalTable.insert source.filename (some id)
        records := m.records ++ [r] }.processRecord fs id
      { out with calls := .createRecord id r.fileDescriptor :: out.calls }
    | none =>
      ⟨{ m with internalTable := m.internalTable.insert source.filename none }, [], .thrown⟩

/-- `create`. -/
def create (source : TailSource) : SharedResult := m.modify fs savedPosition source

/-- `move`. -/
def move (source : TailSource) : SharedResult :=
  match m.internalTable.lookup source.filename with
  | some (some id) =>
    match m.records[id]? with
    | some r =>
      match r.getCurrentFileName fs with
      | some newFilename =>
        if newFilename ≠ source.filename then
          -- the record is renamed, whether there is an entry for it or not
          let records := m.records.set id (r.rename newFilename)
          let table :=
            if m.internalTable.lookup newFilename = none then
              m.internalTable.insert newFilename (some id)
            else m.internalTable
          ⟨{ m with internalTable := table.erase source.filename, records := records }, [], .done⟩
        else ⟨m, [], .done⟩
      | none => ⟨m, [], .thrown⟩
    | none => ⟨m, [], .crashed⟩
  | some none => ⟨m, [], .crashed⟩
  | none => ⟨m, [], .done⟩

/-- `remove`, which throws when one of its calls does. -/
def remove (source : TailSource) : SharedResult :=
  match m.internalTable.lookup source.filename with
  | some (some id) =>
    match m.records[id]? with
    | some r =>
      { monitor := { m with internalTable := m.internalTable.erase source.filename }
        calls := .erasePosition source.filename ::
          (if fs.eraseFails source.filename then []
            else (r.symlinkPath.map .removeWatch).toList)
        outcome :=
          if fs.eraseFails source.filename || r.symlinkPath.any fs.statusFails then .thrown
          else .done }
    | none => ⟨m, [], .crashed⟩
  | some none => ⟨m, [], .crashed⟩
  | none => ⟨m, [], .done⟩

/-- The `switch` in `run`. -/
def handle (occasion : Occasion) : SharedResult :=
  match occasion.event.eventType with
  | .init => m.create occasion.fs occasion.savedPosition occasion.event.source
  | .create => m.create occasion.fs occasion.savedPosition occasion.event.source
  | .modify => m.modify occasion.fs occasion.savedPosition occasion.event.source
  | .move => m.move occasion.fs occasion.event.source
  | .delete => m.remove occasion.fs occasion.event.source
  | .unknown => ⟨m, [], .done⟩

/-- The monitor after an event. -/
def next (occasion : Occasion) : SharedMonitor := (m.handle occasion).monitor

end Methods

/-! ### Entries -/

/-- The entry of a name, with the record it refers to. -/
def entry (m : SharedMonitor) (filename : String) : Option (Option RecordPtr) :=
  (m.internalTable.lookup filename).map fun pointer =>
    pointer.bind fun id => (m.records[id]?).map fun record => ⟨id, record⟩

/-- **Every record carries the name of its entry**, and no pointer dangles. -/
structure Keyed (m : SharedMonitor) : Prop where
  filename : ∀ k ptr, m.entry k = some (some ptr) → ptr.record.source.filename = k
  live : ∀ k id, m.internalTable.lookup k = some (some id) → id < m.records.length

section Entries

variable {m : SharedMonitor} {k k' : String} {ptr ptr' : RecordPtr}

theorem entry_eq_some_some : m.entry k = some (some ptr) ↔
    m.internalTable.lookup k = some (some ptr.id) ∧ m.records[ptr.id]? = some ptr.record := by
  rw [entry, Option.map_eq_some_iff]
  constructor
  · rintro ⟨pointer, hlook, hptr⟩
    obtain ⟨id, rfl, hptr⟩ := Option.bind_eq_some_iff.mp hptr
    obtain ⟨r, hr, rfl⟩ := Option.map_eq_some_iff.mp hptr
    exact ⟨hlook, hr⟩
  · rintro ⟨hlook, hr⟩
    exact ⟨_, hlook, by rw [Option.bind_some, hr, Option.map_some]⟩

theorem entry_eq_none : m.entry k = none ↔ m.internalTable.lookup k = none := Option.map_eq_none_iff

/-- An entry that is there refers to a record, or is a null pointer. -/
theorem Keyed.lookup_of_entry (h : m.Keyed) : m.entry k = some none ↔
    m.internalTable.lookup k = some none := by
  rw [entry, Option.map_eq_some_iff]
  constructor
  · rintro ⟨pointer, hlook, hnone⟩
    cases pointer with
    | none => exact hlook
    | some id =>
      rw [Option.bind_some, Option.map_eq_none_iff, List.getElem?_eq_none_iff] at hnone
      exact absurd (h.live k id hlook) (Nat.not_lt.mpr hnone)
  · exact fun hlook => ⟨none, hlook, rfl⟩

/-- **No record is under two names**: it carries only one. -/
theorem Keyed.eq_of_id_eq (h : m.Keyed) (hk : m.entry k = some (some ptr))
    (hk' : m.entry k' = some (some ptr')) (hid : ptr.id = ptr'.id) : k = k' := by
  have hr := (entry_eq_some_some.mp hk).2
  have hr' := (entry_eq_some_some.mp hk').2
  rw [hid, hr'] at hr
  rw [← h.filename k ptr hk, ← h.filename k' ptr' hk', Option.some.inj hr]

/-- A record is changed in place: only the entry that refers to it is another. -/
theorem Keyed.entry_set (h : m.Keyed) {f : String} (hf : m.entry f = some (some ptr))
    (r : PointersTableInternalRecord) (k : String) :
    entry { m with records := m.records.set ptr.id r } k =
      if k = f then some (some ⟨ptr.id, r⟩) else m.entry k := by
  obtain ⟨hlook, hr⟩ := entry_eq_some_some.mp hf
  have hlt : ptr.id < m.records.length := h.live f ptr.id hlook
  by_cases hk : k = f
  · subst hk
    rw [if_pos rfl]
    exact entry_eq_some_some.mpr ⟨hlook, List.getElem?_set_self hlt⟩
  · rw [if_neg hk]
    cases hother : m.internalTable.lookup k with
    | none => simp [entry, hother]
    | some pointer =>
      cases pointer with
      | none => simp [entry, hother]
      | some id =>
        have hid : ptr.id ≠ id := by
          rintro rfl
          exact hk (h.eq_of_id_eq (entry_eq_some_some.mpr ⟨hother, hr⟩) hf rfl)
        simp only [entry, hother, Option.map_some, Option.bind_some, List.getElem?_set_ne hid]

/-- A record is made for a name that has no entry. -/
theorem Keyed.entry_insert (h : m.Keyed) (f : String) (r : PointersTableInternalRecord)
    (k : String) :
    entry { m with
        internalTable := m.internalTable.insert f (some m.records.length)
        records := m.records ++ [r] } k =
      if k = f then some (some ⟨m.records.length, r⟩) else m.entry k := by
  by_cases hk : k = f
  · subst hk
    rw [if_pos rfl]
    exact entry_eq_some_some.mpr ⟨AList.lookup_insert _, List.getElem?_concat_length⟩
  · rw [if_neg hk, entry, entry, AList.lookup_insert_ne hk]
    cases hother : m.internalTable.lookup k with
    | none => rfl
    | some pointer =>
      cases pointer with
      | none => rfl
      | some id =>
        simp only [Option.map_some, Option.bind_some,
          List.getElem?_append_left (h.live k id hother)]

end Entries

/-! ### What the methods do to the entries -/

section Changes

variable {fs : FileSystem} {savedPosition : String → Int} {m : SharedMonitor}
  (source : TailSource) {ptr : RecordPtr} (k : String)

/-- A record after `process`. -/
def processed (fs : FileSystem) (ptr : RecordPtr) : RecordPtr :=
  { ptr with record := (ptr.record.process (fs.content ptr.record.fileDescriptor)).1 }

theorem Keyed.entry_processRecord (h : m.Keyed) (fs : FileSystem) {f : String}
    (hf : m.entry f = some (some ptr)) :
    (m.processRecord fs ptr.id).monitor.entry k =
      if k = f then some (some (processed fs ptr)) else m.entry k := by
  rw [processRecord, (entry_eq_some_some.mp hf).2]
  exact h.entry_set hf _ k

/-- `modify` with a record under the name. -/
theorem modify_of_entry (h : m.entry source.filename = some (some ptr)) :
    m.modify fs savedPosition source = m.processRecord fs ptr.id := by
  rw [modify, (entry_eq_some_some.mp h).1]

/-- `move` to another name, by what it does to the table and to the records. -/
theorem move_spec_of_entry (hf : m.entry source.filename = some (some ptr))
    {newFilename : String} (hname : ptr.record.getCurrentFileName fs = some newFilename)
    (hne : newFilename ≠ source.filename) :
    (m.move fs source).monitor.records = m.records.set ptr.id (ptr.record.rename newFilename) ∧
      (m.move fs source).monitor.internalTable.lookup k =
        if k = source.filename then none
        else if k = newFilename ∧ m.internalTable.lookup k = none then some (some ptr.id)
        else m.internalTable.lookup k := by
  obtain ⟨hlook, hr⟩ := entry_eq_some_some.mp hf
  rw [move, hlook]
  simp only [hr, hname, hne, ne_eq, not_false_eq_true, if_true, true_and]
  rw [AList.lookup_erase_apply, AList.lookup_insert_if_none]

/-- **`move` to another name**: the record is put under that name if there is no entry,
and dropped if there is one. All other entries stay as they are, records included. -/
theorem Keyed.entry_move (h : m.Keyed) (hf : m.entry source.filename = some (some ptr))
    {newFilename : String} (hname : ptr.record.getCurrentFileName fs = some newFilename)
    (hne : newFilename ≠ source.filename) :
    (m.move fs source).monitor.entry k =
      if k = source.filename then none
      else if k = newFilename ∧ m.entry k = none then
        some (some { ptr with record := ptr.record.rename newFilename })
      else m.entry k := by
  have hset := h.entry_set hf (ptr.record.rename newFilename) k
  obtain ⟨hrecords, hlook⟩ := move_spec_of_entry source k hf hname hne
  simp only [entry_eq_none]
  rw [entry, hrecords, hlook]
  split_ifs with hk hnew
  · rfl
  · have hlt := h.live _ _ (entry_eq_some_some.mp hf).1
    rw [Option.map_some, Option.bind_some, List.getElem?_set_self hlt, Option.map_some]
  · rw [if_neg hk] at hset
    exact hset

theorem entry_remove (hf : m.entry source.filename = some (some ptr)) :
    (m.remove fs source).monitor.entry k = if k = source.filename then none else m.entry k := by
  obtain ⟨hlook, hr⟩ := entry_eq_some_some.mp hf
  rw [remove, hlook]
  simp only [hr]
  by_cases hk : k = source.filename
  · rw [if_pos hk, entry_eq_none, hk]
    exact AList.lookup_erase ..
  · rw [if_neg hk, entry, AList.lookup_erase_ne hk]
    rfl

end Changes

/-! ### The invariant -/

section Invariant

variable {fs : FileSystem} {savedPosition : String → Int} {m m' : SharedMonitor}

/-- The invariant is about the entries that hold a record. -/
theorem Keyed.of_entry (hfilename : ∀ k ptr, m'.entry k = some (some ptr) →
      ptr.record.source.filename = k ∨ m.entry k = some (some ptr)) (h : m.Keyed)
    (hlive : ∀ k id, m'.internalTable.lookup k = some (some id) → id < m'.records.length) :
    m'.Keyed := by
  refine ⟨fun k ptr hk => ?_, hlive⟩
  rcases hfilename k ptr hk with hname | hold
  · exact hname
  · exact h.filename k ptr hold

theorem Keyed.processRecord (h : m.Keyed) {f : String} {ptr : RecordPtr}
    (hf : m.entry f = some (some ptr)) : (m.processRecord fs ptr.id).monitor.Keyed := by
  refine h.of_entry (fun k ptr' hk => ?_) ?_
  · rw [h.entry_processRecord k fs hf] at hk
    split_ifs at hk with heq
    · obtain rfl := Option.some.inj (Option.some.inj hk)
      refine .inl ?_
      rw [heq, ← h.filename f ptr hf]
      exact congrArg TailSource.filename (ptr.record.process_source _).1
    · exact .inr hk
  · intro k id hk
    rw [SharedMonitor.processRecord, (entry_eq_some_some.mp hf).2] at hk ⊢
    rw [List.length_set]
    exact h.live k id hk

/-- A record is made. -/
theorem Keyed.insert (h : m.Keyed) {f : String} {r : PointersTableInternalRecord}
    (hr : r.source.filename = f) :
    Keyed { m with
      internalTable := m.internalTable.insert f (some m.records.length)
      records := m.records ++ [r] } := by
  refine h.of_entry (fun k ptr hk => ?_) ?_
  · rw [h.entry_insert f r k] at hk
    split_ifs at hk with heq
    · obtain rfl := Option.some.inj (Option.some.inj hk)
      exact .inl (hr.trans heq.symm)
    · exact .inr hk
  · intro k id hk
    rw [List.length_append, List.length_singleton]
    rcases AList.lookup_insert_eq_some.mp hk with ⟨-, hid⟩ | ⟨-, hk⟩
    · obtain rfl := Option.some.inj hid
      exact Nat.lt_succ_self _
    · exact Nat.lt_succ_of_lt (h.live k id hk)

/-- A record is not made. -/
theorem entry_insert_none (f k : String) :
    entry { m with internalTable := m.internalTable.insert f none } k =
      if k = f then some none else m.entry k := by
  rw [entry, AList.lookup_insert_apply]
  split_ifs
  · rfl
  · rfl

theorem Keyed.insert_none (h : m.Keyed) (f : String) :
    Keyed { m with internalTable := m.internalTable.insert f none } := by
  refine h.of_entry (fun k ptr hk => ?_) ?_
  · rw [entry_insert_none] at hk
    split_ifs at hk with heq
    · cases hk
    · exact .inr hk
  · intro k id hk
    rcases AList.lookup_insert_eq_some.mp hk with ⟨-, hid⟩ | ⟨-, hk⟩
    · cases hid
    · exact h.live k id hk

theorem createRecord_filename {source : TailSource} {r : PointersTableInternalRecord}
    (h : m.createRecord fs savedPosition source = some r) :
    r.source.filename = source.filename := by
  obtain ⟨fileDescriptor, -, rfl⟩ := Option.map_eq_some_iff.mp h
  rfl

/-- The entry of a name, told apart by what it holds. -/
theorem Keyed.entry_cases (h : m.Keyed) (f : String) :
    m.internalTable.lookup f = none ∨ m.internalTable.lookup f = some none ∨
      ∃ ptr, m.entry f = some (some ptr) := by
  cases hlook : m.internalTable.lookup f with
  | none => exact .inl rfl
  | some pointer =>
    cases pointer with
    | none => exact .inr (.inl rfl)
    | some id =>
      obtain ⟨r, hr⟩ : ∃ r, m.records[id]? = some r :=
        ⟨_, List.getElem?_eq_getElem (h.live f id hlook)⟩
      exact .inr (.inr ⟨⟨id, r⟩, entry_eq_some_some.mpr ⟨hlook, hr⟩⟩)

theorem Keyed.modify (h : m.Keyed) (source : TailSource) :
    (m.modify fs savedPosition source).monitor.Keyed := by
  rcases h.entry_cases source.filename with hnone | hnull | ⟨ptr, hptr⟩
  · rw [SharedMonitor.modify, hnone]
    cases hcreate : m.createRecord fs savedPosition source with
    | none => exact h.insert_none _
    | some r =>
      have hentry := (h.entry_insert source.filename r source.filename).trans (if_pos rfl)
      exact (h.insert (createRecord_filename hcreate)).processRecord hentry
  · rw [SharedMonitor.modify, hnull]
    exact h
  · rw [modify_of_entry source hptr]
    exact h.processRecord hptr

theorem Keyed.move (h : m.Keyed) (source : TailSource) : (m.move fs source).monitor.Keyed := by
  rcases h.entry_cases source.filename with hnone | hnull | ⟨ptr, hptr⟩
  · rw [SharedMonitor.move, hnone]
    exact h
  · rw [SharedMonitor.move, hnull]
    exact h
  · obtain ⟨hlook, hr⟩ := entry_eq_some_some.mp hptr
    cases hname : ptr.record.getCurrentFileName fs with
    | none =>
      rw [SharedMonitor.move, hlook]
      simp only [hr, hname]
      exact h
    | some newFilename =>
      by_cases hne : newFilename = source.filename
      · rw [SharedMonitor.move, hlook]
        simp only [hr, hname, hne, ne_eq, not_true_eq_false, if_false]
        exact h
      refine h.of_entry (fun k ptr' hk => ?_) ?_
      · rw [h.entry_move source k hptr hname hne] at hk
        split_ifs at hk with hold hnew
        · obtain rfl := Option.some.inj (Option.some.inj hk)
          exact .inl hnew.1.symm
        · exact .inr hk
      · intro k id hk
        obtain ⟨hrecords, hlookup⟩ := move_spec_of_entry source k hptr hname hne
        rw [hlookup] at hk
        rw [hrecords, List.length_set]
        split_ifs at hk
        · obtain rfl := Option.some.inj (Option.some.inj hk)
          exact h.live _ _ hlook
        · exact h.live k id hk

theorem Keyed.remove (h : m.Keyed) (source : TailSource) : (m.remove fs source).monitor.Keyed := by
  rcases h.entry_cases source.filename with hnone | hnull | ⟨ptr, hptr⟩
  · rw [SharedMonitor.remove, hnone]
    exact h
  · rw [SharedMonitor.remove, hnull]
    exact h
  · refine h.of_entry (fun k ptr' hk => ?_) ?_
    · rw [entry_remove source k hptr] at hk
      split_ifs at hk
      exact .inr hk
    · intro k id hk
      obtain ⟨hlook, hr⟩ := entry_eq_some_some.mp hptr
      rw [SharedMonitor.remove, hlook] at hk ⊢
      simp only [hr] at hk ⊢
      exact h.live k id (AList.lookup_erase_eq_some.mp hk).2

/-- **The invariant survives every event**, whatever the file system looks like. -/
theorem Keyed.next (h : m.Keyed) (occasion : Occasion) : (m.next occasion).Keyed := by
  rw [SharedMonitor.next, handle]
  split
  · exact h.modify _
  · exact h.modify _
  · exact h.modify _
  · exact h.move _
  · exact h.remove _
  · exact h

theorem keyed_start (startMsgRegEx : Option DelimiterRegex) (mode : StateMode) :
    (start startMsgRegEx mode).Keyed where
  filename _ _ hk := by cases hk
  live _ _ hk := by cases hk

end Invariant

/-! ### Records by value -/

/-- A monitor that has its records in the table says the same as one whose table refers
to them. -/
structure Represents (m : SharedMonitor) (v : TailMonitor) : Prop where
  startMsgRegEx : v.startMsgRegEx = m.startMsgRegEx
  mode : v.mode = m.mode
  created : v.created = m.records.length
  internalTable : ∀ k, v.internalTable.lookup k = m.entry k

/-- A method does the same on both. -/
structure Agrees (out : SharedResult) (out' : Result) : Prop where
  represents : Represents out.monitor out'.monitor
  calls : out'.calls = out.calls
  outcome : out'.outcome = out.outcome

section Simulation

variable {fs : FileSystem} {savedPosition : String → Int} {m : SharedMonitor} {v : TailMonitor}

theorem represents_start (startMsgRegEx : Option DelimiterRegex) (mode : StateMode) :
    Represents (start startMsgRegEx mode) (.start startMsgRegEx mode) :=
  ⟨rfl, rfl, rfl, fun _ => rfl⟩

theorem Represents.processRecord (hv : Represents m v) (h : m.Keyed) (fs : FileSystem)
    {f : String} {ptr : RecordPtr} (hf : m.entry f = some (some ptr)) :
    Agrees (m.processRecord fs ptr.id) (v.processRecord fs f ptr) := by
  have hentry := fun k => h.entry_processRecord k fs hf
  rw [SharedMonitor.processRecord, (entry_eq_some_some.mp hf).2] at hentry ⊢
  refine ⟨⟨hv.startMsgRegEx, hv.mode, ?_, fun k => ?_⟩, rfl, rfl⟩
  · rw [List.length_set]
    exact hv.created
  · rw [TailMonitor.lookup_processRecord, hv.internalTable k]
    exact (hentry k).symm

theorem Represents.insert (hv : Represents m v) (h : m.Keyed) (f : String)
    (r : PointersTableInternalRecord) :
    Represents
      { m with
        internalTable := m.internalTable.insert f (some m.records.length)
        records := m.records ++ [r] }
      { v with
        internalTable := v.internalTable.insert f (some ⟨m.records.length, r⟩)
        created := v.created + 1 } := by
  refine ⟨hv.startMsgRegEx, hv.mode, ?_, fun k => ?_⟩
  · rw [List.length_append, hv.created]
    rfl
  · rw [h.entry_insert f r k, AList.lookup_insert_apply, hv.internalTable k]

theorem Represents.modify (hv : Represents m v) (h : m.Keyed) (source : TailSource) :
    Agrees (m.modify fs savedPosition source) (v.modify fs savedPosition source) := by
  have hlookup := hv.internalTable source.filename
  rcases h.entry_cases source.filename with hnone | hnull | ⟨ptr, hptr⟩
  · rw [entry_eq_none.mpr hnone] at hlookup
    have hcreate : v.createRecord fs savedPosition source =
        (m.createRecord fs savedPosition source).map fun r => ⟨m.records.length, r⟩ := by
      rw [TailMonitor.createRecord, createRecord, hv.startMsgRegEx, hv.mode, hv.created,
        Option.map_map]
      rfl
    rw [SharedMonitor.modify, hnone, TailMonitor.modify, hlookup, hcreate]
    cases hr : m.createRecord fs savedPosition source with
    | none =>
      refine ⟨⟨hv.startMsgRegEx, hv.mode, hv.created, fun k => ?_⟩, rfl, rfl⟩
      change (v.internalTable.insert source.filename none).lookup k = _
      rw [entry_insert_none, ← hv.internalTable k, AList.lookup_insert_apply]
    | some r =>
      -- the new record is processed on both sides, and both sides write it over the entry
      have hentry := (h.entry_insert source.filename r source.filename).trans (if_pos rfl)
      obtain ⟨hrep, hcalls, houtcome⟩ := (hv.insert h source.filename r).processRecord
        (h.insert (createRecord_filename hr)) fs hentry
      refine ⟨⟨hrep.startMsgRegEx, hrep.mode, hrep.created, fun k => ?_⟩, ?_, houtcome⟩
      · rw [← hrep.internalTable k]
        simp only [Option.map_some, TailMonitor.lookup_processRecord]
        split_ifs with hk
        · rfl
        · rw [AList.lookup_insert_ne hk]
      · exact congrArg _ hcalls
  · rw [SharedMonitor.modify, hnull, TailMonitor.modify, hlookup, h.lookup_of_entry.mpr hnull]
    exact ⟨hv, rfl, rfl⟩
  · rw [modify_of_entry source hptr, TailMonitor.modify_of_lookup source (hlookup.trans hptr)]
    exact hv.processRecord h fs hptr

theorem Represents.move (hv : Represents m v) (h : m.Keyed) (source : TailSource) :
    Agrees (m.move fs source) (v.move fs source) := by
  have hlookup := hv.internalTable source.filename
  rcases h.entry_cases source.filename with hnone | hnull | ⟨ptr, hptr⟩
  · rw [SharedMonitor.move, hnone, TailMonitor.move, hlookup, entry_eq_none.mpr hnone]
    exact ⟨hv, rfl, rfl⟩
  · rw [SharedMonitor.move, hnull, TailMonitor.move, hlookup, h.lookup_of_entry.mpr hnull]
    exact ⟨hv, rfl, rfl⟩
  · obtain ⟨hlook, hr⟩ := entry_eq_some_some.mp hptr
    have hv' := hlookup.trans hptr
    cases hname : ptr.record.getCurrentFileName fs with
    | none =>
      rw [SharedMonitor.move, hlook, TailMonitor.move, hv']
      simp only [hr, hname]
      exact ⟨hv, rfl, rfl⟩
    | some newFilename =>
      by_cases hne : newFilename = source.filename
      · subst hne
        rw [v.move_of_same source hv' hname, SharedMonitor.move, hlook]
        simp only [hr, hname, ne_eq, not_true_eq_false, if_false]
        exact ⟨hv, rfl, rfl⟩
      have hentry := fun k => h.entry_move source k hptr hname hne
      have hvalue := fun k => TailMonitor.lookup_move source k hv' hname hne
      rw [SharedMonitor.move, hlook] at hentry ⊢
      rw [TailMonitor.move, hv'] at hvalue ⊢
      simp only [hr, hname, hne, ne_eq, not_false_eq_true, if_true] at hentry hvalue ⊢
      refine ⟨⟨hv.startMsgRegEx, hv.mode, ?_, fun k => ?_⟩, rfl, rfl⟩
      · rw [List.length_set]
        exact hv.created
      · rw [hvalue, hentry, hv.internalTable k]

theorem Represents.remove (hv : Represents m v) (h : m.Keyed) (source : TailSource) :
    Agrees (m.remove fs source) (v.remove fs source) := by
  have hlookup := hv.internalTable source.filename
  rcases h.entry_cases source.filename with hnone | hnull | ⟨ptr, hptr⟩
  · rw [SharedMonitor.remove, hnone, TailMonitor.remove, hlookup, entry_eq_none.mpr hnone]
    exact ⟨hv, rfl, rfl⟩
  · rw [SharedMonitor.remove, hnull, TailMonitor.remove, hlookup, h.lookup_of_entry.mpr hnull]
    exact ⟨hv, rfl, rfl⟩
  · obtain ⟨hlook, hr⟩ := entry_eq_some_some.mp hptr
    have hentry : ∀ k, (m.remove fs source).monitor.entry k =
        if k = source.filename then none else m.entry k := fun k => entry_remove source k hptr
    rw [SharedMonitor.remove, hlook] at hentry ⊢
    rw [TailMonitor.remove, hlookup.trans hptr]
    simp only [hr] at hentry ⊢
    refine ⟨⟨hv.startMsgRegEx, hv.mode, hv.created, fun k => ?_⟩, rfl, rfl⟩
    rw [hentry, ← hv.internalTable k, AList.lookup_erase_apply]

/-- **Records by value say the same**: with the records in the table, every event is
handled as it is with pointers, and what the tables say afterwards is again the same. -/
theorem handle_represents (hv : Represents m v) (h : m.Keyed) (occasion : Occasion) :
    Agrees (m.handle occasion) (v.handle occasion.fs occasion.savedPosition occasion.event) := by
  rw [handle, TailMonitor.handle]
  cases occasion.event.eventType with
  | init => exact hv.modify h _
  | create => exact hv.modify h _
  | modify => exact hv.modify h _
  | move => exact hv.move h _
  | delete => exact hv.remove h _
  | unknown => exact ⟨hv, rfl, rfl⟩

/-- Over a whole run, whatever happens in it. -/
theorem foldl_represents (startMsgRegEx : Option DelimiterRegex) (mode : StateMode)
    (occasions : List Occasion) :
    (occasions.foldl next (start startMsgRegEx mode)).Keyed ∧
      Represents (occasions.foldl next (start startMsgRegEx mode))
        (occasions.foldl
          (fun v o => (v.handle o.fs o.savedPosition o.event).monitor)
          (TailMonitor.start startMsgRegEx mode)) := by
  induction occasions using List.reverseRecOn with
  | nil => exact ⟨keyed_start startMsgRegEx mode, represents_start startMsgRegEx mode⟩
  | append_singleton occasions occasion ih =>
    rw [List.foldl_concat, List.foldl_concat]
    exact ⟨ih.1.next occasion, (handle_represents ih.2 ih.1 occasion).represents⟩

end Simulation

/-! ### The names of the table -/

/-- What holds of the table of a monitor at any time. -/
structure NamedByTable (m : SharedMonitor) : Prop where
  /-- Every entry holds a record, and that carries the name of the entry. -/
  filename : ∀ k pointer, m.internalTable.lookup k = some pointer →
    ∃ ptr, m.entry k = some (some ptr) ∧ ptr.record.source.filename = k
  /-- No record is under two names. -/
  unshared : ∀ k k' id, m.internalTable.lookup k = some (some id) →
    m.internalTable.lookup k' = some (some id) → k = k'
  /-- `move` to another name takes the entry away and leaves one under the new name;
  all others stay as they are. -/
  moved : ∀ (fs : FileSystem) (source : TailSource) (ptr : RecordPtr) (newFilename : String),
    m.entry source.filename = some (some ptr) →
    ptr.record.getCurrentFileName fs = some newFilename → newFilename ≠ source.filename →
    (m.move fs source).monitor.entry source.filename = none ∧
      (m.move fs source).monitor.entry newFilename ≠ none ∧
      ∀ k, k ≠ source.filename → k ≠ newFilename →
        (m.move fs source).monitor.entry k = m.entry k
  /-- A record saves its position in the file that `remove` of its entry erases. -/
  stateFile : ∀ (fs : FileSystem) (source : TailSource) (ptr : RecordPtr) (content : Bytes),
    m.entry source.filename = some (some ptr) →
    (m.remove fs source).calls.head? = some (.erasePosition source.filename) ∧
      ∀ save ∈ saved (ptr.record.process content).2 ++ saved ptr.record.flush.2,
        getSavedPathByFileName save.1 = getSavedPathByFileName source.filename

/-- When a record is to be made, its file can be opened. -/
def OpenSucceeds (m : SharedMonitor) (occasion : Occasion) : Prop :=
  TailMonitor.Modifies occasion.event →
    m.internalTable.lookup occasion.event.source.filename = none →
      occasion.fs.openFile occasion.event.source.filename ≠ none

/-- Every entry holds a record. -/
def Filled (m : SharedMonitor) : Prop := ∀ k, m.internalTable.lookup k ≠ some none

section Names

open Daemon (oneFile savingMode)

variable {m : SharedMonitor} {occasion : Occasion}

theorem NamedByTable.of_keyed (h : m.Keyed) (hfilled : m.Filled) : m.NamedByTable where
  filename k pointer hk := by
    rcases h.entry_cases k with hnone | hnull | ⟨ptr, hptr⟩
    · rw [hnone] at hk
      cases hk
    · exact absurd hnull (hfilled k)
    · exact ⟨ptr, hptr, h.filename k ptr hptr⟩
  unshared k k' id hk hk' := by
    obtain ⟨r, hr⟩ : ∃ r, m.records[id]? = some r :=
      ⟨_, List.getElem?_eq_getElem (h.live k id hk)⟩
    have hentry : m.entry k = some (some ⟨id, r⟩) := entry_eq_some_some.mpr ⟨hk, hr⟩
    exact h.eq_of_id_eq hentry (entry_eq_some_some.mpr ⟨hk', hr⟩ : m.entry k' = some (some ⟨id, r⟩))
      rfl
  moved fs source ptr newFilename hptr hname hne := by
    have hentry := fun k => h.entry_move source k hptr hname hne
    refine ⟨?_, ?_, fun k hk hk' => ?_⟩
    · rw [hentry, if_pos rfl]
    · rw [hentry, if_neg hne]
      split_ifs with hnew
      · exact Option.some_ne_none _
      · exact fun hnone => hnew ⟨rfl, hnone⟩
    · rw [hentry, if_neg hk, if_neg fun hnew => hk' hnew.1]
  stateFile fs source ptr content hptr := by
    obtain ⟨hlook, hr⟩ := entry_eq_some_some.mp hptr
    refine ⟨?_, fun save hsave => ?_⟩
    · rw [SharedMonitor.remove, hlook]
      simp only [hr, List.head?_cons]
    · rw [← h.filename _ _ hptr]
      rcases List.mem_append.mp hsave with hsave | hsave
      · rw [(ptr.record.process_source content).2 save hsave]
      · rw [ptr.record.flush_source.2 save hsave]

/-- The table is filled when its records by value are. -/
theorem Represents.filled {v : TailMonitor} (hv : Represents m v) (h : m.Keyed)
    (hfilled : v.Filled) : m.Filled := by
  intro k hnull
  exact hfilled k ((hv.internalTable k).trans (h.lookup_of_entry.mpr hnull))

/-- When the files can be opened, no creation fails. -/
theorem Represents.not_creationFails {v : TailMonitor} (hv : Represents m v)
    (hopen : m.OpenSucceeds occasion) : ¬v.CreationFails occasion.fs occasion.event := by
  rintro ⟨hmod, hlook, hfile⟩
  rw [hv.internalTable, entry_eq_none] at hlook
  exact hopen hmod hlook hfile

/-- **The table stays keyed by the names of its records**, over every sequence of events
in which the files can be opened, whatever names the open files have at the time. -/
theorem named_by_table (startMsgRegEx : Option DelimiterRegex) (mode : StateMode)
    {occasions : List Occasion}
    (hopen : Machine.Along next OpenSucceeds (start startMsgRegEx mode) occasions) :
    (occasions.foldl next (start startMsgRegEx mode)).NamedByTable := by
  -- the records by value go along, since empty entries are known to stay out of their table
  have hinv := Machine.Along.of_invariant (Q := fun _ _ => True)
    (fun m => m.Keyed ∧ ∃ v : TailMonitor, Represents m v ∧ v.Filled)
    (fun m occasion hm hoccasion => ?_)
    ⟨keyed_start startMsgRegEx mode, _, represents_start startMsgRegEx mode,
      TailMonitor.filled_start startMsgRegEx mode⟩ hopen
  · obtain ⟨-, hkeyed, v, hv, hfilled⟩ := hinv
    exact .of_keyed hkeyed (hv.filled hkeyed hfilled)
  · obtain ⟨hkeyed, v, hv, hfilled⟩ := hm
    exact ⟨trivial, hkeyed.next occasion, _, (handle_represents hv hkeyed occasion).represents,
      hfilled.handle (hv.not_creationFails hoccasion)⟩

/-- A file is found, is read, and is moved away. -/
theorem named_by_table_moved :
    ([⟨oneFile "/v/a" 0 (ascii "x\n"), fun _ => 0, ⟨1, .create, ⟨"/v/a", none⟩⟩⟩,
      ⟨oneFile "/v/b" 0 (ascii "x\n"), fun _ => 0, ⟨1, .move, ⟨"/v/a", none⟩⟩⟩].foldl next
        (start none savingMode)).NamedByTable :=
  named_by_table none savingMode
    ⟨fun _ _ => by decide, (fun hmod => by rcases hmod with h | h | h <;> cases h), trivial⟩

end Names

end SharedMonitor

end Tail

end IqLogger
