import IqLogger.Inputs.Tail.Tracking
import IqLogger.Lib.Run

/-!
# Rotation

What `move` does wrong is to drop the record of a file whose new name is still
taken in the table. `IqLogger.Tail.System.Safe` is the condition on a state that
the next event does no harm.

The monitor thread keeps the invariant by taking one event from the queue: an event
under another key takes nothing from what is pending for a record
(`IqLogger.Tail.System.Pending.tail`), and an event under its key does what was
pending. So when the queue is empty, all files that ever had a record have been
read, each byte once: `IqLogger.Tail.System.rotation_reads_all`.
-/

namespace IqLogger

namespace Tail

namespace System

/-! ### Runs without harm -/

/-- The records in the table. -/
def records (s : System) : List RecordPtr := s.monitor.internalTable.entries.filterMap (·.2)

/-- **The next event does no harm.** A record that is moved has a file with a
name, which is its key or free in the table, or is done with a file that lost its
name; and a record is only made for a file that no record is on. -/
def Safe (s : System) : Prop :=
  ∀ event ∈ s.queue.head?,
    if event.1 = .move then
      ∀ ptr ∈ (s.monitor.internalTable.lookup event.2).join,
        let i := ptr.record.fileDescriptor
        let c := s.directory.path i
        if s.directory.file c = some i then
          c = event.2 ∨ s.monitor.internalTable.lookup c = none
        else ¬Unread s.directory ptr.record
    else
      s.monitor.internalTable.lookup event.2 = none →
        ∀ i ∈ s.directory.file event.2, ∀ ptr ∈ s.records, ptr.record.fileDescriptor ≠ i

/-- All files that ever had a record have been read, each byte once. -/
def AllRead (s : System) (calls : List MonitorCall) : Prop :=
  ∀ i ∈ opened calls, bytesRead i calls = s.directory.content i

instance (s : System) : Decidable s.Safe :=
  inferInstanceAs (Decidable (∀ event ∈ s.queue.head?, _))

instance (s : System) (calls : List MonitorCall) : Decidable (AllRead s calls) :=
  inferInstanceAs (Decidable (∀ i ∈ opened calls, _ = _))

variable {s : System} {calls : List MonitorCall}

/-! ### The monitor thread -/

/-- The events that are left are of the types there were. -/
theorem Tracked.types_tail (h : Tracked s calls) {event : EventType × String}
    {queue : List (EventType × String)} (hqueue : s.queue = event :: queue) {t : EventType}
    {c : String} (hmem : (t, c) ∈ queue) : t = .init ∨ t = .create ∨ t = .modify ∨ t = .move :=
  h.types t c (hqueue ▸ List.mem_cons_of_mem _ hmem)

/-- **An event under another key** takes nothing from what is pending. -/
theorem Pending.tail {d : Directory} {t : EventType} {f : String}
    {queue : List (EventType × String)} {k : String} {r : PointersTableInternalRecord}
    (h : Pending d ((t, f) :: queue) k r) (hk : k ≠ f) : Pending d queue k r where
  named c hc := by
    rcases h.named c hc with ⟨rfl, hnotifies⟩ | ⟨q, q', hq, hnotifies⟩
    · refine Or.inl ⟨rfl, fun hunread => ?_⟩
      obtain ⟨t', ht, htype⟩ := hnotifies hunread
      rcases List.mem_cons.mp ht with heq | ht
      · exact absurd (Prod.mk.inj heq).2 hk
      · exact ⟨t', ht, htype⟩
    · cases q with
      | nil =>
        rw [List.nil_append] at hq
        exact absurd (Prod.mk.inj (List.cons.inj hq).1).2.symm hk
      | cons event q => exact Or.inr ⟨q, q', (List.cons.inj hq).2, hnotifies⟩
  nameless hno hunread := by
    obtain ⟨t', ht⟩ := h.nameless hno hunread
    rcases List.mem_cons.mp ht with heq | ht
    · exact absurd (Prod.mk.inj heq).2 hk
    · exact ⟨t', ht⟩

/-- **An event that is no move**, when the record reads all there is. -/
theorem Pending.tail_of_read {d : Directory} {t : EventType} {f : String}
    {queue : List (EventType × String)} {k : String} {r r' : PointersTableInternalRecord}
    (h : Pending d ((t, f) :: queue) k r) (ht : t ≠ .move)
    (hfd : r'.fileDescriptor = r.fileDescriptor) (hread : ¬Unread d r') :
    Pending d queue k r' where
  named c hc := by
    rcases h.named c (hfd ▸ hc) with ⟨rfl, -⟩ | ⟨q, q', hq, -⟩
    · exact Or.inl ⟨rfl, fun hunread => absurd hunread hread⟩
    · cases q with
      | nil =>
        rw [List.nil_append] at hq
        exact absurd (Prod.mk.inj (List.cons.inj hq).1).1 ht
      | cons event q =>
        exact Or.inr ⟨q, q', (List.cons.inj hq).2, fun hunread => absurd hunread hread⟩
  nameless _ hunread := absurd hunread hread

/-- **A move of a file that has a name** puts the key right. -/
theorem Pending.tail_of_move {d : Directory} {f : String} {queue : List (EventType × String)}
    {r : PointersTableInternalRecord} (h : Pending d ((.move, f) :: queue) f r) {c : String}
    (hc : d.file c = some r.fileDescriptor)
    (hname : ∀ c', d.file c' = some r.fileDescriptor → c' = c) : Pending d queue c r where
  named c' hc' := by
    obtain rfl := hname c' hc'
    refine Or.inl ⟨rfl, fun hunread => ?_⟩
    rcases h.named c' hc with ⟨rfl, hnotifies⟩ | ⟨q, q', hq, hnotifies⟩
    · obtain ⟨t, ht, htype⟩ := hnotifies hunread
      rcases List.mem_cons.mp ht with heq | ht
      · obtain ⟨rfl, -⟩ := Prod.mk.inj heq
        simp at htype
      · exact ⟨t, ht, htype⟩
    · obtain ⟨t, ht, htype⟩ := hnotifies hunread
      cases q with
      | nil => exact ⟨t, (List.cons.inj hq).2 ▸ ht, htype⟩
      | cons event q =>
        rw [(List.cons.inj hq).2]
        exact ⟨t, by simp [ht], htype⟩
  nameless hno := absurd hc (hno c)

/-- **Processing a record in good order reads its file to the end.** -/
theorem Sound.process {d : Directory} {ptr : RecordPtr} (h : Sound d calls ptr.record) :
    let out := ptr.record.process (d.content ptr.record.fileDescriptor)
    Sound d (calls ++ ptr.calls out.2) out.1 ∧ ¬Unread d out.1 ∧
      out.1.fileDescriptor = ptr.record.fileDescriptor := by
  intro out
  obtain ⟨n, hposition, hn, hread⟩ := h.read
  obtain ⟨cs, hreads, hcalls⟩ :=
    ptr.record.process_reads h.symlinkPath h.streamFail h.followOnly hposition hn
  have hfd : out.1.fileDescriptor = ptr.record.fileDescriptor := hreads.sameFile.fileDescriptor
  have hend : out.1.fileCurrentPosition = (d.content ptr.record.fileDescriptor).length := by
    rw [hreads.position, hposition, List.length_drop]
    omega
  refine ⟨⟨?_, ?_, ?_, ?_, (d.content ptr.record.fileDescriptor).length, hend, ?_, ?_⟩, ?_, hfd⟩
  · exact hreads.sameFile.symlinkPath.trans h.symlinkPath
  · exact hreads.streamFail.trans h.streamFail
  · rw [hreads.sameFile.mode]
    exact h.followOnly
  · rw [hfd, opened_append]
    exact List.mem_append_left _ h.opened
  · rw [hfd]
  · rw [hfd, bytesRead_append, bytesRead_calls, if_pos rfl, hread, hcalls, buffers_append,
      List.flatten_append, hreads.buffers]
    simp
  · rw [Unread, hfd, hend]
    exact lt_irrefl _

/-- What is known of a record survives the calls of other records. -/
theorem Sound.mono {d : Directory} {r : PointersTableInternalRecord} (h : Sound d calls r)
    {new : List MonitorCall} (hnew : bytesRead r.fileDescriptor new = []) :
    Sound d (calls ++ new) r := by
  obtain ⟨n, hposition, hn, hread⟩ := h.read
  refine ⟨h.symlinkPath, h.streamFail, h.followOnly, ?_, n, hposition, hn, ?_⟩
  · rw [opened_append]
    exact List.mem_append_left _ h.opened
  · rw [bytesRead_append, hnew, List.append_nil, hread]

/-- No two records are on one file, when there is one that is new or was changed and
the others are on other files. -/
theorem Tracked.unique_of (h : Tracked s calls) {HoldsAfter : String → RecordPtr → Prop}
    {c : String} {ptr : RecordPtr}
    (hholds : ∀ k p, HoldsAfter k p → (k = c ∧ p = ptr) ∨
      (s.Holds k p ∧ p.record.fileDescriptor ≠ ptr.record.fileDescriptor)) :
    ∀ k k' p p', HoldsAfter k p → HoldsAfter k' p' →
      p.record.fileDescriptor = p'.record.fileDescriptor → k = k' := by
  intro k k' p p' hk hk' heq
  rcases hholds k p hk with ⟨rfl, rfl⟩ | ⟨hp, hne⟩
  · rcases hholds k' p' hk' with ⟨rfl, -⟩ | ⟨-, hne'⟩
    · rfl
    · exact absurd heq.symm hne'
  · rcases hholds k' p' hk' with ⟨-, rfl⟩ | ⟨hp', -⟩
    · exact absurd heq hne
    · exact h.unique _ _ _ _ hp hp' heq

/-- **The record under a key is changed, and possibly put under another one.** -/
theorem Tracked.replace (h : Tracked s calls) {t : EventType} {f : String}
    {queue : List (EventType × String)} (hqueue : s.queue = (t, f) :: queue) {ptr : RecordPtr}
    (hptr : s.Holds f ptr) (ptr' : RecordPtr) (c : String) (m : TailMonitor)
    (new : List MonitorCall) (hfd : ptr'.record.fileDescriptor = ptr.record.fileDescriptor)
    (hc : c = f ∨ s.monitor.internalTable.lookup c = none) (hmode : m.mode = s.monitor.mode)
    (hlookup : ∀ k, m.internalTable.lookup k =
      if k = c then some (some ptr') else if k = f then none else s.monitor.internalTable.lookup k)
    (hopened : opened new = []) (hread : ∀ i, i ≠ ptr.record.fileDescriptor → bytesRead i new = [])
    (hsound : Sound s.directory (calls ++ new) ptr'.record)
    (hpending : Pending s.directory queue c ptr'.record) :
    Tracked { s with queue := queue, monitor := m } (calls ++ new) := by
  -- a record afterwards is the one that was changed, or one under another key
  have hholds : ∀ {k p}, m.internalTable.lookup k = some (some p) →
      (k = c ∧ p = ptr') ∨ (k ≠ f ∧ k ≠ c ∧ s.Holds k p) := by
    intro k p hk
    rw [hlookup] at hk
    split_ifs at hk with hkc hkf
    · exact Or.inl ⟨hkc, (Option.some.inj (Option.some.inj hk)).symm⟩
    · exact Or.inr ⟨hkf, hkc, hk⟩
  have hothers : ∀ {k p}, k ≠ f → s.Holds k p →
      p.record.fileDescriptor ≠ ptr.record.fileDescriptor :=
    fun hk hp heq => hk (h.unique _ _ _ _ hp hptr heq)
  have hopened' : opened (calls ++ new) = opened calls := by
    rw [opened_append, hopened, List.append_nil]
  have hmem : ptr.record.fileDescriptor ∈ opened calls := (h.sound f ptr hptr).opened
  refine ⟨h.name, ?_, ?_, ?_, ?_, ?_, ?_, ?_, ?_, ?_⟩
  · intro t' c' hmem'
    exact h.types_tail hqueue hmem'
  · exact (congrArg _ hmode).trans h.followOnly
  · intro k
    dsimp only
    rw [hlookup]
    split_ifs
    · simp
    · simp
    · exact h.entry k
  · rw [hopened']
    exact h.opened_lt
  · intro i hi
    rw [hopened'] at hi
    rw [bytesRead_append, h.unopened i hi, hread i (fun heq => hi (heq ▸ hmem)), List.append_nil]
  · intro k p hk
    rcases hholds hk with ⟨rfl, rfl⟩ | ⟨hkf, -, hp⟩
    · exact hsound
    · exact (h.sound k p hp).mono (hread _ (hothers hkf hp))
  · refine h.unique_of fun k p hk => (hholds hk).imp_right ?_
    rintro ⟨hkf, -, hp⟩
    exact ⟨hp, fun heq => hothers hkf hp (heq.trans hfd)⟩
  · intro k p hk
    rcases hholds hk with ⟨rfl, rfl⟩ | ⟨hkf, -, hp⟩
    · exact hpending
    · exact (hqueue ▸ h.pending k p hp).tail hkf
  · intro i hi
    rw [hopened'] at hi
    by_cases heq : i = ptr.record.fileDescriptor
    · exact Or.inl ⟨c, ptr', by simp only [Holds, hlookup, if_true], hfd.trans heq.symm⟩
    · rcases h.kept i hi with ⟨k, p, hp, hi'⟩ | ⟨hno, hcontent⟩
      · have hkf : k ≠ f := by
          rintro rfl
          obtain rfl := hp.eq hptr
          exact heq hi'.symm
        have hkc : k ≠ c := by
          rintro rfl
          rcases hc with hc | hc
          · exact hkf hc
          · simp [Holds, hc] at hp
        refine Or.inl ⟨k, p, ?_, hi'⟩
        simp only [Holds, hlookup, if_neg hkc, if_neg hkf]
        exact hp
      · exact Or.inr ⟨hno, by rw [bytesRead_append, hread i heq, List.append_nil, hcontent]⟩

/-- The name a record keeps of its file is of no consequence to what it reads. -/
theorem Sound.rename {d : Directory} {r : PointersTableInternalRecord} (h : Sound d calls r)
    (filename : String) : Sound d calls (r.rename filename) :=
  ⟨h.symlinkPath, h.streamFail, h.followOnly, h.opened, h.read⟩

theorem Pending.rename {d : Directory} {queue : List (EventType × String)} {k : String}
    {r : PointersTableInternalRecord} (h : Pending d queue k r) (filename : String) :
    Pending d queue k (r.rename filename) :=
  ⟨h.named, h.nameless⟩

/-- **A record is processed**, at an event under its key. -/
theorem Tracked.processRecord (h : Tracked s calls) {t : EventType} {f : String}
    {queue : List (EventType × String)} (hqueue : s.queue = (t, f) :: queue) (ht : t ≠ .move)
    {ptr : RecordPtr} (hptr : s.Holds f ptr) :
    let out := s.monitor.processRecord s.directory.toFileSystem f ptr
    Tracked { s with queue := queue, monitor := out.monitor } (calls ++ out.calls) := by
  intro out
  obtain ⟨hsound, hread, hfd⟩ := (h.sound f ptr hptr).process
  have hpending := h.pending f ptr hptr
  rw [hqueue] at hpending
  let ptr' : RecordPtr :=
    { ptr with record := (ptr.record.process (s.directory.content ptr.record.fileDescriptor)).1 }
  refine h.replace hqueue hptr ptr' f out.monitor out.calls hfd (Or.inl rfl) rfl (fun k => ?_)
    (opened_calls ..) (fun i hi => (bytesRead_calls ..).trans (if_neg hi.symm)) hsound
    (hpending.tail_of_read ht hfd hread)
  rw [TailMonitor.lookup_processRecord]
  split_ifs <;> rfl

/-- The record made for a file of the directory. -/
theorem createRecord_spec {f : String} {ptr : RecordPtr}
    (h : s.monitor.createRecord s.directory.toFileSystem (fun _ => 0) ⟨f, none⟩ = some ptr) :
    s.directory.file f = some ptr.record.fileDescriptor ∧ ptr.record.symlinkPath = none ∧
      ptr.record.streamFail = false ∧ ptr.record.mode = s.monitor.mode ∧
      ptr.record.fileCurrentPosition = 0 := by
  obtain ⟨i, hi, rfl⟩ := Option.map_eq_some_iff.mp h
  exact ⟨hi, rfl, rfl, rfl, ite_self _⟩

/-- **A record is made** for a file that no record is on, when there is an event
under its name. -/
theorem Tracked.createRecord (h : Tracked s calls) {t : EventType} {f : String}
    {queue : List (EventType × String)} (hqueue : s.queue = (t, f) :: queue)
    (ht : t = .init ∨ t = .create ∨ t = .modify)
    (hfree : s.monitor.internalTable.lookup f = none) {ptr : RecordPtr}
    (hptr : s.monitor.createRecord s.directory.toFileSystem (fun _ => 0) ⟨f, none⟩ = some ptr)
    (hsafe : ∀ k p, s.Holds k p → p.record.fileDescriptor ≠ ptr.record.fileDescriptor) :
    Tracked { s with monitor := { s.monitor with
        internalTable := s.monitor.internalTable.insert f (some ptr)
        created := s.monitor.created + 1 } }
      (calls ++ [.createRecord ptr.id ptr.record.fileDescriptor]) := by
  obtain ⟨hfile, hlink, hfail, hmode, hposition⟩ := createRecord_spec hptr
  have hnew : ptr.record.fileDescriptor ∉ opened calls := by
    intro hmem
    rcases h.kept _ hmem with ⟨k, p, hp, heq⟩ | ⟨hno, -⟩
    · exact hsafe k p hp heq
    · exact hno f hfile
  have hholds : ∀ {k p}, (s.monitor.internalTable.insert f (some ptr)).lookup k = some (some p) →
      (k = f ∧ p = ptr) ∨ (k ≠ f ∧ s.Holds k p) := by
    intro k p hk
    refine (AList.lookup_insert_eq_some.mp hk).imp_left fun ⟨hkf, hp⟩ => ⟨hkf, ?_⟩
    exact (Option.some.inj hp).symm
  refine ⟨h.name, h.types, h.followOnly, ?_, ?_, ?_, ?_, ?_, ?_, ?_⟩
  · intro k hk
    rcases AList.lookup_insert_eq_some.mp hk with ⟨-, hnone⟩ | ⟨-, hk⟩
    · cases hnone
    · exact h.entry k hk
  · intro i hi
    rw [opened_append, opened_createRecord] at hi
    rcases List.mem_append.mp hi with hi | hi
    · exact h.opened_lt i hi
    · obtain rfl := List.mem_singleton.mp hi
      exact (h.name f _ hfile).1
  · intro i hi
    rw [opened_append, List.mem_append, not_or] at hi
    rw [bytesRead_append, h.unopened i hi.1, bytesRead_createRecord, List.append_nil]
  · intro k p hk
    rcases hholds hk with ⟨rfl, rfl⟩ | ⟨-, hp⟩
    · -- the new record has read nothing of its file
      refine ⟨hlink, hfail, ?_, ?_, 0, hposition, Nat.zero_le _, ?_⟩
      · rw [hmode]
        exact h.followOnly
      · rw [opened_append, opened_createRecord]
        exact List.mem_append_right _ (List.mem_singleton_self _)
      · rw [bytesRead_append, h.unopened _ hnew, bytesRead_createRecord, List.take_zero,
          List.append_nil]
    · exact (h.sound k p hp).mono rfl
  · refine h.unique_of fun k p hk => (hholds hk).imp_right ?_
    rintro ⟨-, hp⟩
    exact ⟨hp, hsafe k p hp⟩
  · intro k p hk
    rcases hholds hk with ⟨rfl, rfl⟩ | ⟨-, hp⟩
    · -- the event the record was made for is still at the head of the queue
      refine ⟨fun c hc => Or.inl ⟨?_, fun _ => ?_⟩, fun hno => absurd hfile (hno k)⟩
      · exact (h.name k _ hfile).2.1.symm.trans (h.name c _ hc).2.1
      · have hck : c = k := (h.name c _ hc).2.1.symm.trans (h.name k _ hfile).2.1
        have hmem : (t, c) ∈ s.queue := by
          rw [hck, hqueue]
          exact List.mem_cons_self
        exact ⟨t, hmem, ht⟩
    · exact h.pending k p hp
  · intro i hi
    rw [opened_append, opened_createRecord] at hi
    rcases List.mem_append.mp hi with hi | hi
    · rcases h.kept i hi with ⟨k, p, hp, heq⟩ | ⟨hno, hcontent⟩
      · refine Or.inl ⟨k, p, ?_, heq⟩
        rw [Holds, AList.lookup_insert_ne (hp.ne_of_free hfree)]
        exact hp
      · refine Or.inr ⟨hno, ?_⟩
        rw [bytesRead_append, bytesRead_createRecord, List.append_nil, hcontent]
    · obtain rfl := List.mem_singleton.mp hi
      exact Or.inl ⟨f, ptr, AList.lookup_insert .., rfl⟩

/-- **An event under a key without a record** changes nothing. -/
theorem Tracked.skip (h : Tracked s calls) {t : EventType} {f : String}
    {queue : List (EventType × String)} (hqueue : s.queue = (t, f) :: queue)
    (hfree : s.monitor.internalTable.lookup f = none) :
    Tracked { s with queue := queue } calls := by
  refine ⟨h.name, ?_, h.followOnly, h.entry, h.opened_lt, h.unopened, h.sound, h.unique, ?_, h.kept⟩
  · intro t' c' hmem
    exact h.types_tail hqueue hmem
  · intro k p hp
    exact (hqueue ▸ h.pending k p hp).tail (hp.ne_of_free hfree)

/-- **The record of a file without a name is dropped**, when it has read all there
is. -/
theorem Tracked.drop (h : Tracked s calls) {t : EventType} {f : String}
    {queue : List (EventType × String)} (hqueue : s.queue = (t, f) :: queue) {ptr : RecordPtr}
    (hptr : s.Holds f ptr) (hno : s.directory.Nameless ptr.record.fileDescriptor)
    (hread : ¬Unread s.directory ptr.record) (m : TailMonitor) (hmode : m.mode = s.monitor.mode)
    (hlookup : ∀ k, m.internalTable.lookup k =
      if k = f then none else s.monitor.internalTable.lookup k) :
    Tracked { s with queue := queue, monitor := m } calls := by
  have hholds : ∀ {k p}, m.internalTable.lookup k = some (some p) → k ≠ f ∧ s.Holds k p := by
    intro k p hk
    rw [hlookup] at hk
    split_ifs at hk with hkf
    exact ⟨hkf, hk⟩
  refine ⟨h.name, ?_, (congrArg _ hmode).trans h.followOnly, ?_, h.opened_lt, h.unopened,
    fun k p hk => h.sound k p (hholds hk).2,
    fun k k' p p' hk hk' => h.unique k k' p p' (hholds hk).2 (hholds hk').2, ?_, ?_⟩
  · intro t' c' hmem
    exact h.types_tail hqueue hmem
  · intro k
    dsimp only
    rw [hlookup]
    split_ifs
    · simp
    · exact h.entry k
  · intro k p hk
    obtain ⟨hkf, hp⟩ := hholds hk
    exact (hqueue ▸ h.pending k p hp).tail hkf
  · intro i hi
    by_cases heq : i = ptr.record.fileDescriptor
    · subst heq
      exact Or.inr ⟨hno, (h.sound f ptr hptr).allRead hread⟩
    · rcases h.kept i hi with ⟨k, p, hp, rfl⟩ | hkept
      · refine Or.inl ⟨k, p, ?_, rfl⟩
        have hkf : k ≠ f := by
          rintro rfl
          obtain rfl := hp.eq hptr
          exact heq rfl
        simp only [Holds, hlookup, if_neg hkf]
        exact hp
      · exact Or.inr hkept

theorem mem_records {k : String} {ptr : RecordPtr} (h : s.Holds k ptr) : ptr ∈ s.records :=
  List.mem_filterMap.mpr ⟨⟨k, some ptr⟩, AList.mem_lookup_iff.mp h, rfl⟩

/-- What it means for a move to do no harm. -/
theorem Tracked.safe_move (h : Tracked s calls) {f : String} {queue : List (EventType × String)}
    (hqueue : s.queue = (.move, f) :: queue) (hsafe : s.Safe) {ptr : RecordPtr}
    (hptr : s.Holds f ptr) :
    (∃ c, s.directory.file c = some ptr.record.fileDescriptor ∧
        (c = f ∨ s.monitor.internalTable.lookup c = none)) ∨
      s.directory.Nameless ptr.record.fileDescriptor ∧ ¬Unread s.directory ptr.record := by
  have hsafe := hsafe (.move, f) (by rw [hqueue]; rfl)
  rw [if_pos rfl] at hsafe
  have hsafe := hsafe ptr (by rw [hptr]; rfl)
  dsimp only at hsafe
  split_ifs at hsafe with hname
  · exact Or.inl ⟨_, hname, hsafe⟩
  · refine Or.inr ⟨fun c hc => hname ?_, hsafe⟩
    rwa [(h.name c _ hc).2.1]

/-- **A record is moved**, when that does no harm. -/
theorem Tracked.move (h : Tracked s calls) {f : String} {queue : List (EventType × String)}
    (hqueue : s.queue = (.move, f) :: queue) {ptr : RecordPtr} (hptr : s.Holds f ptr)
    (hsafe : (∃ c, s.directory.file c = some ptr.record.fileDescriptor ∧
        (c = f ∨ s.monitor.internalTable.lookup c = none)) ∨
      s.directory.Nameless ptr.record.fileDescriptor ∧ ¬Unread s.directory ptr.record) :
    Tracked { s with
      queue := queue
      monitor := (s.monitor.move s.directory.toFileSystem ⟨f, none⟩).monitor } calls := by
  have hsound := h.sound f ptr hptr
  have hpending := h.pending f ptr hptr
  rw [hqueue] at hpending
  obtain ⟨name, hname⟩ : ∃ name,
      ptr.record.getCurrentFileName s.directory.toFileSystem = some name := ⟨_, rfl⟩
  -- what is pending afterwards, under a key that is right or does not matter
  have hafter : (∀ c, s.directory.file c = some ptr.record.fileDescriptor → c = name) →
      Pending s.directory queue name ptr.record := by
    intro hc
    rcases hsafe with ⟨c, hfile, -⟩ | ⟨hno, hread⟩
    · obtain rfl := hc c hfile
      exact hpending.tail_of_move hfile hc
    · exact ⟨fun c hc => absurd hc (hno c), fun _ hunread => absurd hunread hread⟩
  have hright : ∀ c, s.directory.file c = some ptr.record.fileDescriptor → c = name := by
    intro c hc
    obtain ⟨-, hpath, hempty⟩ := h.name c _ hc
    simp only [PointersTableInternalRecord.getCurrentFileName, Directory.toFileSystem, hpath,
      Option.map_some, hempty, ne_eq, not_false_eq_true, if_true, Option.some.injEq] at hname
    exact hname
  by_cases hsame : name = f
  · -- the file has its old name again
    subst hsame
    rw [TailMonitor.move_of_same ⟨name, none⟩ hptr hname]
    have hkeep := h.replace hqueue hptr ptr name s.monitor [] rfl (Or.inl rfl) rfl (fun k => ?_) rfl
      (fun _ _ => rfl) (by rwa [List.append_nil]) (hafter hright)
    · rwa [List.append_nil] at hkeep
    · split_ifs with hk
      · rw [hk]
        exact hptr
      · rfl
  · have hlookup := fun k => TailMonitor.lookup_move ⟨f, none⟩ k hptr hname hsame
    have hmode := (TailMonitor.move_spec ⟨f, none⟩ hptr hname).2.2
    by_cases hfree : s.monitor.internalTable.lookup name = none
    · have hkeep := h.replace hqueue hptr { ptr with record := ptr.record.rename name } name _ []
        rfl (Or.inr hfree) hmode (fun k => ?_) rfl (fun _ _ => rfl)
        (by rw [List.append_nil]; exact hsound.rename name) ((hafter hright).rename name)
      · rwa [List.append_nil] at hkeep
      · -- the key that was right all along is not the old one
        rw [hlookup]
        by_cases hk : k = name
        · subst hk
          rw [if_neg hsame, if_pos ⟨rfl, hfree⟩, if_pos rfl]
        · rw [if_neg hk]
          split_ifs with hkf hand
          · rfl
          · exact absurd hand.1 hk
          · rfl
    · rcases hsafe with ⟨c, hfile, rfl | hnone⟩ | ⟨hno, hread⟩
      · exact absurd (hright c hfile).symm hsame
      · exact absurd (hright c hfile ▸ hnone) hfree
      · refine h.drop hqueue hptr hno hread _ hmode fun k => ?_
        rw [hlookup]
        split_ifs with hkf hand
        · rfl
        · exact absurd (hand.1 ▸ hand.2) hfree
        · rfl

/-- The invariant of a run without harm. When an exception has ended the monitor
thread, nothing more is promised than for the moment it did. -/
def Harmless (s : System) (calls : List MonitorCall) : Prop :=
  (s.running = true ∧ Tracked s calls) ∨
    (s.running = false ∧ (s.queue = [] → AllRead s calls))

/-- When the queue is empty, nothing is unread. -/
theorem Tracked.allRead (h : Tracked s calls) (hqueue : s.queue = []) : AllRead s calls := by
  intro i hi
  rcases h.kept i hi with ⟨k, ptr, hptr, rfl⟩ | ⟨-, hread⟩
  · refine (h.sound k ptr hptr).allRead fun hunread => ?_
    have hpending := h.pending k ptr hptr
    rw [hqueue] at hpending
    by_cases hno : s.directory.Nameless ptr.record.fileDescriptor
    · obtain ⟨t, ht⟩ := hpending.nameless hno hunread
      simp at ht
    · obtain ⟨c, hc⟩ := not_forall.mp hno
      rcases hpending.named c (not_not.mp hc) with ⟨-, hnotifies⟩ | ⟨q, q', hq, -⟩
      · obtain ⟨t, ht, -⟩ := hnotifies hunread
        simp at ht
      · simp at hq
  · exact hread

/-- The invariant does not ask whether the thread runs. -/
theorem Tracked.setRunning (h : Tracked s calls) (running : Bool) :
    Tracked { s with running := running } calls :=
  ⟨h.name, h.types, h.followOnly, h.entry, h.opened_lt, h.unopened, h.sound, h.unique, h.pending,
    h.kept⟩

/-- **An event that makes the monitor process a file.** -/
theorem Tracked.modify (h : Tracked s calls) {t : EventType} {f : String}
    {queue : List (EventType × String)} (hqueue : s.queue = (t, f) :: queue)
    (ht : t = .init ∨ t = .create ∨ t = .modify)
    (hsafe : s.monitor.internalTable.lookup f = none →
      ∀ i, s.directory.file f = some i → ∀ k ptr, s.Holds k ptr → ptr.record.fileDescriptor ≠ i) :
    let out := s.monitor.modify s.directory.toFileSystem (fun _ => 0) ⟨f, none⟩
    Harmless { s with queue := queue, monitor := out.monitor, running := out.outcome = .done }
      (calls ++ out.calls) := by
  intro out
  have hmove : t ≠ .move := by
    rcases ht with rfl | rfl | rfl <;> simp
  cases hlookup : s.monitor.internalTable.lookup f with
  | some entry =>
    cases entry with
    | none => exact absurd hlookup (h.entry f)
    | some ptr =>
      have hout : out = s.monitor.processRecord s.directory.toFileSystem f ptr :=
        TailMonitor.modify_of_lookup ⟨f, none⟩ hlookup
      rw [hout]
      exact Or.inl ⟨rfl, (h.processRecord hqueue hmove hlookup).setRunning true⟩
  | none =>
    cases hptr : s.monitor.createRecord s.directory.toFileSystem (fun _ => 0) ⟨f, none⟩ with
    | some ptr =>
      have hfile := (createRecord_spec hptr).1
      have hcreated := h.createRecord hqueue ht hlookup hptr (hsafe hlookup _ hfile)
      have hrecord := hcreated.processRecord hqueue hmove (AList.lookup_insert ..)
      have hout := TailMonitor.modify_of_createRecord ⟨f, none⟩ hlookup hptr
      refine Or.inl ⟨?_, ?_⟩
      · simp only [out, hout]
        rfl
      · simp only [out, hout]
        simp only [TailMonitor.processRecord, AList.insert_insert, List.append_assoc,
          List.singleton_append] at hrecord
        exact hrecord.setRunning true
    | none =>
      -- the file is gone: the exception ends the thread
      have hout : out = ⟨{ s.monitor with
          internalTable := s.monitor.internalTable.insert f none }, [], .thrown⟩ := by
        simp only [out, TailMonitor.modify, hlookup, hptr]
      rw [hout]
      refine Or.inr ⟨rfl, fun hempty => ?_⟩
      rw [List.append_nil]
      exact (h.skip hqueue hlookup).allRead hempty

/-- **The invariant survives an event that does no harm.** -/
theorem Tracked.handle (h : Tracked s calls) (hrunning : s.running = true) (hsafe : s.Safe) :
    Harmless s.handle.1 (calls ++ s.handle.2) := by
  rw [System.handle, hrunning]
  cases hqueue : s.queue with
  | nil =>
    rw [List.append_nil]
    exact Or.inl ⟨hrunning, h⟩
  | cons event queue =>
    obtain ⟨t, f⟩ := event
    have hfresh : t ≠ .move → s.monitor.internalTable.lookup f = none →
        ∀ i, s.directory.file f = some i → ∀ k ptr, s.Holds k ptr →
          ptr.record.fileDescriptor ≠ i := by
      intro hmove hfree i hi k ptr hptr
      have hsafe := hsafe (t, f) (by rw [hqueue]; rfl)
      rw [if_neg hmove] at hsafe
      exact hsafe hfree i hi ptr (mem_records hptr)
    rcases h.types t f (by rw [hqueue]; exact List.mem_cons_self) with rfl | rfl | rfl | rfl
    · exact h.modify hqueue (Or.inl rfl) (hfresh (by simp))
    · exact h.modify hqueue (Or.inr (Or.inl rfl)) (hfresh (by simp))
    · exact h.modify hqueue (Or.inr (Or.inr rfl)) (hfresh (by simp))
    · simp only [TailMonitor.handle]
      cases hlookup : s.monitor.internalTable.lookup f with
      | none =>
        simp only [TailMonitor.move, hlookup, decide_true, List.append_nil]
        exact Or.inl ⟨rfl, (h.skip hqueue hlookup).setRunning true⟩
      | some entry =>
        cases entry with
        | none => exact absurd hlookup (h.entry f)
        | some ptr =>
          obtain ⟨hcalls, houtcome, -⟩ :=
            @TailMonitor.move_spec s.directory.toFileSystem s.monitor ⟨f, none⟩ ptr hlookup _ rfl
          rw [hcalls, List.append_nil]
          refine Or.inl ⟨by simp [houtcome], ?_⟩
          exact (h.move hqueue hlookup (h.safe_move hqueue hsafe hlookup)).setRunning _

/-- **The invariant survives a step**, if it is not an event that does harm. -/
theorem Harmless.step (h : Harmless s calls) (op : SystemOp)
    (hsafe : op = .handle → s.running = true → s.Safe) :
    Harmless (s.step op).1 (calls ++ (s.step op).2) := by
  rcases h with ⟨hrunning, h⟩ | ⟨hrunning, h⟩
  · cases op with
    | create c =>
      rw [System.step, List.append_nil]
      exact Or.inl ⟨(addFile_running ..).trans hrunning, h.addFile (Or.inr rfl) c []⟩
    | append c bytes =>
      rw [System.step]
      split
      · next i hi =>
        split_ifs
        · rw [List.append_nil]
          exact Or.inl ⟨hrunning, h.append hi bytes⟩
        · rw [List.append_nil]
          exact Or.inl ⟨hrunning, h⟩
      · rw [List.append_nil]
        exact Or.inl ⟨hrunning, h⟩
    | rename f g =>
      rw [System.step]
      split
      · next i hi =>
        split_ifs with hfg
        · rw [List.append_nil]
          exact Or.inl ⟨hrunning, h.rename hi hfg.1 hfg.2⟩
        · rw [List.append_nil]
          exact Or.inl ⟨hrunning, h⟩
      · rw [List.append_nil]
        exact Or.inl ⟨hrunning, h⟩
    | handle => exact h.handle hrunning (hsafe rfl hrunning)
  · -- without the thread, whatever a writer does stays in the queue
    cases op with
    | create c =>
      rw [System.step, List.append_nil, System.addFile]
      split_ifs
      · exact Or.inr ⟨hrunning, fun hempty => by simp at hempty⟩
      · exact Or.inr ⟨hrunning, h⟩
    | append c bytes =>
      rw [System.step]
      split
      · split_ifs
        · exact Or.inr ⟨hrunning, fun hempty => by simp [report, Mask.eventType] at hempty⟩
        · rw [List.append_nil]
          exact Or.inr ⟨hrunning, h⟩
      · rw [List.append_nil]
        exact Or.inr ⟨hrunning, h⟩
    | rename f g =>
      rw [System.step]
      split
      · split_ifs
        · exact Or.inr ⟨hrunning, fun hempty => by simp [report, Mask.eventType] at hempty⟩
        · rw [List.append_nil]
          exact Or.inr ⟨hrunning, h⟩
      · rw [List.append_nil]
        exact Or.inr ⟨hrunning, h⟩
    | handle =>
      rw [System.step, System.handle, hrunning, List.append_nil]
      exact Or.inr ⟨hrunning, h⟩

theorem Tracked.empty (startMsgRegEx : Option DelimiterRegex) {mode : StateMode}
    (hmode : mode.followOnly = false) :
    Tracked ⟨.empty, [], .start startMsgRegEx mode, true⟩ [] where
  name c i hc := by simp [Directory.empty] at hc
  types t c ht := by simp at ht
  followOnly := hmode
  entry k := by simp [TailMonitor.start]
  opened_lt i hi := by simp [opened] at hi
  unopened i _ := rfl
  sound k ptr hptr := by simp [Holds, TailMonitor.start] at hptr
  unique k k' ptr ptr' hptr := by simp [Holds, TailMonitor.start] at hptr
  pending k ptr hptr := by simp [Holds, TailMonitor.start] at hptr
  kept i hi := by simp [opened] at hi

/-- The invariant holds when the directory is first scanned. -/
theorem tracked_start (startMsgRegEx : Option DelimiterRegex) {mode : StateMode}
    (hmode : mode.followOnly = false) (files : List (String × Bytes)) :
    (start startMsgRegEx mode files).running = true ∧
      Tracked (start startMsgRegEx mode files) [] := by
  rw [start]
  generalize hs : (⟨.empty, [], .start startMsgRegEx mode, true⟩ : System) = s
  have hrunning : s.running = true := by rw [← hs]
  have htracked : Tracked s [] := by
    rw [← hs]
    exact Tracked.empty startMsgRegEx hmode
  clear hs
  induction files generalizing s with
  | nil => exact ⟨hrunning, htracked⟩
  | cons file files ih =>
    exact ih _ ((addFile_running ..).trans hrunning)
      (htracked.addFile (Or.inl rfl) file.1 file.2)

/-- **A run in which no event does harm.** -/
def SafeRun : System → List SystemOp → Prop
  | _, [] => True
  | s, op :: ops => (op = .handle → s.running = true → s.Safe) ∧ SafeRun (s.step op).1 ops

instance decidableSafeRun : (s : System) → (ops : List SystemOp) → Decidable (SafeRun s ops)
  | _, [] => isTrue trivial
  | s, op :: ops =>
    have := decidableSafeRun (s.step op).1 ops
    inferInstanceAs (Decidable ((op = .handle → s.running = true → s.Safe) ∧ _))

theorem Harmless.run {ops : List SystemOp} {s : System} {calls : List MonitorCall}
    (h : Harmless s calls) (hsafe : SafeRun s ops) :
    Harmless (Machine.run System.step s ops).1 (calls ++ (Machine.run System.step s ops).2) := by
  induction ops generalizing s calls with
  | nil =>
    rw [Machine.run_nil, List.append_nil]
    exact h
  | cons op ops ih =>
    obtain ⟨hop, hops⟩ := hsafe
    rw [Machine.run_cons, ← List.append_assoc]
    exact ih (h.step op hop) hops

/-- **Rotation loses nothing as long as no event does harm**: whenever all events
have been handled, each byte of every file that ever had a record has been passed
to `processBuffer` once. -/
theorem rotation_reads_all (startMsgRegEx : Option DelimiterRegex) (mode : StateMode)
    (hmode : mode.followOnly = false) (files : List (String × Bytes)) (ops : List SystemOp)
    (hsafe : SafeRun (start startMsgRegEx mode files) ops) :
    let out := Machine.run System.step (start startMsgRegEx mode files) ops
    out.1.queue = [] → AllRead out.1 out.2 := by
  intro out hqueue
  obtain ⟨hrunning, htracked⟩ := tracked_start startMsgRegEx hmode files
  rcases Harmless.run (Or.inl ⟨hrunning, htracked⟩) hsafe with ⟨-, h⟩ | ⟨-, h⟩
  · exact h.allRead hqueue
  · exact h hqueue

/-- The modes of an input that neither follows only nor saves its state. -/
def plainMode : StateMode := ⟨false, false, by simp⟩

/-- A file is renamed to a new name, and appended to. -/
theorem rotation_reads_all_renamed :
    AllRead (Machine.run System.step (start none plainMode [("/v/a", ascii "x\n")])
        [.handle, .rename "/v/a" "/v/b", .append "/v/b" (ascii "y\n"), .handle, .handle,
          .handle]).1
      (Machine.run System.step (start none plainMode [("/v/a", ascii "x\n")])
        [.handle, .rename "/v/a" "/v/b", .append "/v/b" (ascii "y\n"), .handle, .handle,
          .handle]).2 :=
  rotation_reads_all none plainMode rfl [("/v/a", ascii "x\n")] _ (by decide +kernel)
    (by decide +kernel)

/-- **A file renamed over another one is not read on.** Both have records; the
record of the first is dropped, as the new name is taken, and what is appended is
never read. -/
theorem renamed_over_not_read :
    ¬∀ (mode : StateMode) (files : List (String × Bytes)) (ops : List SystemOp),
      mode.saveState = false →
      (Machine.run System.step (start none mode files) ops).1.queue = [] →
      AllRead (Machine.run System.step (start none mode files) ops).1
        (Machine.run System.step (start none mode files) ops).2 := by
  intro h
  have h := h plainMode [("/v/a", ascii "x\n"), ("/v/b", ascii "y\n")]
    [.handle, .handle, .rename "/v/a" "/v/b", .handle, .handle, .append "/v/b" (ascii "z\n"),
      .handle] rfl (by decide +kernel)
  revert h
  decide +kernel

end System

end Tail

end IqLogger
