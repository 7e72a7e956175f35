import IqLogger.Inputs.Tail.Directory

/-!
# What is known of a file that is written and renamed

`IqLogger.Tail.System.Tracked` is the invariant of a run in which no record is lost:
every record is on a file of its own, it has been read up to its position, and if
anything of it is unread or its key is out of date, there are events in the queue
that will put this right (`IqLogger.Tail.System.Pending`). A file without a record
has lost its name and was read to its end.

Writers keep the invariant, as files only grow and every change is reported under
the name it was made under (`IqLogger.Tail.System.Tracked.writer` and its uses).
-/

namespace IqLogger

namespace Tail

namespace System

/-! ### The invariant -/

/-- A record is in the table, under a name. -/
def Holds (s : System) (k : String) (ptr : RecordPtr) : Prop :=
  s.monitor.internalTable.lookup k = some (some ptr)

/-- There is an event that makes the monitor process the record under a name. -/
def Notifies (queue : List (EventType × String)) (c : String) : Prop :=
  ∃ t, (t, c) ∈ queue ∧ (t = .init ∨ t = .create ∨ t = .modify)

/-- There is something in the file that the record has not read. -/
def Unread (d : Directory) (r : PointersTableInternalRecord) : Prop :=
  r.fileCurrentPosition < (d.content r.fileDescriptor).length

/-- **What the queue has in store for the record under the key `k`.** If its file
has a name, then that is the key, or the key will be put right; and if something is
unread, an event under the name comes, after the key is put right. If it has lost
its name, then there is an event under the key if something is unread. -/
structure Pending (d : Directory) (queue : List (EventType × String)) (k : String)
    (r : PointersTableInternalRecord) : Prop where
  named : ∀ c, d.file c = some r.fileDescriptor →
    (k = c ∧ (Unread d r → Notifies queue c)) ∨
      ∃ q q', queue = q ++ (.move, k) :: q' ∧ (Unread d r → Notifies q' c)
  nameless : d.Nameless r.fileDescriptor → Unread d r → ∃ t, (t, k) ∈ queue

/-- A record in good order: what it has read is its file, up to its position. -/
structure Sound (d : Directory) (calls : List MonitorCall) (r : PointersTableInternalRecord) :
    Prop where
  symlinkPath : r.symlinkPath = none
  streamFail : r.streamFail = false
  followOnly : r.mode.followOnly = false
  opened : r.fileDescriptor ∈ opened calls
  read : ∃ n : ℕ, r.fileCurrentPosition = n ∧ n ≤ (d.content r.fileDescriptor).length ∧
    bytesRead r.fileDescriptor calls = (d.content r.fileDescriptor).take n

/-- **The invariant of a run without harm**, while the monitor thread runs. -/
structure Tracked (s : System) (calls : List MonitorCall) : Prop where
  name : ∀ c i, s.directory.file c = some i →
    i < s.directory.next ∧ s.directory.path i = c ∧ c ≠ ""
  types : ∀ t c, (t, c) ∈ s.queue → t = .init ∨ t = .create ∨ t = .modify ∨ t = .move
  followOnly : s.monitor.mode.followOnly = false
  entry : ∀ k, s.monitor.internalTable.lookup k ≠ some none
  opened_lt : ∀ i ∈ opened calls, i < s.directory.next
  unopened : ∀ i, i ∉ opened calls → bytesRead i calls = []
  sound : ∀ k ptr, s.Holds k ptr → Sound s.directory calls ptr.record
  unique : ∀ k k' ptr ptr', s.Holds k ptr → s.Holds k' ptr' →
    ptr.record.fileDescriptor = ptr'.record.fileDescriptor → k = k'
  pending : ∀ k ptr, s.Holds k ptr → Pending s.directory s.queue k ptr.record
  kept : ∀ i ∈ opened calls, (∃ k ptr, s.Holds k ptr ∧ ptr.record.fileDescriptor = i) ∨
    s.directory.Nameless i ∧ bytesRead i calls = s.directory.content i

instance (d : Directory) (r : PointersTableInternalRecord) : Decidable (Unread d r) :=
  inferInstanceAs (Decidable (_ < _))

variable {s : System} {calls : List MonitorCall}

theorem Sound.allRead {d : Directory} {r : PointersTableInternalRecord} (h : Sound d calls r)
    (hread : ¬Unread d r) :
    bytesRead r.fileDescriptor calls = d.content r.fileDescriptor := by
  obtain ⟨n, hposition, hn, hread'⟩ := h.read
  rw [Unread, hposition] at hread
  rw [hread', List.take_of_length_le (by omega)]

/-- What was read of a file stays what it is when the file grows. -/
theorem Sound.grow {d d' : Directory} {r : PointersTableInternalRecord} (h : Sound d calls r)
    (hpre : d.content r.fileDescriptor <+: d'.content r.fileDescriptor) : Sound d' calls r := by
  obtain ⟨n, hposition, hn, hread⟩ := h.read
  refine ⟨h.symlinkPath, h.streamFail, h.followOnly, h.opened, n, hposition,
    hn.trans hpre.length_le, ?_⟩
  obtain ⟨rest, hrest⟩ := hpre
  rw [hread, ← hrest, List.take_append_of_le_length hn]

/-- There is one record under a key. -/
theorem Holds.eq {k : String} {ptr ptr' : RecordPtr} (h : s.Holds k ptr) (h' : s.Holds k ptr') :
    ptr = ptr' :=
  Option.some.inj (Option.some.inj (h.symm.trans h'))

theorem Holds.ne_of_free {k f : String} {ptr : RecordPtr} (h : s.Holds k ptr)
    (hfree : s.monitor.internalTable.lookup f = none) : k ≠ f := by
  rintro rfl
  rw [Holds, hfree] at h
  cases h

/-! ### Writers -/

/-- A larger queue has as much in store. -/
theorem Pending.append {d : Directory} {queue : List (EventType × String)} {k : String}
    {r : PointersTableInternalRecord} (h : Pending d queue k r)
    (events : List (EventType × String)) : Pending d (queue ++ events) k r where
  named c hc := by
    have hmono : ∀ {q : List (EventType × String)}, Notifies q c → Notifies (q ++ events) c := by
      rintro q ⟨t, ht, htype⟩
      exact ⟨t, List.mem_append_left _ ht, htype⟩
    rcases h.named c hc with ⟨rfl, hnotifies⟩ | ⟨q, q', rfl, hnotifies⟩
    · exact Or.inl ⟨rfl, fun hunread => hmono (hnotifies hunread)⟩
    · exact Or.inr ⟨q, q' ++ events, by simp, fun hunread => hmono (hnotifies hunread)⟩
  nameless hnameless hunread := by
    obtain ⟨t, ht⟩ := h.nameless hnameless hunread
    exact ⟨t, List.mem_append_left _ ht⟩

/-- What is pending when a directory changes, but not for the file of the record. -/
theorem Pending.congr {d d' : Directory} {queue : List (EventType × String)} {k : String}
    {r : PointersTableInternalRecord} (h : Pending d queue k r)
    (hfile : ∀ c, d'.file c = some r.fileDescriptor ↔ d.file c = some r.fileDescriptor)
    (hcontent : d'.content r.fileDescriptor = d.content r.fileDescriptor) :
    Pending d' queue k r := by
  have hunread : Unread d' r ↔ Unread d r := by rw [Unread, Unread, hcontent]
  refine ⟨fun c hc => ?_, fun hnameless hr => ?_⟩
  · rw [hunread]
    exact h.named c ((hfile c).mp hc)
  · exact h.nameless (fun c hc => hnameless c ((hfile c).mpr hc)) (hunread.mp hr)

/-- **A writer keeps the invariant** if files only grow, the files without a name
stay as they are, and what is pending is kept. -/
theorem Tracked.writer (h : Tracked s calls) {d : Directory} {queue : List (EventType × String)}
    (hname : ∀ c i, d.file c = some i → i < d.next ∧ d.path i = c ∧ c ≠ "")
    (hnext : s.directory.next ≤ d.next)
    (htypes : ∀ t c, (t, c) ∈ queue → t = .init ∨ t = .create ∨ t = .modify ∨ t = .move)
    (hcontent : ∀ i < s.directory.next, s.directory.content i <+: d.content i)
    (hnameless : ∀ i < s.directory.next, s.directory.Nameless i →
      d.Nameless i ∧ d.content i = s.directory.content i)
    (hpending : ∀ k ptr, s.Holds k ptr → Pending d queue k ptr.record) :
    Tracked { s with directory := d, queue := queue } calls where
  name := hname
  types := htypes
  followOnly := h.followOnly
  entry := h.entry
  opened_lt i hi := (h.opened_lt i hi).trans_le hnext
  unopened := h.unopened
  sound k ptr hptr := by
    have hsound := h.sound k ptr hptr
    exact hsound.grow (hcontent _ (h.opened_lt _ hsound.opened))
  unique := h.unique
  pending := hpending
  kept i hi := by
    rcases h.kept i hi with hheld | ⟨hno, hread⟩
    · exact Or.inl hheld
    · -- nobody can write to a file without a name
      obtain ⟨hno', hsame⟩ := hnameless i (h.opened_lt i hi) hno
      exact Or.inr ⟨hno', hread.trans hsame.symm⟩

/-- **A file is made.** -/
theorem Tracked.addFile (h : Tracked s calls) {t : EventType} (ht : t = .init ∨ t = .create)
    (c : String) (bytes : Bytes) : Tracked (s.addFile t c bytes) calls := by
  rw [System.addFile]
  split_ifs with hc
  · obtain ⟨hempty, hfree⟩ := hc
    refine h.writer ?_ (Nat.le_succ _) ?_ ?_ ?_ ?_
    · intro c' i hi
      by_cases heq : c' = c
      · subst heq
        simp only [Directory.create, Function.update_self, Option.some.injEq] at hi
        subst hi
        exact ⟨Nat.lt_succ_self _, Function.update_self .., hempty⟩
      · simp only [Directory.create, Function.update_of_ne heq] at hi
        obtain ⟨hlt, hpath, hne⟩ := h.name c' i hi
        refine ⟨hlt.trans (Nat.lt_succ_self _), ?_, hne⟩
        simpa only [Directory.create, Function.update_of_ne hlt.ne] using hpath
    · intro t' c' hmem
      rcases List.mem_append.mp hmem with hmem | hmem
      · exact h.types t' c' hmem
      · obtain ⟨rfl, -⟩ := Prod.mk.inj (List.mem_singleton.mp hmem)
        rcases ht with rfl | rfl
        · exact Or.inl rfl
        · exact Or.inr (Or.inl rfl)
    · intro i hi
      simp only [Directory.create, Function.update_of_ne hi.ne, List.prefix_refl]
    · intro i hi hno
      refine ⟨fun c' => ?_, by simp only [Directory.create, Function.update_of_ne hi.ne]⟩
      by_cases heq : c' = c
      · subst heq
        simp only [Directory.create, Function.update_self, ne_eq, Option.some.injEq]
        exact hi.ne'
      · simpa only [Directory.create, Function.update_of_ne heq] using hno c'
    · intro k ptr hptr
      -- the file is newer than all files with a record
      have hlt := h.opened_lt _ (h.sound k ptr hptr).opened
      refine ((h.pending k ptr hptr).append _).congr (fun c' => ?_) ?_
      · by_cases heq : c' = c
        · subst heq
          simp only [Directory.create, Function.update_self, hfree, Option.some.injEq, reduceCtorEq,
            iff_false]
          exact hlt.ne'
        · simp only [Directory.create, Function.update_of_ne heq]
      · simp only [Directory.create, Function.update_of_ne hlt.ne]
  · exact h

/-- **Bytes are appended to a file.** -/
theorem Tracked.append (h : Tracked s calls) {c : String} {i : ℕ}
    (hc : s.directory.file c = some i) (bytes : Bytes) :
    Tracked { s with
      directory := s.directory.append i bytes
      queue := s.queue ++ report .modify c } calls := by
  refine h.writer h.name le_rfl ?_ ?_ ?_ ?_
  · intro t c' hmem
    rcases List.mem_append.mp hmem with hmem | hmem
    · exact h.types t c' hmem
    · obtain ⟨rfl, -⟩ := Prod.mk.inj (List.mem_singleton.mp hmem)
      exact Or.inr (Or.inr (Or.inl rfl))
  · intro j _
    by_cases heq : j = i
    · subst heq
      simp only [Directory.append, Function.update_self]
      exact List.prefix_append ..
    · simp only [Directory.append, Function.update_of_ne heq, List.prefix_refl]
  · intro j _ hno
    have hne : j ≠ i := by
      rintro rfl
      exact hno c hc
    exact ⟨hno, by simp only [Directory.append, Function.update_of_ne hne]⟩
  · intro k ptr hptr
    have hpending := (h.pending k ptr hptr).append (report .modify c)
    by_cases heq : ptr.record.fileDescriptor = i
    · -- the new event is under the name of the file
      have hnotifies : ∀ {q : List (EventType × String)}, Notifies (q ++ report .modify c) c :=
        ⟨.modify, List.mem_append_right _ (List.mem_singleton_self _), Or.inr (Or.inr rfl)⟩
      refine ⟨fun c' hc' => ?_, fun hno => ?_⟩
      · obtain rfl : c' = c := by
          rw [← (h.name c' _ hc').2.1, ← (h.name c _ hc).2.1, heq]
        rcases (h.pending k ptr hptr).named c' hc' with ⟨rfl, -⟩ | ⟨q, q', hq, -⟩
        · exact Or.inl ⟨rfl, fun _ => hnotifies⟩
        · exact Or.inr ⟨q, q' ++ report .modify c', by simp [hq], fun _ => hnotifies⟩
      · exact absurd (heq ▸ hc) (hno c)
    · exact hpending.congr (fun _ => Iff.rfl)
        (by simp only [Directory.append, Function.update_of_ne heq])

/-- **What is pending for a file that is renamed**: its key is put right by the first of
the two events, or by an earlier move. -/
theorem Pending.renamed {d : Directory} {queue : List (EventType × String)} {k f g : String}
    {r : PointersTableInternalRecord} (h : Pending d queue k r)
    (hf : d.file f = some r.fileDescriptor)
    (hname : ∀ c, d.file c = some r.fileDescriptor → c = f) :
    Pending (d.rename r.fileDescriptor f g)
      (queue ++ (report .movedFrom f ++ report .movedTo g)) k r := by
  have hfile := d.file_rename r.fileDescriptor f g
  refine ⟨fun c hc => ?_, fun hno => absurd (by rw [hfile, if_pos rfl]) (hno g)⟩
  obtain rfl : c = g := by
    rw [hfile] at hc
    split_ifs at hc with hcg hcf
    · exact hcg
    · exact absurd (hname c hc) hcf
  have hcreate : ∀ q : List (EventType × String), Notifies (q ++ report .movedTo c) c := fun q =>
    ⟨.create, List.mem_append_right _ (List.mem_singleton_self _), Or.inr (Or.inl rfl)⟩
  rcases h.named f hf with ⟨rfl, -⟩ | ⟨q, q', hq, -⟩
  · exact Or.inr ⟨queue, report .movedTo c, rfl, fun _ => hcreate []⟩
  · refine Or.inr ⟨q, q' ++ (report .movedFrom f ++ report .movedTo c), by simp [hq], fun _ => ?_⟩
    rw [← List.append_assoc]
    exact hcreate _

/-- **What is pending for a file that loses its name** to the one that is renamed: an
event under its key, if there is something to read. -/
theorem Pending.replaced {d : Directory} {queue : List (EventType × String)} {k f g : String}
    {r : PointersTableInternalRecord} {i : ℕ} (h : Pending d queue k r)
    (hg : d.file g = some r.fileDescriptor) (hi : r.fileDescriptor ≠ i)
    (hname : ∀ c, d.file c = some r.fileDescriptor → c = g) :
    Pending (d.rename i f g) (queue ++ (report .movedFrom f ++ report .movedTo g)) k r := by
  refine ⟨fun c hc => ?_, fun _ hunread => ?_⟩
  · rw [d.file_rename i f g] at hc
    split_ifs at hc with hcg hcf
    · exact absurd (Option.some.inj hc).symm hi
    · exact absurd (hname c hc) hcg
  · rcases h.named g hg with ⟨rfl, hnotifies⟩ | ⟨q, q', hq, -⟩
    · obtain ⟨t, ht, -⟩ := hnotifies hunread
      exact ⟨t, List.mem_append_left _ ht⟩
    · exact ⟨.move, List.mem_append_left _ (by simp [hq])⟩

/-- **A file is renamed.** -/
theorem Tracked.rename (h : Tracked s calls) {f g : String} {i : ℕ}
    (hf : s.directory.file f = some i) (hg : g ≠ "") (hne : f ≠ g) :
    Tracked { s with
      directory := s.directory.rename i f g
      queue := s.queue ++ (report .movedFrom f ++ report .movedTo g) } calls := by
  have hfile := s.directory.file_rename i f g
  have hevents : ∀ t c, (t, c) ∈ report .movedFrom f ++ report .movedTo g →
      t = .move ∨ t = .create := by
    intro t c hmem
    rcases List.mem_append.mp hmem with hmem | hmem
    · exact Or.inl (Prod.mk.inj (List.mem_singleton.mp hmem)).1
    · exact Or.inr (Prod.mk.inj (List.mem_singleton.mp hmem)).1
  have hname : ∀ {c j}, s.directory.file c = some j → s.directory.path j = c :=
    fun hc => (h.name _ _ hc).2.1
  refine h.writer (Directory.name_rename h.name hf hg) le_rfl ?_ (fun j _ => List.prefix_refl _)
    ?_ ?_
  · intro t c hmem
    rcases List.mem_append.mp hmem with hmem | hmem
    · exact h.types t c hmem
    · rcases hevents t c hmem with rfl | rfl
      · exact Or.inr (Or.inr (Or.inr rfl))
      · exact Or.inr (Or.inl rfl)
  · intro j _ hno
    refine ⟨fun c => ?_, rfl⟩
    rw [hfile]
    split_ifs
    · rintro hij
      exact hno f (hf.trans hij)
    · simp
    · exact hno c
  · intro k ptr hptr
    have hold := h.pending k ptr hptr
    by_cases hi : ptr.record.fileDescriptor = i
    · subst hi
      exact hold.renamed hf fun c hc => (hname hc).symm.trans (hname hf)
    · by_cases hj : s.directory.file g = some ptr.record.fileDescriptor
      · exact hold.replaced hj hi fun c hc => (hname hc).symm.trans (hname hj)
      · refine (hold.append _).congr (fun c => ?_) rfl
        rw [hfile]
        split_ifs with hcg hcf
        · subst hcg
          exact iff_of_false (fun heq => hi (Option.some.inj heq).symm) hj
        · subst hcf
          refine iff_of_false (by simp) fun heq => hi ?_
          exact Option.some.inj (heq.symm.trans hf)
        · exact Iff.rfl

end System

end Tail

end IqLogger
