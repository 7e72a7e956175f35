import IqLogger.Inputs.Tail.EventFailures
import IqLogger.Inputs.Tail.Threads

/-!
# What several monitor threads read

An event that a thread handles is about the record under its name, or makes one, or moves
one. Whatever the threads have in hand, the invariant
(`IqLogger.Tail.Threads.Orderly`) only asks which events are still to come, and an event
that is handled does what it was to come for: it reads a file to its end
(`IqLogger.Tail.Threads.Orderly.processRecord`), or puts a key right
(`IqLogger.Tail.Threads.Orderly.move`).

So all is read once, by however many threads, as long as no step does harm
(`IqLogger.Tail.Threads.read_once`). The last thread must not end while there is something
in the queue: nobody would ever handle that (`IqLogger.Tail.Threads.Attended`). Two threads
can handle the two events of one rename in the wrong order: if the new name comes first,
then a second record is made for the file, and it reads what the first one has read already
(`IqLogger.Tail.Threads.renamed_read_twice`).
-/

namespace IqLogger

namespace Tail

namespace Threads

variable {k : ℕ} {s : Threads k}

/-! ### The monitor threads -/

section Handle

variable {t : EventType} {f : String} {after : Bulks (Fin k) (EventType × String)}

/-- An event that is handled leaves the others pending. -/
theorem Notified.tail {pending rest : Multiset (EventType × String)} {c : String}
    (h : Notified pending c) (hrest : pending = (t, f) ::ₘ rest) (hne : t = .move ∨ c ≠ f) :
    Notified rest c := by
  obtain ⟨t', hmove, ht'⟩ := h
  rw [hrest] at ht'
  refine ⟨t', hmove, (Multiset.mem_cons.mp ht').resolve_left fun heq => ?_⟩
  obtain ⟨rfl, rfl⟩ := Prod.mk.inj heq
  rcases hne with rfl | hne
  · exact hmove rfl
  · exact hne rfl

/-- What is known of the events survives. -/
theorem Orderly.known_after (h : Orderly s) (hafter : s.events.pending = (t, f) ::ₘ after.pending)
    {t' : EventType} {c : String} (hmem : (t', c) ∈ after.pending) :
    (t' = .init ∨ t' = .create ∨ t' = .modify ∨ t' = .move) ∧ s.owner c ≠ none :=
  h.known t' c (hafter ▸ Multiset.mem_cons_of_mem hmem)

/-- A move of another name is still to come. -/
theorem Orderly.moved_after (h : Orderly s) (hafter : s.events.pending = (t, f) ::ₘ after.pending)
    {c : String} {ptr : RecordPtr} (hptr : s.system.Holds c ptr) (hne : t ≠ .move ∨ c ≠ f) :
    c = s.directory.path ptr.record.fileDescriptor ∨ (.move, c) ∈ after.pending := by
  refine (h.moved c ptr hptr).imp_right fun hmem => ?_
  rw [hafter] at hmem
  refine (Multiset.mem_cons.mp hmem).resolve_left fun heq => ?_
  obtain ⟨rfl, rfl⟩ := Prod.mk.inj heq
  simp at hne

/-- **A move of a name without a record** changes nothing. -/
theorem Orderly.skip (h : Orderly s) (hafter : s.events.pending = (.move, f) ::ₘ after.pending)
    (hfree : s.monitor.internalTable.lookup f = none) : Orderly { s with events := after } :=
  { h with
    known := fun _ _ hmem => h.known_after hafter hmem
    found := fun i hi hopen => (h.found i hi hopen).tail hafter (Or.inl rfl)
    moved := fun _ _ hptr =>
      h.moved_after hafter hptr (Or.inr (System.Holds.ne_of_free hptr hfree))
    unread := fun c ptr hptr hunread =>
      (h.unread c ptr hptr hunread).tail hafter (Or.inl rfl) }

/-- **A record cannot be made for a name that is gone**: what is left is an entry that
nothing will be asked of. -/
theorem Orderly.fail (h : Orderly s) (hafter : s.events.pending = (t, f) ::ₘ after.pending)
    (ht : t ≠ .move) (hfree : s.monitor.internalTable.lookup f = none)
    (hgone : s.directory.file f = none) :
    Orderly { s with
      events := after
      monitor := { s.monitor with internalTable := s.monitor.internalTable.insert f none } } := by
  have hknown := (h.known t f (hafter ▸ Multiset.mem_cons_self ..)).2
  have hpath : ∀ {i}, i < s.directory.next → s.directory.path i ≠ f := by
    intro i hi heq
    rw [← heq, h.named i hi] at hgone
    cases hgone
  have hholds : ∀ {c p}, (s.monitor.internalTable.insert f none).lookup c = some (some p) →
      s.system.Holds c p := by
    intro c p hc
    rcases AList.lookup_insert_eq_some.mp hc with ⟨-, hnone⟩ | ⟨-, hc⟩
    · cases hnone
    · exact hc
  refine { h with
    known := fun _ _ hmem => h.known_after hafter hmem
    entry := fun c hc => ?_
    found := fun i hi hopen => (h.found i hi hopen).tail hafter (Or.inr (hpath hi))
    held := fun i hi => ?_
    sound := fun c ptr hptr => h.sound c ptr (hholds hptr)
    key := fun c ptr hptr => h.key c ptr (hholds hptr)
    unique := fun c c' ptr ptr' hptr hptr' => h.unique c c' ptr ptr' (hholds hptr) (hholds hptr')
    moved := fun c ptr hptr => h.moved_after hafter (hholds hptr) (Or.inl ht)
    unread := fun c ptr hptr hunread => (h.unread c ptr (hholds hptr) hunread).tail hafter
      (Or.inr (hpath (h.lt (hholds hptr)))) }
  · rcases AList.lookup_insert_eq_some.mp hc with ⟨rfl, -⟩ | ⟨-, hc⟩
    · exact ⟨hgone, hknown⟩
    · exact h.entry c hc
  · obtain ⟨hlt, c, ptr, hptr, heq⟩ := h.held i hi
    refine ⟨hlt, c, ptr, ?_, heq⟩
    exact (AList.lookup_insert_ne (hptr.ne_of_free hfree)).trans hptr

/-- **The record under a name is changed, and possibly put under another one**, while an
event of that name is handled. -/
theorem Orderly.replace (h : Orderly s) (hafter : s.events.pending = (t, f) ::ₘ after.pending)
    {ptr : RecordPtr} (hptr : s.system.Holds f ptr) (ptr' : RecordPtr) (c : String)
    (m : TailMonitor) (new : List MonitorCall)
    (hfd : ptr'.record.fileDescriptor = ptr.record.fileDescriptor)
    (hc : c = f ∨ s.monitor.internalTable.lookup c = none)
    (howner : s.owner c = some ptr.record.fileDescriptor) (hmode : m.mode = s.monitor.mode)
    (hlookup : ∀ k, m.internalTable.lookup k =
      if k = c then some (some ptr') else if k = f then none else s.monitor.internalTable.lookup k)
    (hopened : opened new = []) (hread : ∀ i, i ≠ ptr.record.fileDescriptor → bytesRead i new = [])
    (hsound : System.Sound s.directory (s.calls ++ new) ptr'.record)
    (hmoved : c = s.directory.path ptr.record.fileDescriptor ∨ (.move, c) ∈ after.pending)
    (hunread : System.Unread s.directory ptr'.record →
      Notified after.pending (s.directory.path ptr.record.fileDescriptor)) :
    Orderly { s with events := after, monitor := m, calls := s.calls ++ new } := by
  -- a record afterwards is the one that was changed, or one under another key
  have hholds : ∀ {k p}, m.internalTable.lookup k = some (some p) →
      (k = c ∧ p = ptr') ∨ (k ≠ f ∧ s.system.Holds k p) := by
    intro k p hk
    rw [hlookup] at hk
    split_ifs at hk with hkc hkf
    · exact Or.inl ⟨hkc, (Option.some.inj (Option.some.inj hk)).symm⟩
    · exact Or.inr ⟨hkf, hk⟩
  have hothers : ∀ {k p}, k ≠ f → s.system.Holds k p →
      p.record.fileDescriptor ≠ ptr.record.fileDescriptor :=
    fun hk hp heq => hk (h.unique _ _ _ _ hp hptr heq)
  -- the name of the event belongs to the record, so it is not the name of another file
  have hpath : ∀ {i}, i < s.directory.next → i ≠ ptr.record.fileDescriptor →
      s.directory.path i ≠ f := by
    intro i hi hne heq
    have hi' := h.owner_path hi
    rw [heq, h.key f ptr hptr] at hi'
    exact hne (Option.some.inj hi').symm
  have hopened' : opened (s.calls ++ new) = opened s.calls := by
    rw [opened_append, hopened, List.append_nil]
  have hmem : ptr.record.fileDescriptor ∈ opened s.calls := (h.sound f ptr hptr).opened
  have hnot : ∀ {i}, i ∉ opened s.calls → i ≠ ptr.record.fileDescriptor :=
    fun hi heq => hi (heq ▸ hmem)
  refine { h with
    known := fun _ _ hmem => h.known_after hafter hmem
    followOnly := (congrArg _ hmode).trans h.followOnly
    entry := fun k hk => ?_
    unopened := fun i hi => ?_
    found := fun i hi hopen => ?_
    held := fun i hi => ?_
    sound := fun k p hk => ?_
    key := fun k p hk => ?_
    unique := fun k k' p p' hk hk' heq => ?_
    moved := fun k p hk => ?_
    unread := fun k p hk hunread' => ?_ }
  · dsimp only at hk
    rw [hlookup] at hk
    split_ifs at hk with hkc hkf
    · cases hk
    · exact h.entry k hk
  · rw [hopened'] at hi
    rw [bytesRead_append, h.unopened i hi, hread i (hnot hi), List.append_nil]
  · rw [hopened'] at hopen
    exact (h.found i hi hopen).tail hafter (Or.inr (hpath hi (hnot hopen)))
  · rw [hopened'] at hi
    obtain ⟨hlt, k, p, hp, hi'⟩ := h.held i hi
    refine ⟨hlt, ?_⟩
    by_cases hkf : k = f
    · subst hkf
      obtain rfl := hp.eq hptr
      exact ⟨c, ptr', (hlookup c).trans (if_pos rfl), hfd.trans hi'⟩
    · refine ⟨k, p, (hlookup k).trans ?_, hi'⟩
      rw [if_neg, if_neg hkf]
      · exact hp
      · rintro rfl
        rcases hc with hc | hc
        · exact hkf hc
        · exact hp.ne_of_free hc rfl
  · rcases hholds hk with ⟨rfl, rfl⟩ | ⟨hkf, hp⟩
    · exact hsound
    · exact (h.sound k p hp).mono (hread _ (hothers hkf hp))
  · rcases hholds hk with ⟨rfl, rfl⟩ | ⟨-, hp⟩
    · rw [hfd, howner]
    · exact h.key k p hp
  · rcases hholds hk with ⟨rfl, rfl⟩ | ⟨hkf, hp⟩
    · rcases hholds hk' with ⟨rfl, -⟩ | ⟨hkf', hp'⟩
      · rfl
      · exact absurd (heq.symm.trans hfd) (hothers hkf' hp')
    · rcases hholds hk' with ⟨rfl, rfl⟩ | ⟨-, hp'⟩
      · exact absurd (heq.trans hfd) (hothers hkf hp)
      · exact h.unique k k' p p' hp hp' heq
  · rcases hholds hk with ⟨rfl, rfl⟩ | ⟨hkf, hp⟩
    · rw [hfd]
      exact hmoved
    · exact h.moved_after hafter hp (Or.inr hkf)
  · rcases hholds hk with ⟨rfl, rfl⟩ | ⟨hkf, hp⟩
    · rw [hfd]
      exact hunread hunread'
    · exact (h.unread k p hp hunread').tail hafter
        (Or.inr (hpath (h.lt hp) (hothers hkf hp)))

/-- **A record is processed**, at an event under its key. -/
theorem Orderly.processRecord (h : Orderly s) (hafter : s.events.pending = (t, f) ::ₘ after.pending)
    (ht : t ≠ .move) {ptr : RecordPtr} (hptr : s.system.Holds f ptr) :
    let out := s.monitor.processRecord s.directory.toFileSystem f ptr
    Orderly { s with events := after, monitor := out.monitor, calls := s.calls ++ out.calls } := by
  intro out
  obtain ⟨hsound, hread, hfd⟩ := (h.sound f ptr hptr).process
  let ptr' : RecordPtr :=
    { ptr with record := (ptr.record.process (s.directory.content ptr.record.fileDescriptor)).1 }
  refine h.replace hafter hptr ptr' f out.monitor out.calls hfd (Or.inl rfl) (h.key f ptr hptr) rfl
    (fun k => ?_) (opened_calls ..) (fun i hi => (bytesRead_calls ..).trans (if_neg hi.symm))
    hsound (h.moved_after hafter hptr (Or.inl ht)) (fun hunread => absurd hunread hread)
  rw [TailMonitor.lookup_processRecord]
  split_ifs <;> rfl

/-- **A record is made** for a file that no record is on, while an event of its name is
pending. -/
theorem Orderly.createRecord (h : Orderly s) (hpending : Notified s.events.pending f)
    (hfree : s.monitor.internalTable.lookup f = none) {ptr : RecordPtr}
    (hptr : s.monitor.createRecord s.directory.toFileSystem (fun _ => 0) ⟨f, none⟩ = some ptr)
    (hsafe : ∀ c p, s.system.Holds c p → p.record.fileDescriptor ≠ ptr.record.fileDescriptor) :
    Orderly { s with
      monitor := { s.monitor with
        internalTable := s.monitor.internalTable.insert f (some ptr)
        created := s.monitor.created + 1 }
      calls := s.calls ++ [.createRecord ptr.id ptr.record.fileDescriptor] } := by
  obtain ⟨hfile, hlink, hfail, hmode, hposition⟩ := @System.createRecord_spec s.system f ptr hptr
  obtain ⟨hlt, hpath, -⟩ := h.name f _ hfile
  have hnew : ptr.record.fileDescriptor ∉ opened s.calls := by
    intro hmem
    obtain ⟨-, c, p, hp, heq⟩ := h.held _ hmem
    exact hsafe c p hp heq
  have hholds : ∀ {c p}, (s.monitor.internalTable.insert f (some ptr)).lookup c = some (some p) →
      (c = f ∧ p = ptr) ∨ (c ≠ f ∧ s.system.Holds c p) := by
    intro c p hc
    refine (AList.lookup_insert_eq_some.mp hc).imp_left fun ⟨hcf, hp⟩ => ⟨hcf, ?_⟩
    exact (Option.some.inj hp).symm
  have hopened : ∀ {i}, i ∈ opened (s.calls ++ [.createRecord ptr.id ptr.record.fileDescriptor]) ↔
      i ∈ opened s.calls ∨ i = ptr.record.fileDescriptor := by
    intro i
    rw [opened_append, opened_createRecord, List.mem_append, List.mem_singleton]
  refine { h with
    entry := fun c hc => ?_
    unopened := fun i hi => ?_
    found := fun i hi hopen => h.found i hi fun hmem => hopen (hopened.mpr (Or.inl hmem))
    held := fun i hi => ?_
    sound := fun c p hc => ?_
    key := fun c p hc => ?_
    unique := fun c c' p p' hc hc' heq => ?_
    moved := fun c p hc => ?_
    unread := fun c p hc hunread => ?_ }
  · rcases AList.lookup_insert_eq_some.mp hc with ⟨-, hnone⟩ | ⟨-, hc⟩
    · cases hnone
    · exact h.entry c hc
  · rw [hopened, not_or] at hi
    rw [bytesRead_append, h.unopened i hi.1, bytesRead_createRecord, List.append_nil]
  · rcases hopened.mp hi with hi | rfl
    · obtain ⟨hlt', c, p, hp, heq⟩ := h.held i hi
      exact ⟨hlt', c, p, (AList.lookup_insert_ne (hp.ne_of_free hfree)).trans hp, heq⟩
    · exact ⟨hlt, f, ptr, AList.lookup_insert .., rfl⟩
  · rcases hholds hc with ⟨rfl, rfl⟩ | ⟨-, hp⟩
    · -- the new record has read nothing of its file
      refine ⟨hlink, hfail, ?_, hopened.mpr (Or.inr rfl), 0, hposition, Nat.zero_le _, ?_⟩
      · rw [hmode]
        exact h.followOnly
      · rw [bytesRead_append, h.unopened _ hnew, bytesRead_createRecord, List.take_zero,
          List.append_nil]
    · exact (h.sound c p hp).mono rfl
  · rcases hholds hc with ⟨rfl, rfl⟩ | ⟨-, hp⟩
    · exact h.owner c _ hfile
    · exact h.key c p hp
  · rcases hholds hc with ⟨rfl, rfl⟩ | ⟨-, hp⟩
    · rcases hholds hc' with ⟨rfl, -⟩ | ⟨-, hp'⟩
      · rfl
      · exact absurd heq.symm (hsafe c' p' hp')
    · rcases hholds hc' with ⟨rfl, rfl⟩ | ⟨-, hp'⟩
      · exact absurd heq (hsafe c p hp)
      · exact h.unique c c' p p' hp hp' heq
  · rcases hholds hc with ⟨rfl, rfl⟩ | ⟨-, hp⟩
    · exact Or.inl hpath.symm
    · exact h.moved c p hp
  · rcases hholds hc with ⟨rfl, rfl⟩ | ⟨-, hp⟩
    · exact hpath.symm ▸ hpending
    · exact h.unread c p hp hunread

/-- **A record is moved** to the name its file has. Nothing else can be there, since the name
belongs to the file. -/
theorem Orderly.move (h : Orderly s) (hafter : s.events.pending = (.move, f) ::ₘ after.pending)
    {ptr : RecordPtr} (hptr : s.system.Holds f ptr) :
    Orderly { s with
      events := after
      monitor := (s.monitor.move s.directory.toFileSystem ⟨f, none⟩).monitor } := by
  have hlt := h.lt hptr
  have hfile := h.named _ hlt
  have hsound := h.sound f ptr hptr
  have hname : ptr.record.getCurrentFileName s.directory.toFileSystem =
      some (s.directory.path ptr.record.fileDescriptor) := by
    simp [PointersTableInternalRecord.getCurrentFileName, Directory.toFileSystem,
      (h.name _ _ hfile).2.2]
  have hunread : System.Unread s.directory ptr.record →
      Notified after.pending (s.directory.path ptr.record.fileDescriptor) := fun hunread =>
    (h.unread f ptr hptr hunread).tail hafter (Or.inl rfl)
  generalize hpath : s.directory.path ptr.record.fileDescriptor = name at *
  have howner : s.owner name = some ptr.record.fileDescriptor := h.owner _ _ hfile
  by_cases hsame : name = f
  · subst hsame
    rw [TailMonitor.move_of_same (m := s.monitor) ⟨name, none⟩ hptr hname]
    have hkeep := h.replace hafter hptr ptr name s.monitor [] rfl (Or.inl rfl) howner rfl
      (fun k => ?_) rfl (fun _ _ => rfl) (by rwa [List.append_nil]) (Or.inl hpath.symm)
      (by rwa [hpath])
    · rwa [List.append_nil] at hkeep
    · split_ifs with hk
      · rw [hk]
        exact hptr
      · rfl
  · have hlookup := fun k => TailMonitor.lookup_move (m := s.monitor) ⟨f, none⟩ k hptr hname hsame
    have hmode := (TailMonitor.move_spec (m := s.monitor) ⟨f, none⟩ hptr hname).2.2
    have hfree : s.monitor.internalTable.lookup name = none := by
      cases hentry : s.monitor.internalTable.lookup name with
      | none => rfl
      | some entry =>
        cases entry with
        | none =>
          rw [(h.entry name hentry).1] at hfile
          cases hfile
        | some p =>
          have hkey := h.key name p hentry
          rw [howner] at hkey
          exact absurd (h.unique name f p ptr hentry hptr (Option.some.inj hkey).symm) hsame
    have hkeep := h.replace hafter hptr { ptr with record := ptr.record.rename name } name _ [] rfl
      (Or.inr hfree) howner hmode (fun k => ?_) rfl (fun _ _ => rfl)
      (by rw [List.append_nil]; exact hsound.rename name) (Or.inl hpath.symm) (by rwa [hpath])
    · rwa [List.append_nil] at hkeep
    · rw [hlookup]
      by_cases hk : k = name
      · subst hk
        rw [if_neg hsame, if_pos ⟨rfl, hfree⟩, if_pos rfl]
      · rw [if_neg hk]
        split_ifs with hkf hand
        · rfl
        · exact absurd hand.1 hk
        · rfl

/-- **An event is handled**, when that does no harm. -/
theorem Orderly.handle (h : Orderly s) {w : Fin k} {event : EventType × String}
    (hcurrent : s.events.current w = some event) (hsafe : s.Harmless (.handle w)) :
    Orderly (s.handle w event) := by
  obtain ⟨t, f⟩ := event
  have hafter := Bulks.pending_advance hcurrent
  have htype := (h.known t f (Bulks.mem_pending_of_current hcurrent)).1
  have hsafe := hsafe (t, f) hcurrent
  dsimp only at hsafe
  by_cases hmove : t = .move
  · subst hmove
    have hhandle : s.monitor.handle s.directory.toFileSystem (fun _ => 0) ⟨0, .move, ⟨f, none⟩⟩ =
        s.monitor.move s.directory.toFileSystem ⟨f, none⟩ := rfl
    rw [Threads.handle, hhandle]
    cases hlookup : s.monitor.internalTable.lookup f with
    | none =>
      have hout : s.monitor.move s.directory.toFileSystem ⟨f, none⟩ = ⟨s.monitor, [], .done⟩ := by
        rw [TailMonitor.move, hlookup]
      rw [hout, List.append_nil]
      exact h.skip hafter hlookup
    | some entry =>
      cases entry with
      | none =>
        rw [hlookup] at hsafe
        cases (hsafe rfl).1
      | some ptr =>
        obtain ⟨hcalls, houtcome, -⟩ :=
          @TailMonitor.move_spec s.directory.toFileSystem s.monitor ⟨f, none⟩ ptr hlookup _ rfl
        rw [hcalls, houtcome, List.append_nil]
        exact h.move hafter hlookup
  · have hhandle : s.monitor.handle s.directory.toFileSystem (fun _ => 0) ⟨0, t, ⟨f, none⟩⟩ =
        s.monitor.modify s.directory.toFileSystem (fun _ => 0) ⟨f, none⟩ := by
      rcases htype with rfl | rfl | rfl | rfl
      · rfl
      · rfl
      · rfl
      · exact absurd rfl hmove
    rw [Threads.handle, hhandle]
    cases hlookup : s.monitor.internalTable.lookup f with
    | some entry =>
      cases entry with
      | none =>
        rw [hlookup] at hsafe
        cases (hsafe rfl).1
      | some ptr =>
        rw [TailMonitor.modify_of_lookup ⟨f, none⟩ hlookup]
        exact h.processRecord hafter hmove hlookup
    | none =>
      rw [hlookup] at hsafe
      obtain ⟨-, hsafe⟩ := hsafe rfl
      obtain ⟨hfresh, hlast⟩ := hsafe.resolve_left hmove
      cases hptr : s.monitor.createRecord s.directory.toFileSystem (fun _ => 0) ⟨f, none⟩ with
      | some ptr =>
        have hfile := (@System.createRecord_spec s.system f ptr hptr).1
        have hcreated := h.createRecord ⟨t, hmove, Bulks.mem_pending_of_current hcurrent⟩ hlookup
          hptr fun c p hp => hfresh _ hfile p (System.mem_records hp)
        have hrecord := hcreated.processRecord hafter hmove (AList.lookup_insert ..)
        rw [TailMonitor.modify_of_createRecord ⟨f, none⟩ hlookup hptr]
        simp only [TailMonitor.processRecord, AList.insert_insert, List.append_assoc,
          List.singleton_append] at hrecord
        exact hrecord
      | none =>
        have hgone : s.directory.file f = none := Option.map_eq_none_iff.mp hptr
        have hout : s.monitor.modify s.directory.toFileSystem (fun _ => 0) ⟨f, none⟩ =
            ⟨{ s.monitor with internalTable := s.monitor.internalTable.insert f none }, [],
              .thrown⟩ := by
          simp only [TailMonitor.modify, hlookup, hptr]
        rw [hout, List.append_nil]
        exact h.fail (Bulks.pending_leave (hlast hgone).1) hmove hlookup hgone

end Handle

/-! ### Runs -/

/-- **The invariant survives a step that does no harm.** -/
theorem Orderly.step (h : Orderly s) {op : ThreadsOp k} {s' : Threads k} (hsafe : s.Harmless op)
    (hstep : s.step op = some s') : Orderly s' := by
  cases op with
  | append c bytes =>
    rw [Threads.step] at hstep
    split at hstep
    · next i hi =>
      cases hstep
      exact h.append hi bytes
    · cases hstep
  | rename f g =>
    rw [Threads.step] at hstep
    split at hstep
    · next i hi =>
      split_ifs at hstep with hg
      cases hstep
      exact h.rename hi hg.1 hg.2
    · cases hstep
  | take t n =>
    rw [Threads.step] at hstep
    split_ifs at hstep with ht
    cases hstep
    exact h.take ht n
  | handle t =>
    obtain ⟨event, hevent, rfl⟩ := Option.map_eq_some_iff.mp hstep
    exact h.handle hevent hsafe

/-- **The queue is attended after a step that does no harm**: a thread that ends by an
exception leaves it to another one, or empty. -/
theorem attended_of_step {op : ThreadsOp k} {s' : Threads k}
    (hsafe : s.Harmless op) (hstep : s.step op = some s') : Attended s' := by
  cases op with
  | append c bytes =>
    rw [Threads.step] at hstep
    split at hstep
    · cases hstep
      exact fun _ => hsafe
    · cases hstep
  | rename f g =>
    rw [Threads.step] at hstep
    split at hstep
    · split_ifs at hstep
      cases hstep
      exact fun _ => hsafe
    · cases hstep
  | take t n =>
    rw [Threads.step] at hstep
    split_ifs at hstep
    cases hstep
    exact fun _ => ⟨t, by simp [Living, Bulks.take]⟩
  | handle t =>
    obtain ⟨event, hevent, rfl⟩ := Option.map_eq_some_iff.mp hstep
    have hsafe := hsafe event hevent
    dsimp only at hsafe
    obtain ⟨hcrashed, hthrown⟩ := @TailMonitor.outcome_handle s.directory.toFileSystem s.monitor
      ⟨0, event.1, ⟨event.2, none⟩⟩ fun _ => 0
    rw [Threads.handle]
    cases hout : (s.monitor.handle s.directory.toFileSystem (fun _ => 0)
      ⟨0, event.1, ⟨event.2, none⟩⟩).outcome with
    | done =>
      obtain ⟨xs, hxs⟩ := Bulks.current_eq_some.mp hevent
      exact fun _ => ⟨t, by simp [Living, Bulks.advance, hxs]⟩
    | thrown =>
      -- in a directory of plain files only the making of a record throws
      rcases hthrown.mp hout with ⟨hmod, hfree, hgone⟩ | ⟨-, ptr, -, hlink⟩ | ⟨-, ptr, -, herase⟩
      · have hmove : event.1 ≠ .move := by
          rcases hmod with hmod | hmod | hmod <;> exact fun hc => by rw [hc] at hmod; cases hmod
        obtain ⟨-, hsafe⟩ := hsafe (by rw [hfree]; rfl)
        obtain ⟨-, hothers⟩ := (hsafe.resolve_left hmove).2 hgone
        rcases hothers with ⟨t', hne, hliving⟩ | hempty
        · exact fun _ => ⟨t', by simpa [Living, Bulks.leave, hne] using hliving⟩
        · exact fun hqueue => absurd hempty hqueue
      · cases hlink
      · rcases herase with herase | ⟨path, -, hstatus⟩
        · cases herase
        · cases hstatus
    | crashed =>
      obtain ⟨-, hempty⟩ := hcrashed.mp hout
      obtain ⟨hfree, -⟩ := hsafe (by rw [hempty]; rfl)
      rw [hempty] at hfree
      cases hfree

/-- What is known of a directory that has just been scanned. -/
structure Scanned (s : System) (startMsgRegEx : Option DelimiterRegex) (mode : StateMode) :
    Prop where
  named : ∀ i < s.directory.next, s.directory.file (s.directory.path i) = some i
  name : ∀ c i, s.directory.file c = some i →
    i < s.directory.next ∧ s.directory.path i = c ∧ c ≠ ""
  known : ∀ t c, (t, c) ∈ s.queue → t = .init ∧ s.directory.file c ≠ none
  found : ∀ i < s.directory.next, (.init, s.directory.path i) ∈ s.queue
  monitor : s.monitor = .start startMsgRegEx mode

theorem Scanned.addFile {s : System} {startMsgRegEx : Option DelimiterRegex} {mode : StateMode}
    (h : Scanned s startMsgRegEx mode) (c : String) (bytes : Bytes) :
    Scanned (s.addFile .init c bytes) startMsgRegEx mode := by
  rw [System.addFile]
  split_ifs with hc
  · obtain ⟨hempty, hfree⟩ := hc
    have hself : (s.directory.create c bytes).path s.directory.next = c := Function.update_self ..
    have hother : ∀ {i}, i ≠ s.directory.next →
        (s.directory.create c bytes).path i = s.directory.path i :=
      fun hi => Function.update_of_ne hi ..
    have hfile : ∀ c', (s.directory.create c bytes).file c' =
        if c' = c then some s.directory.next else s.directory.file c' :=
      fun c' => Function.update_apply ..
    refine ⟨fun i hi => ?_, fun c' i hi => ?_, fun t c' hmem => ?_, fun i hi => ?_, h.monitor⟩
    · rcases Nat.lt_succ_iff_lt_or_eq.mp hi with hi | rfl
      · dsimp only
        rw [hother hi.ne, hfile, if_neg, h.named i hi]
        rintro heq
        have hi' := h.named i hi
        rw [heq, hfree] at hi'
        cases hi'
      · dsimp only
        rw [hself, hfile, if_pos rfl]
    · dsimp only at hi ⊢
      rw [hfile] at hi
      split_ifs at hi with hcc
      · obtain rfl := Option.some.inj hi
        exact ⟨Nat.lt_succ_self _, hself.trans hcc.symm, hcc ▸ hempty⟩
      · obtain ⟨hlt, hpath, hne⟩ := h.name c' i hi
        exact ⟨hlt.trans (Nat.lt_succ_self _), (hother hlt.ne).trans hpath, hne⟩
    · dsimp only
      rw [hfile]
      rcases List.mem_append.mp hmem with hmem | hmem
      · obtain ⟨ht, hne⟩ := h.known t c' hmem
        refine ⟨ht, ?_⟩
        split_ifs
        · exact Option.some_ne_none _
        · exact hne
      · obtain ⟨rfl, rfl⟩ := Prod.mk.inj (List.mem_singleton.mp hmem)
        exact ⟨rfl, by rw [if_pos rfl]; exact Option.some_ne_none _⟩
    · rcases Nat.lt_succ_iff_lt_or_eq.mp hi with hi | rfl
      · dsimp only
        rw [hother hi.ne]
        exact List.mem_append_left _ (h.found i hi)
      · dsimp only
        rw [hself]
        exact List.mem_append_right _ (List.mem_singleton_self _)
  · exact h

theorem scanned_start (startMsgRegEx : Option DelimiterRegex) (mode : StateMode)
    (files : List (String × Bytes)) :
    Scanned (System.start startMsgRegEx mode files) startMsgRegEx mode := by
  rw [System.start]
  generalize hs : (⟨.empty, [], .start startMsgRegEx mode, true⟩ : System) = s
  have hscanned : Scanned s startMsgRegEx mode := by
    subst hs
    exact ⟨fun i hi => by simp [Directory.empty] at hi,
      fun c i hc => by simp [Directory.empty] at hc,
      fun t c hc => by simp at hc, fun i hi => by simp [Directory.empty] at hi, rfl⟩
  clear hs
  induction files generalizing s with
  | nil => exact hscanned
  | cons file files ih => exact ih _ (hscanned.addFile file.1 file.2)

/-- The invariant holds when the directory has been scanned. -/
theorem orderly_start (k : ℕ) (startMsgRegEx : Option DelimiterRegex) {mode : StateMode}
    (hmode : mode.followOnly = false) (files : List (String × Bytes)) :
    Orderly (start k startMsgRegEx mode files) := by
  have h := scanned_start startMsgRegEx mode files
  have hpending : (start k startMsgRegEx mode files).events.pending =
      ↑(System.start startMsgRegEx mode files).queue := Bulks.pending_start ..
  have hentry : ∀ c, (start k startMsgRegEx mode files).monitor.internalTable.lookup c = none := by
    intro c
    rw [start, h.monitor]
    rfl
  have hheld : ∀ {c ptr}, ¬(start k startMsgRegEx mode files).system.Holds c ptr := by
    intro c ptr hptr
    rw [System.Holds, system, hentry] at hptr
    cases hptr
  refine ⟨h.named, h.name, fun _ _ hc => hc, fun t c hmem => ?_, ?_, fun c hc => ?_,
    fun _ _ => rfl, fun i hi _ => ?_, fun i hi => absurd hi (List.not_mem_nil),
    fun c ptr hptr => ?_,
    fun c ptr hptr => ?_, fun c c' ptr ptr' hptr => ?_, fun c ptr hptr => ?_, fun c ptr hptr => ?_⟩
  · rw [hpending] at hmem
    exact ⟨Or.inl (h.known t c hmem).1, (h.known t c hmem).2⟩
  · rw [start, h.monitor]
    exact hmode
  · rw [hentry] at hc
    cases hc
  · rw [hpending]
    exact ⟨.init, by simp, h.found i hi⟩
  · exact absurd hptr hheld
  · exact absurd hptr hheld
  · exact absurd hptr hheld
  · exact absurd hptr hheld
  · exact absurd hptr hheld

/-- All threads are there when the directory has been scanned. -/
theorem attended_start {k : ℕ} (hk : 1 ≤ k) (startMsgRegEx : Option DelimiterRegex)
    (mode : StateMode) (files : List (String × Bytes)) :
    Attended (start k startMsgRegEx mode files) :=
  fun _ => ⟨⟨0, hk⟩, rfl⟩

/-- **However many threads there are, each byte is read once**, in any division of the
queue into bulks and any interleaving of the threads, as long as no step does harm. -/
theorem read_once (k : ℕ) (hk : 1 ≤ k) (startMsgRegEx : Option DelimiterRegex) (mode : StateMode)
    (hmode : mode.followOnly = false) (files : List (String × Bytes)) (ops : List (ThreadsOp k))
    (s : Threads k) (hrun : ops.foldlM step (start k startMsgRegEx mode files) = some s)
    (hsafe : Machine.Throughout step Harmless (start k startMsgRegEx mode files) ops) :
    ReadOnce s := by
  have horderly : Orderly s := Machine.Throughout.invariant
    (fun _ _ _ h hop hstep => h.step hop hstep) (orderly_start k startMsgRegEx hmode files)
    hsafe hrun
  have hattended : Attended s := Machine.Throughout.invariant
    (fun _ _ _ _ hop hstep => attended_of_step hop hstep)
    (attended_start hk startMsgRegEx mode files) hsafe hrun
  exact horderly.readOnce hattended

/-- One file, that has been read and is then renamed, and the threads that do that: the
first one takes the move from the queue, and the second one the other event. -/
def renamed (ops : List (ThreadsOp 2)) : List (ThreadsOp 2) :=
  [.take 0 1, .handle 0, .rename "/v/a" "/v/b", .take 0 1, .take 1 1] ++ ops

/-- The first thread is faster. -/
theorem read_once_renamed :
    ∃ s, (renamed [.handle 0, .handle 1]).foldlM step
        (start 2 none System.plainMode [("/v/a", ascii "x\n")]) = some s ∧
      s.events.pending = 0 ∧ ReadOnce s := by
  refine ⟨Option.get _ (by decide +kernel), (Option.some_get _).symm, by decide +kernel, ?_⟩
  exact read_once 2 (by decide) none System.plainMode rfl [("/v/a", ascii "x\n")]
    (renamed [.handle 0, .handle 1]) _ (Option.some_get _).symm (by decide +kernel)

/-- **The second thread is faster**: it makes a second record for the file, which is read
from its beginning again. -/
theorem renamed_read_twice :
    ¬∀ (k : ℕ) (mode : StateMode) (files : List (String × Bytes)) (ops : List (ThreadsOp k))
      (s : Threads k), 1 ≤ k → mode.followOnly = false →
      ops.foldlM step (start k none mode files) = some s → s.events.pending = 0 →
      ∀ i < s.directory.next, (bytesRead i s.calls).Perm (s.directory.content i) := by
  intro h
  have h := h 2 System.plainMode [("/v/a", ascii "x\n")] (renamed [.handle 1, .handle 0])
    (Option.get _ (by decide +kernel)) (by decide) rfl (Option.some_get _).symm
    (by decide +kernel) 0 (by decide +kernel)
  revert h
  decide +kernel

end Threads

end Tail

end IqLogger
