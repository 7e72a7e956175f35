import IqLogger.Inputs.Tail.Rotation
import IqLogger.Lib.Bulks

/-!
# Several monitor threads

The monitor threads of an input share its table and its queue of events. Each takes a
bulk of events from the queue and handles them in order, one after the other
(`TailMonitor::run`); between two events of one thread the others handle theirs. An
exception ends the thread that meets it, and the events it still had in its bulk are
gone; a null pointer ends the program.

Files are appended to, and renamed to names that no file has had before. Then an event
is about one file for good, the one that its name belongs to. What a thread has in hand is
pending, like what is in the queue, and it does not matter in which of the two an event
is: the invariant (`IqLogger.Tail.Threads.Orderly`) only asks which events are still to
come. Writers keep it, as they report every change under the name it was made under.
-/

namespace IqLogger

namespace Tail

/-- A watched directory, and the monitor of it with `k` threads. The file that has or had
a name is its owner; what the threads have done is kept in `calls`. -/
structure Threads (k : ℕ) where
  directory : Directory
  owner : String → Option ℕ
  events : Bulks (Fin k) (EventType × String)
  monitor : TailMonitor
  calls : List MonitorCall

/-- What happens in a watched directory whose monitor has `k` threads. -/
inductive ThreadsOp (k : ℕ) where
  | append (c : String) (bytes : Bytes) : ThreadsOp k
  | rename (f g : String) : ThreadsOp k
  /-- `try_dequeue_bulk`, in a thread that is done with its last bulk. -/
  | take (t : Fin k) (n : ℕ) : ThreadsOp k
  /-- A thread handles the next event of its bulk. -/
  | handle (t : Fin k) : ThreadsOp k
  deriving DecidableEq, Repr

namespace Threads

variable {k : ℕ}

/-- Some files are found when the directory is first scanned. -/
def start (k : ℕ) (startMsgRegEx : Option DelimiterRegex) (mode : StateMode)
    (files : List (String × Bytes)) : Threads k :=
  let s := System.start startMsgRegEx mode files
  ⟨s.directory, s.directory.file, .start s.queue, s.monitor, []⟩

section Steps

variable (s : Threads k)

/-- What the monitor and the directory look like to a thread that comes to handle the next
event. -/
def system : System := ⟨s.directory, s.events.queue, s.monitor, true⟩

/-- The body of the loop of `run`, for the event that is next in the bulk of a thread. -/
def handle (t : Fin k) (event : EventType × String) : Threads k :=
  let out := s.monitor.handle s.directory.toFileSystem (fun _ => 0) ⟨0, event.1, ⟨event.2, none⟩⟩
  { s with
    monitor := out.monitor
    calls := s.calls ++ out.calls
    events := match out.outcome with
      | .done => s.events.advance t
      -- the exception is caught outside of the loop
      | .thrown => s.events.leave t
      | .crashed => s.events.leaveAll }

/-- One step, if it is possible. A file is renamed to a fresh name. -/
def step (s : Threads k) : ThreadsOp k → Option (Threads k)
  | .append c bytes =>
    match s.directory.file c with
    | some i => some { s with
        directory := s.directory.append i bytes
        events := s.events.put (report .modify c) }
    | none => none
  | .rename f g =>
    match s.directory.file f with
    | some i =>
      if g ≠ "" ∧ s.owner g = none then
        some { s with
          directory := s.directory.rename i f g
          owner := Function.update s.owner g (some i)
          events := s.events.put (report .movedFrom f ++ report .movedTo g) }
      else none
    | none => none
  | .take t n =>
    if s.events.bulk t = some [] then some { s with events := s.events.take t n } else none
  | .handle t => (s.events.current t).map (s.handle t)

end Steps

/-! ### What is to be shown -/

/-- **The threads are idle**: none has an event to handle, and to take a bulk changes
nothing. -/
def Idle (s : Threads k) : Prop :=
  ∀ t, s.step (.handle t) = none ∧ ∀ n s', s.step (.take t n) = some s' → s' = s

/-- **Each byte is read at most once**, and by the time the threads are idle, exactly
once. -/
def ReadOnce (s : Threads k) : Prop :=
  (∀ i, bytesRead i s.calls <+: s.directory.content i) ∧
    (s.Idle → ∀ i < s.directory.next, bytesRead i s.calls = s.directory.content i)

/-- A thread has not ended. -/
def Living (s : Threads k) (t : Fin k) : Prop := (s.events.bulk t).isSome = true

instance (s : Threads k) : DecidablePred s.Living := fun _ => inferInstanceAs (Decidable (_ = true))

/-- **The step does no harm.** There is a record under the name of the event that is
handled; or there is no entry under it, and the event is a move, or its file has no
record yet. If there is no such file any more, then the thread, which ends, has no more
events, and leaves the queue to another one or empty. What writers do is seen by some
thread. -/
def Harmless (s : Threads k) : ThreadsOp k → Prop
  | .handle t => ∀ event ∈ s.events.current t,
      let entry := s.monitor.internalTable.lookup event.2
      entry.join = none → entry = none ∧
        (event.1 = .move ∨
          (∀ i ∈ s.directory.file event.2, ∀ ptr ∈ s.system.records,
            ptr.record.fileDescriptor ≠ i) ∧
          (s.directory.file event.2 = none → s.events.bulk t = some [event] ∧
            ((∃ t', t' ≠ t ∧ s.Living t') ∨ s.events.queue = [])))
  | .take _ _ => True
  | _ => ∃ t, s.Living t

instance (s : Threads k) : DecidablePred s.Harmless
  | .handle t => inferInstanceAs (Decidable (∀ event ∈ s.events.current t, _))
  | .append _ _ => inferInstanceAs (Decidable (∃ t, s.Living t))
  | .rename _ _ => inferInstanceAs (Decidable (∃ t, s.Living t))
  | .take _ _ => isTrue trivial

/-! ### The invariant -/

/-- **There is a thread for the events in the queue.** -/
def Attended (s : Threads k) : Prop := s.events.queue ≠ [] → ∃ t, s.Living t

/-- There is an event pending that makes a monitor thread process the record under a name. -/
def Notified (pending : Multiset (EventType × String)) (c : String) : Prop :=
  ∃ t, t ≠ .move ∧ (t, c) ∈ pending

/-- **The invariant of a run without harm.** Every file has a name, and belongs to all the
names it had; a file without a record will get one, and a record whose key is out of date
will get the right key; what is unread will be read. -/
structure Orderly (s : Threads k) : Prop where
  named : ∀ i < s.directory.next, s.directory.file (s.directory.path i) = some i
  name : ∀ c i, s.directory.file c = some i →
    i < s.directory.next ∧ s.directory.path i = c ∧ c ≠ ""
  owner : ∀ c i, s.directory.file c = some i → s.owner c = some i
  known : ∀ t c, (t, c) ∈ s.events.pending →
    (t = .init ∨ t = .create ∨ t = .modify ∨ t = .move) ∧ s.owner c ≠ none
  followOnly : s.monitor.mode.followOnly = false
  entry : ∀ c, s.monitor.internalTable.lookup c = some none →
    s.directory.file c = none ∧ s.owner c ≠ none
  unopened : ∀ i, i ∉ opened s.calls → bytesRead i s.calls = []
  found : ∀ i < s.directory.next, i ∉ opened s.calls →
    Notified s.events.pending (s.directory.path i)
  held : ∀ i ∈ opened s.calls, i < s.directory.next ∧
    ∃ c ptr, s.system.Holds c ptr ∧ ptr.record.fileDescriptor = i
  sound : ∀ c ptr, s.system.Holds c ptr → System.Sound s.directory s.calls ptr.record
  key : ∀ c ptr, s.system.Holds c ptr → s.owner c = some ptr.record.fileDescriptor
  unique : ∀ c c' ptr ptr', s.system.Holds c ptr → s.system.Holds c' ptr' →
    ptr.record.fileDescriptor = ptr'.record.fileDescriptor → c = c'
  moved : ∀ c ptr, s.system.Holds c ptr →
    c = s.directory.path ptr.record.fileDescriptor ∨ (.move, c) ∈ s.events.pending
  unread : ∀ c ptr, s.system.Holds c ptr → System.Unread s.directory ptr.record →
    Notified s.events.pending (s.directory.path ptr.record.fileDescriptor)

variable {s : Threads k}

/-- A file that a record is on. -/
theorem Orderly.lt (h : Orderly s) {c : String} {ptr : RecordPtr} (hptr : s.system.Holds c ptr) :
    ptr.record.fileDescriptor < s.directory.next :=
  (h.held _ (h.sound c ptr hptr).opened).1

/-- A file owns the name it has. -/
theorem Orderly.owner_path (h : Orderly s) {i : ℕ} (hi : i < s.directory.next) :
    s.owner (s.directory.path i) = some i :=
  h.owner _ _ (h.named i hi)

theorem Notified.mono {pending pending' : Multiset (EventType × String)} {c : String}
    (h : Notified pending c) (hle : pending ≤ pending') : Notified pending' c := by
  obtain ⟨t, hmove, ht⟩ := h
  exact ⟨t, hmove, Multiset.mem_of_le hle ht⟩

/-- **When the threads are idle, nothing is pending**: one that is left would take what is
in the queue. -/
theorem Attended.pending_eq_zero (h : Attended s) (hidle : s.Idle) : s.events.pending = 0 := by
  have hcurrent : ∀ t, s.events.current t = none := fun t => Option.map_eq_none_iff.mp (hidle t).1
  refine Bulks.pending_eq_zero _ ?_ hcurrent
  by_contra hqueue
  obtain ⟨t, ht⟩ := h hqueue
  obtain ⟨xs, hxs⟩ := Option.isSome_iff_exists.mp ht
  have hnil : s.events.bulk t = some [] := by
    have hnone := hcurrent t
    rw [Bulks.current, hxs, Option.bind_some, List.head?_eq_none_iff] at hnone
    rw [hxs, hnone]
  -- it takes all there is
  have htake := (hidle t).2 s.events.queue.length _ (if_pos hnil)
  have hdrop := congrArg (fun s => s.events.queue) htake
  rw [Bulks.take, List.drop_length] at hdrop
  exact hqueue hdrop.symm

/-- **In good order, each byte is read at most once**, and once when the threads are idle. -/
theorem Orderly.readOnce (h : Orderly s) (hattended : Attended s) : ReadOnce s := by
  refine ⟨fun i => ?_, fun hidle i hi => ?_⟩
  · by_cases hopen : i ∈ opened s.calls
    · obtain ⟨-, c, ptr, hptr, rfl⟩ := h.held i hopen
      obtain ⟨n, -, -, hread⟩ := (h.sound c ptr hptr).read
      rw [hread]
      exact List.take_prefix ..
    · rw [h.unopened i hopen]
      exact List.nil_prefix
  · have hnone : ∀ {c}, ¬Notified s.events.pending c := by
      rintro c ⟨t, -, ht⟩
      rw [hattended.pending_eq_zero hidle] at ht
      exact Multiset.notMem_zero _ ht
    by_cases hopen : i ∈ opened s.calls
    · obtain ⟨-, c, ptr, hptr, rfl⟩ := h.held i hopen
      exact (h.sound c ptr hptr).allRead fun hunread => hnone (h.unread c ptr hptr hunread)
    · exact absurd (h.found i hi hopen) hnone

/-! ### Writers and bulks -/

/-- **A bulk that is taken** changes nothing. -/
theorem Orderly.take (h : Orderly s) {t : Fin k} (ht : s.events.bulk t = some []) (n : ℕ) :
    Orderly { s with events := s.events.take t n } := by
  have hpending := Bulks.pending_take ht n
  exact { h with
    known := by simpa only [hpending] using h.known
    found := by simpa only [hpending] using h.found
    moved := fun c ptr hptr => by simpa only [hpending] using h.moved c ptr hptr
    unread := fun c ptr hptr => by simpa only [hpending] using h.unread c ptr hptr }

/-- **Bytes are appended to a file.** -/
theorem Orderly.append (h : Orderly s) {c : String} {i : ℕ} (hc : s.directory.file c = some i)
    (bytes : Bytes) :
    Orderly { s with
      directory := s.directory.append i bytes
      events := s.events.put (report .modify c) } := by
  have hpending : (s.events.put (report .modify c)).pending =
      s.events.pending + ↑(report .modify c) := Bulks.pending_put ..
  have hle : s.events.pending ≤ (s.events.put (report .modify c)).pending :=
    hpending ▸ Multiset.le_add_right ..
  have hnew : (.modify, c) ∈ (s.events.put (report .modify c)).pending := by
    rw [hpending]
    exact Multiset.mem_add.mpr (Or.inr (Multiset.mem_singleton_self _))
  refine { h with
    known := fun t c' hmem => ?_
    found := fun j hj hopen => (h.found j hj hopen).mono hle
    sound := fun c' ptr hptr => (h.sound c' ptr hptr).grow ?_
    moved := fun c' ptr hptr => (h.moved c' ptr hptr).imp_right (Multiset.mem_of_le hle)
    unread := fun c' ptr hptr hunread => ?_ }
  · rw [hpending] at hmem
    rcases Multiset.mem_add.mp hmem with hmem | hmem
    · exact h.known t c' hmem
    · obtain ⟨rfl, rfl⟩ := Prod.mk.inj (Multiset.mem_singleton.mp hmem)
      exact ⟨Or.inr (Or.inr (Or.inl rfl)), by rw [h.owner _ _ hc]; exact Option.some_ne_none i⟩
  · by_cases heq : ptr.record.fileDescriptor = i
    · simp only [heq, Directory.append, Function.update_self]
      exact List.prefix_append ..
    · simp only [Directory.append, Function.update_of_ne heq, List.prefix_refl]
  · by_cases heq : ptr.record.fileDescriptor = i
    · -- the new event is under the name of the file
      refine ⟨.modify, by simp, ?_⟩
      have hpath : s.directory.path ptr.record.fileDescriptor = c := heq ▸ (h.name c i hc).2.1
      exact hpath.symm ▸ hnew
    · refine (h.unread c' ptr hptr ?_).mono hle
      simpa only [System.Unread, Directory.append, Function.update_of_ne heq] using hunread

/-- **A file is renamed to a fresh name.** -/
theorem Orderly.rename (h : Orderly s) {f g : String} {i : ℕ} (hf : s.directory.file f = some i)
    (hg : g ≠ "") (hfresh : s.owner g = none) :
    Orderly { s with
      directory := s.directory.rename i f g
      owner := Function.update s.owner g (some i)
      events := s.events.put (report .movedFrom f ++ report .movedTo g) } := by
  have hpending : (s.events.put (report .movedFrom f ++ report .movedTo g)).pending =
      s.events.pending + {(.move, f), (.create, g)} := Bulks.pending_put ..
  have hle : s.events.pending ≤ (s.events.put (report .movedFrom f ++ report .movedTo g)).pending :=
    hpending ▸ Multiset.le_add_right ..
  have hmove : (.move, f) ∈ (s.events.put (report .movedFrom f ++ report .movedTo g)).pending := by
    rw [hpending]
    exact Multiset.mem_add.mpr (Or.inr (Multiset.mem_cons_self ..))
  have hcreate : Notified (s.events.put (report .movedFrom f ++ report .movedTo g)).pending g := by
    refine ⟨.create, by simp, ?_⟩
    rw [hpending]
    exact Multiset.mem_add.mpr (Or.inr (Multiset.mem_cons_of_mem (Multiset.mem_singleton_self _)))
  have hfree : s.directory.file g = none :=
    Option.eq_none_iff_forall_ne_some.mpr fun j hj => by simp [h.owner g j hj] at hfresh
  have hfile := s.directory.file_rename i f g
  -- the file has its new name, and all others have the names they had
  have hself : (s.directory.rename i f g).path i = g := s.directory.path_rename_self i f g
  have hother : ∀ {j}, j ≠ i → (s.directory.rename i f g).path j = s.directory.path j :=
    fun hj => s.directory.path_rename i _ f g hj (by simp [hfree])
  have howner : ∀ {c j}, s.owner c = some j → Function.update s.owner g (some i) c = some j := by
    intro c j hc
    rw [Function.update_of_ne, hc]
    rintro rfl
    simp [hfresh] at hc
  have hpath : s.directory.path i = f := (h.name f i hf).2.1
  refine { h with
    named := Directory.named_rename h.named hf hfree
    name := Directory.name_rename h.name hf hg
    owner := fun c j hc => ?_
    known := fun t c hmem => ?_
    entry := fun c hc => ?_
    found := fun j hj hopen => ?_
    sound := fun c ptr hptr => (h.sound c ptr hptr).grow (List.prefix_refl _)
    key := fun c ptr hptr => howner (h.key c ptr hptr)
    moved := fun c ptr hptr => ?_
    unread := fun c ptr hptr hunread => ?_ }
  · rw [hfile] at hc
    dsimp only
    split_ifs at hc with hcg hcf
    · rw [hcg, Function.update_self, ← hc]
    · exact howner (h.owner c j hc)
  · have hknown : ∀ {c}, s.owner c ≠ none → Function.update s.owner g (some i) c ≠ none := by
      intro c hc
      obtain ⟨j, hj⟩ := Option.ne_none_iff_exists'.mp hc
      rw [howner hj]
      exact Option.some_ne_none j
    rw [hpending] at hmem
    rcases Multiset.mem_add.mp hmem with hmem | hmem
    · exact ⟨(h.known t c hmem).1, hknown (h.known t c hmem).2⟩
    · rcases Multiset.mem_cons.mp hmem with heq | hmem
      · obtain ⟨rfl, rfl⟩ := Prod.mk.inj heq
        exact ⟨by simp, hknown (by rw [h.owner _ _ hf]; exact Option.some_ne_none i)⟩
      · obtain ⟨rfl, rfl⟩ := Prod.mk.inj (Multiset.mem_singleton.mp hmem)
        refine ⟨by simp, ?_⟩
        dsimp only
        rw [Function.update_self]
        exact Option.some_ne_none i
  · obtain ⟨hnone, hknown⟩ := h.entry c hc
    obtain ⟨j, hj⟩ := Option.ne_none_iff_exists'.mp hknown
    refine ⟨?_, by dsimp only; rw [howner hj]; exact Option.some_ne_none j⟩
    dsimp only
    rw [hfile]
    split_ifs with hcg hcf
    · rw [hcg, hfresh] at hj
      cases hj
    · rfl
    · exact hnone
  · by_cases heq : j = i
    · dsimp only
      rw [heq, hself]
      exact hcreate
    · dsimp only
      rw [hother heq]
      exact (h.found j hj hopen).mono hle
  · by_cases heq : ptr.record.fileDescriptor = i
    · right
      rcases h.moved c ptr hptr with hc | hc
      · rw [heq, hpath] at hc
        exact hc ▸ hmove
      · exact Multiset.mem_of_le hle hc
    · dsimp only
      rw [hother heq]
      exact (h.moved c ptr hptr).imp_right (Multiset.mem_of_le hle)
  · by_cases heq : ptr.record.fileDescriptor = i
    · dsimp only
      rw [heq, hself]
      exact hcreate
    · dsimp only
      rw [hother heq]
      exact (h.unread c ptr hptr hunread).mono hle

end Threads

end Tail

end IqLogger
