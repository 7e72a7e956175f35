import IqLogger.Inputs.Tail.Checkpoint

/-!
# Follow-only mode

In `follow_only_mode` a record is to skip what its file holds at the first
`process`, and to read everything after that. The skip is made by the first
`process` that finds something to read, and only then is `m_firstRead` set. On a
file that holds something from the start the two are the same; a file that is
empty at the first `process` is skipped to its size at a later one, and what was
written in between is lost (`IqLogger.Tail.followOnly_exact_iff`).

The record is in one of two states. It is waiting
(`IqLogger.Tail.Waiting`) until a `process` finds something, and then it is
following from the size it found (`IqLogger.Tail.Following`), for good.
-/

namespace IqLogger

namespace Tail

/-- What is appended to the file in the course of some operations. -/
def appended (ops : List FileOp) : Bytes :=
  ops.flatMap fun | .append bytes => bytes | .process => [] | .flush => []

theorem content_run (s : TailedFile) (ops : List FileOp) :
    (Machine.run TailedFile.step s ops).1.content = s.content ++ appended ops := by
  induction ops generalizing s with
  | nil => simp [appended]
  | cons op ops ih =>
    rw [Machine.run_cons, ih]
    cases op <;> simp [TailedFile.step, appended]

@[simp] theorem buffers_flush (r : PointersTableInternalRecord) : buffers r.flush.2 = [] := by
  rw [PointersTableInternalRecord.flush]
  split_ifs <;> simp

/-- `flush` changes what is pending, and nothing else. -/
theorem flush_fields (r : PointersTableInternalRecord) :
    r.flush.1.fileCurrentPosition = r.fileCurrentPosition ∧ r.flush.1.firstRead = r.firstRead ∧
      r.flush.1.streamFail = r.streamFail ∧ r.flush.1.symlinkPath = r.symlinkPath ∧
      r.flush.1.mode = r.mode := by
  rw [PointersTableInternalRecord.flush]
  split_ifs <;> exact ⟨rfl, rfl, rfl, rfl, rfl⟩

/-- No read changes `m_firstRead`. -/
theorem readLoop_firstRead (content : Bytes) (added get totalRead : ℕ)
    (r : PointersTableInternalRecord) :
    (r.readLoop content added get totalRead).1.firstRead = r.firstRead := by
  fun_induction PointersTableInternalRecord.readLoop content added get totalRead r with
  | case1 => rfl
  | case2 get totalRead r hlt needRead read actualRead hpos out r' rest ih =>
    rw [ih]
    change (r.processBuffer read).1.firstRead = r.firstRead
    rw [PointersTableInternalRecord.processBuffer]
    split <;> rfl
  | case3 => rfl

/-! ### The two states of a record -/

/-- A record that has found nothing to read. -/
structure Waiting (s : TailedFile) (calls : List Call) : Prop where
  symlinkPath : s.record.symlinkPath = none
  streamFail : s.record.streamFail = false
  followOnly : s.record.mode.followOnly = true
  firstRead : s.record.firstRead = false
  position : s.record.fileCurrentPosition = 0
  nothingRead : buffers calls = []

/-- A record that has skipped the first `a` bytes of its file: what it has read
since is the file from there to the position. -/
structure Following (a : ℕ) (s : TailedFile) (calls : List Call) : Prop where
  symlinkPath : s.record.symlinkPath = none
  streamFail : s.record.streamFail = false
  firstRead : s.record.firstRead = true
  read : ∃ n : ℕ, s.record.fileCurrentPosition = n ∧ a ≤ n ∧ n ≤ s.content.length ∧
    (buffers calls).flatten = between s.content a n

section Steps

variable {s : TailedFile} {calls : List Call} {a : ℕ}

/-- **The first bytes a waiting record finds are skipped.** -/
theorem Waiting.process (h : Waiting s calls) (hne : s.content ≠ []) :
    Following s.content.length (s.step .process).1 (calls ++ (s.step .process).2) := by
  have hpos : 0 < s.content.length := List.length_pos_iff.mpr hne
  have hsize : ¬((s.content.length : Int) < 0) := by omega
  have hstep : s.step .process = ({ s with record := { s.record with
      fileCurrentPosition := s.content.length
      firstRead := true } }, []) := by
    simp [TailedFile.step, PointersTableInternalRecord.process, h.symlinkPath, h.streamFail,
      h.followOnly, h.firstRead, h.position, hsize, hpos]
  rw [hstep]
  exact ⟨h.symlinkPath, h.streamFail, rfl, s.content.length, rfl, le_rfl, le_rfl,
    by simp [h.nothingRead]⟩

/-- A record goes on waiting while its file is empty. -/
theorem Waiting.process_of_nil (h : Waiting s calls) (hnil : s.content = []) :
    Waiting (s.step .process).1 (calls ++ (s.step .process).2) := by
  have hprocess : s.record.process s.content = (s.record, s.record.savePosition) := by
    simp [PointersTableInternalRecord.process, h.symlinkPath, h.streamFail, h.position, hnil]
  have hstep : s.step .process = (s, s.record.savePosition) := by
    rw [TailedFile.step, hprocess]
  rw [hstep]
  exact { h with nothingRead := by simp [h.nothingRead] }

/-- Only `process` ends the waiting. -/
theorem Waiting.step (h : Waiting s calls) {op : FileOp} (hop : op ≠ .process) :
    Waiting (s.step op).1 (calls ++ (s.step op).2) := by
  cases op with
  | append bytes => exact { h with nothingRead := by simp [TailedFile.step, h.nothingRead] }
  | process => exact absurd rfl hop
  | flush =>
    obtain ⟨hposition, hfirst, hfail, hlink, hmode⟩ := flush_fields s.record
    exact ⟨hlink.trans h.symlinkPath, hfail.trans h.streamFail,
      (congrArg StateMode.followOnly hmode).trans h.followOnly, hfirst.trans h.firstRead,
      hposition.trans h.position, by simp [TailedFile.step, h.nothingRead]⟩

/-- **A following record reads the file to its end.** -/
theorem Following.process (h : Following a s calls) :
    Following a (s.step .process).1 (calls ++ (s.step .process).2) ∧
      (buffers (calls ++ (s.step .process).2)).flatten =
        between s.content a s.content.length := by
  obtain ⟨n, hposition, ha, hn, hread⟩ := h.read
  have hskip : ¬(s.record.firstRead = false ∧ s.record.mode.followOnly = true) := by
    simp [h.firstRead]
  obtain ⟨c, hreads, hcalls⟩ :=
    s.record.process_reads_of_not_skipped h.symlinkPath h.streamFail hskip hposition hn
  have hbuffers : (buffers (calls ++ (s.step .process).2)).flatten =
      between s.content a s.content.length := by
    change (buffers (calls ++ (s.record.process s.content).2)).flatten = _
    rw [hcalls, buffers_append, buffers_append, PointersTableInternalRecord.buffers_savePosition,
      List.append_nil, List.flatten_append, hread, hreads.buffers, between_append_drop ha hn]
  have hfirst : (s.step .process).1.record.firstRead = true := by
    have hsize : ¬((s.content.length : Int) < n) := by omega
    simp only [TailedFile.step, PointersTableInternalRecord.process, h.symlinkPath, h.streamFail,
      hposition, hsize, hskip, Option.isSome_none, Bool.false_eq_true, and_false, if_false]
    split_ifs
    · exact (readLoop_firstRead ..).trans h.firstRead
    all_goals exact h.firstRead
  refine ⟨⟨hreads.sameFile.symlinkPath.trans h.symlinkPath,
    hreads.streamFail.trans h.streamFail, hfirst, s.content.length, ?_, by omega, le_rfl,
    hbuffers⟩, hbuffers⟩
  change (s.record.process s.content).1.fileCurrentPosition = _
  rw [hreads.position, hposition, List.length_drop]
  omega

/-- **A following record goes on following.** -/
theorem Following.step (h : Following a s calls) (op : FileOp) :
    Following a (s.step op).1 (calls ++ (s.step op).2) := by
  cases op with
  | process => exact h.process.1
  | append bytes =>
    obtain ⟨n, hposition, ha, hn, hread⟩ := h.read
    refine ⟨h.symlinkPath, h.streamFail, h.firstRead, n, hposition, ha, ?_, ?_⟩
    · simp only [TailedFile.step, List.length_append]
      omega
    · simpa [TailedFile.step, between_append_left bytes hn] using hread
  | flush =>
    obtain ⟨hposition, hfirst, hfail, hlink, -⟩ := flush_fields s.record
    obtain ⟨n, hn⟩ := h.read
    exact ⟨hlink.trans h.symlinkPath, hfail.trans h.streamFail, hfirst.trans h.firstRead, n,
      hposition.trans hn.1, by simpa [TailedFile.step] using hn.2⟩

end Steps

/-! ### Runs -/

/-- A following record, over any operations. -/
theorem Following.run {a : ℕ} : ∀ (ops : List FileOp) {s : TailedFile} {calls : List Call},
    Following a s calls →
    Following a (Machine.run TailedFile.step s ops).1
      (calls ++ (Machine.run TailedFile.step s ops).2)
  | [], s, calls, h => by simpa using h
  | op :: ops, s, calls, h => by
    rw [Machine.run_cons, ← List.append_assoc]
    exact Following.run ops (h.step op)

/-- A waiting record waits as long as nothing is appended, and otherwise may have
begun to follow from a size that is not 0. -/
theorem Waiting.run : ∀ (ops : List FileOp) {s : TailedFile} {calls : List Call},
    Waiting s calls →
    Waiting (Machine.run TailedFile.step s ops).1
        (calls ++ (Machine.run TailedFile.step s ops).2) ∨
      ∃ a > 0, Following a (Machine.run TailedFile.step s ops).1
        (calls ++ (Machine.run TailedFile.step s ops).2)
  | [], s, calls, h => Or.inl (by simpa using h)
  | op :: ops, s, calls, h => by
    rw [Machine.run_cons, ← List.append_assoc]
    by_cases hop : op = .process
    · subst hop
      -- the first `process` that finds something skips it
      by_cases hnil : s.content = []
      · exact Waiting.run ops (h.process_of_nil hnil)
      · exact Or.inr ⟨s.content.length, List.length_pos_iff.mpr hnil,
          Following.run ops (h.process hnil)⟩
    · exact Waiting.run ops (h.step hop)

/-- A waiting record, up to another `process`: of a file that is not empty, it has
skipped some bytes and read the others. -/
theorem Waiting.run_process {s : TailedFile} {calls : List Call} (h : Waiting s calls)
    (ops : List FileOp) :
    let out := Machine.run TailedFile.step s (ops ++ [.process])
    ∃ a, (buffers (calls ++ out.2)).flatten = between out.1.content a out.1.content.length ∧
      (out.1.content ≠ [] → 0 < a ∧ a ≤ out.1.content.length) := by
  intro out
  have hout : out = Machine.run TailedFile.step s (ops ++ [.process]) := rfl
  rw [Machine.run_snoc] at hout
  rw [hout, ← List.append_assoc]
  rcases h.run ops with hwait | ⟨a, ha, hfollow⟩
  · by_cases hnil : (Machine.run TailedFile.step s ops).1.content = []
    · refine ⟨0, ?_, fun hne => absurd hnil hne⟩
      have hcontent : ((Machine.run TailedFile.step s ops).1.step .process).1.content = [] := hnil
      rw [(hwait.process_of_nil hnil).nothingRead, hcontent]
      rfl
    · -- the last `process` is the first to find something, and skips all of it
      obtain ⟨n, -, han, hn, hread⟩ := (hwait.process hnil).read
      refine ⟨_, ?_, fun _ => ⟨List.length_pos_iff.mpr hnil, le_rfl⟩⟩
      obtain rfl : n = _ := le_antisymm hn han
      exact hread
  · obtain ⟨n, -, han, hn, -⟩ := hfollow.read
    exact ⟨a, hfollow.process.2, fun _ => ⟨ha, han.trans hn⟩⟩

/-- A record of a symbolic link reads nothing. -/
theorem buffers_run_symlink : ∀ (ops : List FileOp) {s : TailedFile},
    s.record.symlinkPath ≠ none → buffers (Machine.run TailedFile.step s ops).2 = []
  | [], _, _ => rfl
  | op :: ops, s, h => by
    have hstep : (s.step op).1.record.symlinkPath ≠ none ∧ buffers (s.step op).2 = [] := by
      cases op with
      | append bytes => exact ⟨h, rfl⟩
      | process =>
        have hsome : s.record.symlinkPath.isSome := Option.isSome_iff_ne_none.mpr h
        simp [TailedFile.step, PointersTableInternalRecord.process, hsome, h]
      | flush => exact ⟨(flush_fields s.record).2.2.2.1 ▸ h, buffers_flush s.record⟩
    rw [Machine.run_cons, buffers_append, hstep.2, buffers_run_symlink ops hstep.1]
    rfl

/-- **What follow-only mode skips.** A record in `follow_only_mode` is first
processed when its file holds `content`. After any further appends, calls of
`process` and flushes, the last of them a `process`, the bytes passed to
`processBuffer` are exactly those after `content`, if and only if the record is
not that of a symbolic link and `content` is not empty, or nothing was appended
at all. -/
theorem followOnly_exact_iff (source : TailSource) (fileDescriptor : ℕ)
    (re : Option DelimiterRegex) (mode : StateMode) (hmode : mode.followOnly = true)
    (symlinkPath : Option String) (savedPosition : Int) (content : Bytes) (ops : List FileOp) :
    let s := TailedFile.mk content
      (.create source fileDescriptor re mode symlinkPath savedPosition)
    let out := Machine.run TailedFile.step s (.process :: ops ++ [.process])
    (buffers out.2).flatten = between out.1.content content.length out.1.content.length ↔
      (symlinkPath = none ∧ content ≠ []) ∨ appended ops = [] := by
  intro s out
  have hcontent : out.1.content = content ++ appended ops := by
    rw [content_run]
    simp [s, appended]
  have hsave : mode.saveState = false := by
    have := mode.exclusive
    rw [hmode] at this
    simpa using this
  by_cases hlink : symlinkPath = none
  · have hstart : Waiting s [] :=
      { symlinkPath := hlink, streamFail := rfl, followOnly := hmode, firstRead := rfl,
        position := by simp [s, PointersTableInternalRecord.create, hsave], nothingRead := rfl }
    by_cases hnil : content = []
    · -- nothing is skipped at first, so the first bytes that are found will be
      obtain ⟨a, hread, hskipped⟩ := hstart.run_process (.process :: ops)
      change (buffers out.2).flatten = between out.1.content a out.1.content.length at hread
      change out.1.content ≠ [] → 0 < a ∧ a ≤ out.1.content.length at hskipped
      have happended : appended ops = out.1.content := by rw [hcontent, hnil, List.nil_append]
      rw [hread, happended, hnil, List.length_nil]
      refine ⟨fun heq => Or.inr ?_, fun h => ?_⟩
      · by_contra hne
        have hlen := congrArg List.length heq
        rw [length_between le_rfl, length_between le_rfl] at hlen
        have := hskipped hne
        omega
      · rw [h.resolve_left fun hc => hc.2 rfl]
        simp [between]
    · refine iff_of_true ?_ (Or.inl ⟨hlink, hnil⟩)
      have hfollow := Following.run ops (hstart.process hnil)
      rw [List.nil_append] at hfollow
      have hout : out = Machine.run TailedFile.step s ((.process :: ops) ++ [.process]) := rfl
      rw [Machine.run_snoc, Machine.run_cons] at hout
      rw [hout]
      exact hfollow.process.2
  · -- of a symbolic link nothing is read, so nothing may have been appended
    have hnone : buffers out.2 = [] := buffers_run_symlink _ hlink
    have hbetween : between out.1.content content.length out.1.content.length = appended ops := by
      rw [between, List.take_length, hcontent, List.drop_left]
    rw [hnone, hbetween, List.flatten_nil]
    exact ⟨fun h => Or.inr h.symm, fun h => (h.resolve_left fun hc => hlink hc.1).symm⟩

/-- A file that is empty at the first `process` and has grown by the second. -/
theorem first_bytes_skipped :
    let s := TailedFile.mk [] (.create ⟨"/var/log/app.log", none⟩ 3 none ⟨true, false, by decide⟩
      none 0)
    let out := Machine.run TailedFile.step s [.process, .append (ascii "a\n"), .process]
    (buffers out.2).flatten ≠ between out.1.content 0 out.1.content.length := by
  decide +kernel

/-- A file that holds a line at the first `process`. -/
theorem followOnly_exact_iff_nonempty :
    let s := TailedFile.mk (ascii "a\n") (.create ⟨"/var/log/app.log", none⟩ 3 none
      ⟨true, false, by decide⟩ none 0)
    let out := Machine.run TailedFile.step s [.process, .append (ascii "b\n"), .process]
    (buffers out.2).flatten = between out.1.content 2 out.1.content.length :=
  (followOnly_exact_iff ⟨"/var/log/app.log", none⟩ 3 none ⟨true, false, by decide⟩ rfl none 0
    (ascii "a\n") [.append (ascii "b\n")]).mpr (Or.inl ⟨rfl, by decide⟩)

end Tail

end IqLogger
