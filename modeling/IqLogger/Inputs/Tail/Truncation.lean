import IqLogger.Inputs.Tail.Checkpoint

/-!
# Truncated files

A monitored file may also shrink. `process` notices when the size is below the
position, and then reads the file again from its beginning; it does not look at
the pending text. If there is any, it was read before the truncation, and one of
two things happens. Either the first match in the first buffer is at its
beginning, and the pending text is handed on as a message of its own; or what
follows is added to it. In the second case a message mixes bytes from before and
after, or, as long as no message is handed on, the position saved is below 0,
since more is pending than the file has been read. So a run is free of both
exactly when at every truncation that is noticed nothing is pending, or the
pending text is ended by a match (`IqLogger.Tail.truncation_isolated_iff`).

That a message mixes is said by offsets in the text read: the messages and the
pending text are that text, cut into pieces (`IqLogger.Tail.Trail.kept_run`), and a
message mixes when the offset at which a truncation was noticed lies strictly
inside it (`IqLogger.Tail.Mixes`).
-/

namespace IqLogger

namespace Tail

/-! ### Pieces of a text and an offset -/

/-- The offset `d` of a text lies strictly inside one of the pieces the text
begins with. -/
def Mixes (ms : List Bytes) (d : ℕ) : Prop :=
  ∃ pre m post, ms = pre ++ m :: post ∧ pre.flatten.length < d ∧
    d < pre.flatten.length + m.length

/-- An offset behind the pieces is inside none of them. -/
theorem not_mixes_of_le {ms : List Bytes} {d : ℕ} (h : ms.flatten.length ≤ d) : ¬Mixes ms d := by
  rintro ⟨pre, m, post, rfl, -, hd⟩
  simp only [List.flatten_append, List.flatten_cons, List.length_append] at h
  omega

/-- Pieces behind an offset do not matter. -/
theorem mixes_append {ms ns : List Bytes} {d : ℕ} (h : d ≤ ms.flatten.length) :
    Mixes (ms ++ ns) d ↔ Mixes ms d := by
  constructor
  · rintro ⟨pre, m, post, heq, hpre, hd⟩
    rcases List.append_eq_append_iff.mp heq with ⟨as, rfl, -⟩ | ⟨bs, rfl, hbs⟩
    · simp only [List.flatten_append, List.length_append] at hpre
      omega
    · cases bs with
      | nil =>
        rw [List.append_nil] at h
        omega
      | cons b bs =>
        obtain ⟨rfl, -⟩ := List.cons.inj hbs
        exact ⟨pre, m, bs, rfl, hpre, hd⟩
  · rintro ⟨pre, m, post, rfl, hpre, hd⟩
    exact ⟨pre, m, post ++ ns, by simp, hpre, hd⟩

/-! ### Files that may shrink -/

/-- What happens to a monitored file. -/
inductive ShrinkOp where
  | op (op : FileOp) : ShrinkOp
  /-- The file is truncated to a size. -/
  | truncate (size : ℕ) : ShrinkOp
  deriving DecidableEq, Repr

/-- One operation on a monitored file. -/
def TailedFile.shrinkStep (s : TailedFile) : ShrinkOp → TailedFile × List Call
  | .op op => s.step op
  | .truncate size => ({ s with content := s.content.take size }, [])

/-- `process` notices a truncation: the size is below the position. -/
def TailedFile.Detects (s : TailedFile) : Prop :=
  s.record.symlinkPath = none ∧ s.record.streamFail = false ∧
    (s.content.length : Int) < s.record.fileCurrentPosition

instance (s : TailedFile) : Decidable s.Detects := inferInstanceAs (Decidable (_ ∧ _ ∧ _))

/-- A run so far: the file, the calls of its record, and how many bytes had been
read when a truncation was noticed. -/
structure Trail where
  file : TailedFile
  calls : List Call
  detections : List ℕ

/-- One operation more. -/
def Trail.next (t : Trail) (op : ShrinkOp) : Trail where
  file := (t.file.shrinkStep op).1
  calls := t.calls ++ (t.file.shrinkStep op).2
  detections :=
    if op = .op .process ∧ t.file.Detects then
      t.detections ++ [(buffers t.calls).flatten.length]
    else t.detections

/-- **Truncation is isolated** in an operation: every position it saves lies
between 0 and the position of the record, and of the messages so far none mixes
bytes read before and after a truncation was noticed. -/
def Trail.Isolated (t : Trail) (op : ShrinkOp) : Prop :=
  (∀ save ∈ saved (t.file.shrinkStep op).2,
      0 ≤ save.2 ∧ save.2 ≤ (t.next op).file.record.fileCurrentPosition) ∧
    ∀ d ∈ (t.next op).detections, ¬Mixes (messages (t.next op).calls) d

/-- What an operation needs: a `process` that reads starts at no negative
position, and when it notices a truncation, nothing is pending, or the first
buffer it is going to read begins with a match. -/
def Trail.Safe (re : DelimiterRegex) (t : Trail) (op : ShrinkOp) : Prop :=
  op = .op .process → t.file.record.symlinkPath = none →
    0 ≤ t.file.record.fileCurrentPosition ∧
      (t.file.Detects → t.file.record.buffer = [] ∨ t.file.content ≠ [] ∧
        (re.positions (t.file.content.take
          PointersTableInternalRecord.readBufferSize)).head? = some 0)

instance (re : DelimiterRegex) (t : Trail) (op : ShrinkOp) : Decidable (t.Safe re op) :=
  inferInstanceAs (Decidable (_ → _ → _ ∧ (_ → _ ∨ _ ∧ _)))

/-! ### The first message after a truncation -/

namespace PointersTableInternalRecord

variable {r : PointersTableInternalRecord} {re : DelimiterRegex}

/-- **The first message continues the pending text**, if there is any. -/
theorem processBuffer_head (hre : r.startMsgRegEx = some re) (hpending : r.buffer ≠ [])
    (buffer : Bytes) :
    (∃ rest, messages (r.processBuffer buffer).2 = r.buffer :: rest ∧
        (re.positions buffer).head? = some 0) ∨
      (∃ it rest, messages (r.processBuffer buffer).2 = (r.buffer ++ buffer.take it) :: rest ∧
        (re.positions buffer).head? = some it ∧ it ≠ 0) ∨
      messages (r.processBuffer buffer).2 = [] ∧
        (r.processBuffer buffer).1.buffer = r.buffer ++ buffer ∧
        (re.positions buffer).head? = none := by
  rw [processBuffer]
  split
  case h_2 h => simp [hre] at h
  case h_1 re' h =>
    obtain rfl : re = re' := Option.some.inj (hre.symm.trans h)
    dsimp only
    rw [messages_map]
    cases re.positions buffer with
    | nil => exact Or.inr (Or.inr ⟨rfl, rfl, rfl⟩)
    | cons it its =>
      by_cases hit : it = 0
      · refine Or.inl ⟨(regexMessages buffer it its).1, ?_, by simp [hit]⟩
        simp [regexBuffer, hpending, hit]
      · refine Or.inr (Or.inl ⟨it, (regexMessages buffer it its).1, ?_, rfl, hit⟩)
        simp [regexBuffer, hpending, hit]

/-- The first message the read loop hands on continues the pending text. -/
theorem readLoop_head (hre : r.startMsgRegEx = some re) (hpending : r.buffer ≠ [])
    (content : Bytes) (added get totalRead : ℕ) {m : Bytes}
    (hm : (messages (readLoop content added get totalRead r).2).head? = some m) :
    r.buffer <+: m := by
  fun_induction readLoop content added get totalRead r with
  | case1 => simp at hm
  | case2 get totalRead r hlt needRead read actualRead hpos out r' rest ih =>
    rw [messages_cons_processBuffer, messages_append] at hm
    rcases processBuffer_head hre hpending read with
      ⟨ms, hms, -⟩ | ⟨it, ms, hms, -, -⟩ | ⟨hms, hbuffer, -⟩
    · rw [show messages out.2 = r.buffer :: ms from hms, List.cons_append, List.head?_cons,
        Option.some_inj] at hm
      exact hm ▸ List.prefix_refl _
    · rw [show messages out.2 = _ :: ms from hms, List.cons_append, List.head?_cons,
        Option.some_inj] at hm
      exact hm ▸ List.prefix_append _ _
    · rw [show messages out.2 = [] from hms, List.nil_append] at hm
      have hrest : r'.buffer = r.buffer ++ read := hbuffer
      have hprefix := ih ((r.processBuffer_spec read).1.startMsgRegEx.trans hre)
        (by simp [hrest, hpending]) hm
      rw [hrest] at hprefix
      exact (List.prefix_append _ _).trans hprefix
  | case3 => simp at hm

/-- **What follows the pending text when a file is read from its beginning**: the
first message is the pending text itself if the first buffer begins with a match,
and otherwise, if there is one, the pending text and more. -/
theorem process_head (hre : r.startMsgRegEx = some re) (hpending : r.buffer ≠ [])
    (hlink : r.symlinkPath = none) (hfail : r.streamFail = false)
    (hfollow : r.mode.followOnly = false) (hposition : r.fileCurrentPosition = 0)
    {content : Bytes} (hne : content ≠ []) :
    ((re.positions (content.take readBufferSize)).head? = some 0 →
        ∃ rest, messages (r.process content).2 = r.buffer :: rest) ∧
      ((re.positions (content.take readBufferSize)).head? ≠ some 0 →
        ∀ m, (messages (r.process content).2).head? = some m →
          ∃ x ≠ [], r.buffer ++ x <+: m) := by
  have hpos : 0 < content.length := List.length_pos_iff.mpr hne
  have hsize : ¬((content.length : Int) < 0) := by omega
  have hprocess : messages (r.process content).2 =
      messages (readLoop content content.length 0 0 r).2 := by
    simp [process, hlink, hfail, hposition, hsize, hfollow, hpos]
  have hread : substr content 0 (min readBufferSize (content.length - 0)) =
      content.take readBufferSize := by
    rw [substr, List.drop_zero, Nat.sub_zero]
    exact List.take_eq_take_min.symm
  have hreadne : content.take readBufferSize ≠ [] := by
    rw [Ne, List.take_eq_nil_iff]
    rintro (h | h)
    · exact absurd h (by decide)
    · exact hne h
  rw [hprocess, readLoop, dif_pos hpos]
  dsimp only
  rw [hread, if_neg (by simpa using hreadne)]
  dsimp only
  rw [messages_cons_processBuffer, messages_append]
  rcases processBuffer_head hre hpending (content.take readBufferSize) with
    ⟨ms, hms, hhead⟩ | ⟨it, ms, hms, hhead, hit⟩ | ⟨hms, hbuffer, hhead⟩
  · rw [hms]
    exact ⟨fun _ => ⟨_, rfl⟩, fun h => absurd hhead h⟩
  · rw [hms, hhead]
    refine ⟨fun h => absurd (Option.some.inj h) hit, fun _ m hm => ?_⟩
    rw [List.cons_append, List.head?_cons, Option.some_inj] at hm
    refine ⟨(content.take readBufferSize).take it, ?_, hm ▸ List.prefix_refl _⟩
    rw [Ne, List.take_eq_nil_iff]
    exact fun h => h.elim hit hreadne
  · rw [hms, hhead, List.nil_append]
    refine ⟨fun h => absurd h (by simp), fun _ m hm => ⟨content.take readBufferSize, hreadne, ?_⟩⟩
    have hprefix := fun hre hne => @readLoop_head _ re hre hne content _ _ _ m hm
    rw [← hbuffer]
    refine hprefix ((r.processBuffer_spec _).1.startMsgRegEx.trans hre) fun hc => hpending ?_
    exact (List.append_eq_nil_iff.mp (hbuffer.symm.trans hc)).1

end PointersTableInternalRecord

/-! ### The invariant -/

/-- **The invariant of a run in which truncation is isolated**: what was read is
in the messages or pending, no more is pending than the file has been read since
it was last read from its beginning, and every truncation that was noticed lies
behind in the messages, inside none of them. -/
structure Trail.Sound (re : DelimiterRegex) (t : Trail) : Prop where
  startMsgRegEx : t.file.record.startMsgRegEx = some re
  saveState : t.file.record.mode.saveState = true
  streamFail : t.file.record.streamFail = false
  kept : (messages t.calls).flatten ++ t.file.record.buffer = (buffers t.calls).flatten
  pending : t.file.record.buffer = [] ∨
    (t.file.record.buffer.length : Int) ≤ t.file.record.fileCurrentPosition
  passed : ∀ d ∈ t.detections, d ≤ (messages t.calls).flatten.length ∧ ¬Mixes (messages t.calls) d

section Step

variable {re : DelimiterRegex} {t : Trail}

theorem Trail.Sound.followOnly (h : t.Sound re) : t.file.record.mode.followOnly = false := by
  have := t.file.record.mode.exclusive
  rw [h.saveState] at this
  simpa using this

/-- Offsets that have been passed stay passed. -/
theorem Trail.Sound.passed_append (h : t.Sound re) (calls : List Call) :
    ∀ d ∈ t.detections, d ≤ (messages (t.calls ++ calls)).flatten.length ∧
      ¬Mixes (messages (t.calls ++ calls)) d := by
  intro d hd
  obtain ⟨hle, hmix⟩ := h.passed d hd
  rw [messages_append]
  refine ⟨?_, (mixes_append hle).not.mpr hmix⟩
  rw [List.flatten_append, List.length_append]
  omega

/-- What the position that is saved has to do with what is pending. -/
theorem savePosition_eq (r : PointersTableInternalRecord) (h : r.mode.saveState = true) :
    saved r.savePosition = [(r.source.filename, r.fileCurrentPosition - r.buffer.length)] := by
  rw [PointersTableInternalRecord.savePosition, if_pos h]
  rfl

/-- **An operation of the writer** does no harm. -/
theorem Trail.Sound.write (h : t.Sound re) {op : ShrinkOp} (content : Bytes)
    (hstep : t.file.shrinkStep op = ({ t.file with content := content }, []))
    (hdetects : ¬(op = .op .process ∧ t.file.Detects)) :
    t.Isolated op ∧ (t.next op).Sound re := by
  have hnext : t.next op = ⟨{ t.file with content := content }, t.calls, t.detections⟩ := by
    rw [Trail.next, if_neg hdetects, hstep, List.append_nil]
  rw [Trail.Isolated, hnext, hstep]
  exact ⟨⟨fun save hmem => absurd hmem List.not_mem_nil, fun d hd => (h.passed d hd).2⟩,
    h.startMsgRegEx, h.saveState, h.streamFail, h.kept, h.pending, h.passed⟩

/-- **A flush** hands on the pending text as a message of its own. -/
theorem Trail.Sound.flush (h : t.Sound re) (hpending : t.file.record.buffer ≠ []) :
    t.Isolated (.op .flush) ∧ (t.next (.op .flush)).Sound re := by
  generalize hr : ({ t.file.record with buffer := [], nothingPending := fun _ => rfl } :
    PointersTableInternalRecord) = r
  have hsave : r.mode.saveState = true := by rw [← hr]; exact h.saveState
  have hposition : r.fileCurrentPosition = t.file.record.fileCurrentPosition := by rw [← hr]
  have hbuffer : r.buffer = [] := by rw [← hr]
  have hstep : t.file.shrinkStep (.op .flush) = ({ t.file with record := r },
      .processMessage t.file.record.buffer :: r.savePosition) := by
    simp [TailedFile.shrinkStep, TailedFile.step, PointersTableInternalRecord.flush, hpending, ← hr]
  have hnext : t.next (.op .flush) = ⟨{ t.file with record := r },
      t.calls ++ (.processMessage t.file.record.buffer :: r.savePosition), t.detections⟩ := by
    rw [Trail.next, if_neg (by simp), hstep]
  have hpassed := h.passed_append (.processMessage t.file.record.buffer :: r.savePosition)
  have hpos := h.pending.resolve_left hpending
  rw [Trail.Isolated, hnext, hstep]
  refine ⟨⟨fun save hmem => ?_, fun d hd => (hpassed d hd).2⟩, ?_, hsave, ?_, ?_, Or.inl hbuffer,
    hpassed⟩
  · rw [saved_cons_processMessage, savePosition_eq r hsave, List.mem_singleton] at hmem
    rw [hmem, hbuffer]
    dsimp only
    rw [List.length_nil]
    omega
  · rw [← hr]
    exact h.startMsgRegEx
  · rw [← hr]
    exact h.streamFail
  · dsimp only
    rw [hbuffer, ← List.append_nil (buffers _).flatten]
    simp [← h.kept]

/-- The offset a `process` reads from. -/
def TailedFile.readFrom (s : TailedFile) : Int :=
  if s.Detects then 0 else s.record.fileCurrentPosition

/-- **What a `process` does** to a record on no symbolic link and at no negative
position: it reads the file from the offset on, makes the calls `c`, ends at the
size of the file and saves the position. -/
structure Trail.Processed (t : Trail) (r' : PointersTableInternalRecord) (c : List Call) :
    Prop where
  process : t.file.record.process t.file.content = (r', c ++ r'.savePosition)
  sameFile : PointersTableInternalRecord.SameFile t.file.record r'
  streamFail : r'.streamFail = false
  position : r'.fileCurrentPosition = t.file.content.length
  nothingSaved : saved c = []
  kept : (messages c).flatten ++ r'.buffer = t.file.record.buffer ++ (buffers c).flatten
  read : (buffers c).flatten.length + t.file.readFrom = t.file.content.length

theorem Trail.Sound.processed (h : t.Sound re) (hlink : t.file.record.symlinkPath = none)
    (hnonneg : 0 ≤ t.file.record.fileCurrentPosition) : ∃ r' c, t.Processed r' c := by
  obtain ⟨n, hn, hle, hprocess⟩ : ∃ n : ℕ, t.file.readFrom = n ∧ n ≤ t.file.content.length ∧
      t.file.record.process t.file.content =
        { t.file.record with fileCurrentPosition := n }.process t.file.content := by
    rw [TailedFile.readFrom]
    split_ifs with hdet
    · exact ⟨0, rfl, Nat.zero_le _,
        t.file.record.process_of_size_lt hlink h.streamFail hdet.2.2⟩
    · obtain ⟨n, hn⟩ := Int.eq_ofNat_of_zero_le hnonneg
      refine ⟨n, hn, ?_, by rw [← hn]⟩
      by_contra hlt
      exact hdet ⟨hlink, h.streamFail, by omega⟩
  obtain ⟨c, hreads, hcalls⟩ :=
    { t.file.record with fileCurrentPosition := n }.process_reads hlink h.streamFail h.followOnly
      rfl hle
  rw [← hprocess] at hreads hcalls
  have hfile := hreads.sameFile
  have hlen : (t.file.content.drop n).length = t.file.content.length - n := List.length_drop
  have hkept := hreads.kept
  rw [show PointersTableInternalRecord.startMsgRegEx _ = some re from h.startMsgRegEx,
    PointersTableInternalRecord.kept, ← hreads.buffers] at hkept
  refine ⟨_, c, Prod.ext rfl hcalls, ⟨hfile.source, hfile.fileDescriptor, hfile.startMsgRegEx,
    hfile.mode, hfile.symlinkPath⟩, hreads.streamFail.trans h.streamFail, ?_, hreads.saved, hkept,
    ?_⟩
  · rw [hreads.position, hlen]
    dsimp only
    omega
  · rw [hreads.buffers, hlen, hn]
    omega

/-- The first message of a `process` that notices a truncation, with something
pending. -/
theorem Trail.Sound.process_head (h : t.Sound re) (hdet : t.file.Detects)
    (hpending : t.file.record.buffer ≠ []) (hne : t.file.content ≠ []) :
    ((re.positions (t.file.content.take
          PointersTableInternalRecord.readBufferSize)).head? = some 0 →
        ∃ rest, messages (t.file.record.process t.file.content).2 =
          t.file.record.buffer :: rest) ∧
      ((re.positions (t.file.content.take
          PointersTableInternalRecord.readBufferSize)).head? ≠ some 0 →
        ∀ m, (messages (t.file.record.process t.file.content).2).head? = some m →
          ∃ x ≠ [], t.file.record.buffer ++ x <+: m) := by
  rw [t.file.record.process_of_size_lt hdet.1 h.streamFail hdet.2.2]
  exact PointersTableInternalRecord.process_head
    (r := { t.file.record with fileCurrentPosition := 0 }) h.startMsgRegEx hpending hdet.1
    h.streamFail h.followOnly rfl hne

/-- What was read when a truncation is noticed: the messages so far and the
pending text. -/
theorem Trail.Sound.offset_eq (h : t.Sound re) :
    (buffers t.calls).flatten.length =
      (messages t.calls).flatten.length + t.file.record.buffer.length := by
  rw [← h.kept, List.length_append]

namespace Trail.Processed

variable {r' : PointersTableInternalRecord} {c : List Call} (hp : t.Processed r' c)

include hp

theorem messages_process : messages (t.file.record.process t.file.content).2 = messages c := by
  rw [hp.process]
  simp

theorem shrinkStep : t.file.shrinkStep (.op .process) =
    ({ t.file with record := r' }, c ++ r'.savePosition) := by
  rw [TailedFile.shrinkStep, TailedFile.step, hp.process]

theorem file_next : (t.next (.op .process)).file = { t.file with record := r' } := by
  rw [Trail.next, hp.shrinkStep]

theorem calls_next : (t.next (.op .process)).calls = t.calls ++ (c ++ r'.savePosition) := by
  rw [Trail.next, hp.shrinkStep]

theorem messages_next :
    messages (t.next (.op .process)).calls = messages t.calls ++ messages c := by
  rw [hp.calls_next]
  simp

theorem saveState (h : t.Sound re) : r'.mode.saveState = true := by
  rw [hp.sameFile.mode]
  exact h.saveState

theorem saved_shrinkStep (h : t.Sound re) : saved (t.file.shrinkStep (.op .process)).2 =
    [(r'.source.filename, r'.fileCurrentPosition - r'.buffer.length)] := by
  rw [hp.shrinkStep, saved_append, hp.nothingSaved, List.nil_append,
    savePosition_eq r' (hp.saveState h)]

theorem length_kept : (messages c).flatten.length + r'.buffer.length =
    t.file.record.buffer.length + (buffers c).flatten.length := by
  have hlen := congrArg List.length hp.kept
  rwa [List.length_append, List.length_append] at hlen

/-- After a truncation the pending text is empty or the first message. -/
theorem first_of_safe (h : t.Sound re) (hsafe : t.Safe re (.op .process))
    (hdet : t.file.Detects) :
    t.file.record.buffer = [] ∨ ∃ rest, messages c = t.file.record.buffer :: rest := by
  rcases (hsafe rfl hdet.1).2 hdet with hnil | ⟨hne, hhead⟩
  · exact Or.inl hnil
  · by_cases hpending : t.file.record.buffer = []
    · exact Or.inl hpending
    · exact Or.inr (hp.messages_process ▸ (h.process_head hdet hpending hne).1 hhead)

/-- No more is pending than the file has been read. -/
theorem pending (h : t.Sound re) (hsafe : t.Safe re (.op .process))
    (hnonneg : 0 ≤ t.file.record.fileCurrentPosition) :
    (r'.buffer.length : Int) ≤ t.file.content.length := by
  have hlen := hp.length_kept
  have hread := hp.read
  rw [TailedFile.readFrom] at hread
  split_ifs at hread with hdet
  · rcases hp.first_of_safe h hsafe hdet with hnil | ⟨rest, hrest⟩
    · rw [hnil, List.length_nil] at hlen
      omega
    · rw [hrest, List.flatten_cons, List.length_append] at hlen
      omega
  · rcases h.pending with hnil | hle
    · rw [hnil, List.length_nil] at hlen
      omega
    · omega

/-- Every truncation noticed so far lies behind, inside no message. -/
theorem passed (h : t.Sound re) (hsafe : t.Safe re (.op .process)) :
    ∀ d ∈ (t.next (.op .process)).detections,
      d ≤ (messages t.calls ++ messages c).flatten.length ∧
        ¬Mixes (messages t.calls ++ messages c) d := by
  intro d hd
  rw [Trail.next] at hd
  have hold : d ∈ t.detections → d ≤ (messages t.calls ++ messages c).flatten.length ∧
      ¬Mixes (messages t.calls ++ messages c) d := by
    intro hd
    have := h.passed_append c d hd
    rwa [messages_append] at this
  split_ifs at hd with hdet
  · rcases List.mem_append.mp hd with hd | hd
    · exact hold hd
    · -- the truncation is noticed at the end of a message
      obtain ⟨ms, rest, hms, hoffset⟩ : ∃ ms rest, messages t.calls ++ messages c = ms ++ rest ∧
          d = ms.flatten.length := by
        rw [List.mem_singleton.mp hd, h.offset_eq]
        rcases hp.first_of_safe h hsafe hdet.2 with hnil | ⟨rest, hrest⟩
        · exact ⟨messages t.calls, messages c, rfl, by rw [hnil]; rfl⟩
        · refine ⟨messages t.calls ++ [t.file.record.buffer], rest, by rw [hrest]; simp, ?_⟩
          rw [List.flatten_append, List.flatten_singleton, List.length_append]
      rw [hms, hoffset, mixes_append le_rfl, List.flatten_append, List.length_append]
      exact ⟨Nat.le_add_right .., not_mixes_of_le le_rfl⟩
  · exact hold hd

end Trail.Processed

/-- **A `process`, given that it is safe**: truncation is isolated in it, and the
invariant survives. -/
theorem Trail.Sound.process (h : t.Sound re) (hlink : t.file.record.symlinkPath = none)
    (hsafe : t.Safe re (.op .process)) :
    t.Isolated (.op .process) ∧ (t.next (.op .process)).Sound re := by
  have hnonneg := (hsafe rfl hlink).1
  obtain ⟨r', c, hp⟩ := h.processed hlink hnonneg
  have hpending := hp.pending h hsafe hnonneg
  have hend := hp.position
  refine ⟨⟨fun save hmem => ?_, fun d hd => ?_⟩, ?_, ?_, ?_, ?_, ?_, fun d hd => ?_⟩
  · rw [hp.saved_shrinkStep h, List.mem_singleton] at hmem
    rw [hp.file_next, hmem]
    dsimp only
    omega
  · rw [hp.messages_next]
    exact (hp.passed h hsafe d hd).2
  · rw [hp.file_next]
    exact hp.sameFile.startMsgRegEx.trans h.startMsgRegEx
  · rw [hp.file_next]
    exact hp.saveState h
  · rw [hp.file_next]
    exact hp.streamFail
  · rw [hp.file_next, hp.messages_next, hp.calls_next, List.flatten_append, List.append_assoc,
      hp.kept, ← List.append_assoc, h.kept]
    simp
  · rw [hp.file_next]
    exact Or.inr (hend ▸ hpending)
  · rw [hp.messages_next]
    exact hp.passed h hsafe d hd

/-- After a truncation with something pending, and no message that mixes: the file is
not empty, and its first buffer begins with a match. -/
theorem Trail.Processed.head_of_isolated {r' : PointersTableInternalRecord} {c : List Call}
    (hp : t.Processed r' c) (h : t.Sound re) (hisolated : t.Isolated (.op .process))
    (hdet : t.file.Detects) (hpending : t.file.record.buffer ≠ []) :
    t.file.content ≠ [] ∧ (re.positions (t.file.content.take
      PointersTableInternalRecord.readBufferSize)).head? = some 0 := by
  have hlen := hp.length_kept
  have hread := hp.read
  have hend := hp.position
  rw [TailedFile.readFrom, if_pos hdet] at hread
  have hpos := List.length_pos_iff.mpr hpending
  -- no position below 0 is saved, so some message was handed on
  have hbound : (r'.buffer.length : Int) ≤ t.file.content.length := by
    have hmem : (r'.source.filename, r'.fileCurrentPosition - r'.buffer.length) ∈
        saved (t.file.shrinkStep (.op .process)).2 := by
      rw [hp.saved_shrinkStep h]
      exact List.mem_singleton_self _
    have := (hisolated.1 _ hmem).1
    dsimp only at this
    omega
  obtain ⟨m, ms, hms⟩ : ∃ m ms, messages c = m :: ms := by
    refine List.exists_cons_of_ne_nil fun hnil => ?_
    rw [hnil, List.flatten_nil, List.length_nil] at hlen
    omega
  have hne : t.file.content ≠ [] := by
    -- of an empty file nothing is read, and nothing is handed on
    intro hnil
    have hnone : messages (t.file.record.process t.file.content).2 = [] := by
      rw [t.file.record.process_of_size_lt hdet.1 h.streamFail hdet.2.2, hnil]
      simp [PointersTableInternalRecord.process, hdet.1, h.streamFail]
    rw [hp.messages_process, hms] at hnone
    exact List.cons_ne_nil m ms hnone
  refine ⟨hne, ?_⟩
  by_contra hhead
  obtain ⟨x, hx, hprefix⟩ := (h.process_head hdet hpending hne).2 hhead m
    (by rw [hp.messages_process, hms]; rfl)
  -- the first message begins before the truncation and ends behind it
  refine hisolated.2 (buffers t.calls).flatten.length ?_ ?_
  · rw [Trail.next, if_pos ⟨rfl, hdet⟩]
    simp
  · rw [hp.messages_next]
    refine ⟨messages t.calls, m, ms, by rw [hms], ?_, ?_⟩
    · rw [h.offset_eq]
      omega
    · have hm := hprefix.length_le
      have hxpos := List.length_pos_iff.mpr hx
      rw [List.length_append] at hm
      rw [h.offset_eq]
      omega

/-- **A `process` that is not safe** saves a position below 0 or mixes. -/
theorem Trail.Sound.safe_of_isolated (h : t.Sound re)
    (hisolated : t.Isolated (.op .process)) : t.Safe re (.op .process) := by
  intro _ hlink
  by_cases hnonneg : 0 ≤ t.file.record.fileCurrentPosition
  · obtain ⟨r', c, hp⟩ := h.processed hlink hnonneg
    refine ⟨hnonneg, fun hdet => ?_⟩
    by_cases hpending : t.file.record.buffer = []
    · exact Or.inl hpending
    · exact Or.inr (hp.head_of_isolated h hisolated hdet hpending)
  · -- a position before the beginning cannot be reached, and is saved as it is
    have hsize : ¬((t.file.content.length : Int) < t.file.record.fileCurrentPosition) := by omega
    have hadded :
        ((t.file.content.length : Int) - t.file.record.fileCurrentPosition).toNat > 0 := by
      omega
    have hseek : ¬((t.file.content.length : Int) - t.file.record.fileCurrentPosition).toNat ≤
        t.file.content.length := by omega
    have hmem : (t.file.record.source.filename,
        t.file.record.fileCurrentPosition - t.file.record.buffer.length) ∈
          saved (t.file.shrinkStep (.op .process)).2 := by
      simp [TailedFile.shrinkStep, TailedFile.step, PointersTableInternalRecord.process, hlink,
        h.streamFail, hsize, hadded, hseek, h.followOnly, h.saveState, savePosition_eq]
    have := (hisolated.1 _ hmem).1
    dsimp only at this
    omega

/-- **One operation**: truncation is isolated in it exactly when it is safe, and
then the invariant survives. -/
theorem Trail.Sound.step (h : t.Sound re) (op : ShrinkOp) :
    (t.Isolated op ↔ t.Safe re op) ∧ (t.Safe re op → (t.next op).Sound re) := by
  by_cases hprocess : op = .op .process ∧ t.file.record.symlinkPath = none
  · obtain ⟨rfl, hlink⟩ := hprocess
    exact ⟨⟨h.safe_of_isolated, fun hsafe => (h.process hlink hsafe).1⟩,
      fun hsafe => (h.process hlink hsafe).2⟩
  · have hsafe : t.Safe re op := fun hop hlink => absurd ⟨hop, hlink⟩ hprocess
    have hdetects : ¬(op = .op .process ∧ t.file.Detects) := fun hc =>
      hprocess ⟨hc.1, hc.2.1⟩
    suffices hstep : t.Isolated op ∧ (t.next op).Sound re from
      ⟨iff_of_true hstep.1 hsafe, fun _ => hstep.2⟩
    cases op with
    | truncate size => exact h.write (t.file.content.take size) rfl hdetects
    | op op =>
      cases op with
      | append bytes => exact h.write (t.file.content ++ bytes) rfl hdetects
      | process =>
        have hsome : t.file.record.symlinkPath.isSome := by
          rw [Option.isSome_iff_ne_none]
          exact fun hc => hprocess ⟨rfl, hc⟩
        refine h.write t.file.content ?_ hdetects
        simp [TailedFile.shrinkStep, TailedFile.step, PointersTableInternalRecord.process, hsome]
      | flush =>
        by_cases hpending : t.file.record.buffer = []
        · refine h.write t.file.content ?_ hdetects
          simp [TailedFile.shrinkStep, TailedFile.step, PointersTableInternalRecord.flush, hpending]
        · exact h.flush hpending

end Step

/-! ### Runs -/

/-- A file that has just been opened. -/
def Trail.start (source : TailSource) (fileDescriptor : ℕ) (re : DelimiterRegex) (mode : StateMode)
    (symlinkPath : Option String) (savedPosition : Int) (content : Bytes) : Trail :=
  ⟨⟨content, .create source fileDescriptor (some re) mode symlinkPath savedPosition⟩, [], []⟩

theorem Trail.sound_start (source : TailSource) (fileDescriptor : ℕ) (re : DelimiterRegex)
    {mode : StateMode} (hmode : mode.saveState = true) (symlinkPath : Option String)
    (savedPosition : Int) (content : Bytes) :
    (Trail.start source fileDescriptor re mode symlinkPath savedPosition content).Sound re where
  startMsgRegEx := rfl
  saveState := hmode
  streamFail := rfl
  kept := rfl
  pending := Or.inl rfl
  passed _ hd := absurd hd List.not_mem_nil

/-- **The messages and the pending text are the text read**, cut into pieces,
after any run: this is what makes an offset in the text read a place in the
messages. -/
theorem Trail.kept_run (re : DelimiterRegex) : ∀ (ops : List ShrinkOp) {t : Trail},
    t.file.record.startMsgRegEx = some re →
    (messages t.calls).flatten ++ t.file.record.buffer = (buffers t.calls).flatten →
    (messages (ops.foldl Trail.next t).calls).flatten ++
        (ops.foldl Trail.next t).file.record.buffer =
      (buffers (ops.foldl Trail.next t).calls).flatten
  | [], _, _, h => h
  | op :: ops, t, hre, h => by
    have hstep : (t.file.shrinkStep op).1.record.startMsgRegEx = some re ∧
        (messages (t.file.shrinkStep op).2).flatten ++ (t.file.shrinkStep op).1.record.buffer =
          t.file.record.buffer ++ (buffers (t.file.shrinkStep op).2).flatten := by
      cases op with
      | truncate size => exact ⟨hre, by simp [TailedFile.shrinkStep]⟩
      | op op =>
        cases op with
        | append bytes => exact ⟨hre, by simp [TailedFile.shrinkStep, TailedFile.step]⟩
        | process =>
          obtain ⟨hregex, hkept⟩ := t.file.record.process_kept t.file.content
          rw [hre] at hregex hkept
          exact ⟨hregex, hkept⟩
        | flush =>
          simp only [TailedFile.shrinkStep, TailedFile.step, PointersTableInternalRecord.flush]
          split_ifs with hpending <;> simp [hre]
    refine Trail.kept_run re ops hstep.1 ?_
    rw [Trail.next]
    dsimp only
    rw [messages_append, buffers_append, List.flatten_append, List.flatten_append,
      List.append_assoc, hstep.2, ← List.append_assoc, h]

/-- **When truncation is isolated.** A file is opened in `startmsg_regex` mode with
`save_state` on, at any saved position, and undergoes any appends, truncations,
calls of `process` and flushes. Every position saved lies between 0 and the
position of the record, and no message mixes bytes read before and after a
truncation was noticed, in every step, if and only if every `process` that reads
starts at no negative position and, when it notices a truncation, has nothing
pending or a match at the beginning of the first buffer it reads. (In every run
the messages and the pending text are the text read, so the offsets that
`Mixes` looks at are places in the messages.) -/
theorem truncation_isolated_iff (source : TailSource) (fileDescriptor : ℕ) (re : DelimiterRegex)
    (mode : StateMode) (hmode : mode.saveState = true) (symlinkPath : Option String)
    (savedPosition : Int) (content : Bytes) (ops : List ShrinkOp) :
    let t := Trail.start source fileDescriptor re mode symlinkPath savedPosition content
    (Machine.Along Trail.next Trail.Isolated t ops ↔
        Machine.Along Trail.next (Trail.Safe re) t ops) ∧
      (messages (ops.foldl Trail.next t).calls).flatten ++
          (ops.foldl Trail.next t).file.record.buffer =
        (buffers (ops.foldl Trail.next t).calls).flatten := by
  intro t
  have hsound := Trail.sound_start source fileDescriptor re hmode symlinkPath savedPosition content
  refine ⟨?_, Trail.kept_run re ops rfl rfl⟩
  constructor
  · intro h
    refine (Machine.Along.of_invariant (Trail.Sound re) (fun t op ht hop => ?_) hsound h).1
    have hsafe := (ht.step op).1.mp hop
    exact ⟨hsafe, (ht.step op).2 hsafe⟩
  · intro h
    refine (Machine.Along.of_invariant (Trail.Sound re) (fun t op ht hop => ?_) hsound h).1
    exact ⟨(ht.step op).1.mpr hop, (ht.step op).2 hop⟩

/-- A file that is truncated after a match, once the text behind the match has
been flushed. -/
theorem truncation_isolated_iff_flushed :
    Machine.Along Trail.next Trail.Isolated
      (Trail.start ⟨"/var/log/app.log", none⟩ 3 (literalRegex (ascii "[")) ⟨false, true, by decide⟩
        none 0 (ascii "[a"))
      [.op .process, .op .flush, .truncate 0, .op (.append (ascii "b")), .op .process] :=
  (truncation_isolated_iff ⟨"/var/log/app.log", none⟩ 3 (literalRegex (ascii "["))
    ⟨false, true, by decide⟩ rfl none 0 (ascii "[a") _).1.mpr (by decide +kernel)

/-- The same without the flush: `-2` is saved, and the next match makes a message
of `[a` and `b`. -/
theorem truncated_with_pending_text :
    let t := Trail.start ⟨"/var/log/app.log", none⟩ 3 (literalRegex (ascii "["))
      ⟨false, true, by decide⟩ none 0 (ascii "[a")
    let ops := [.op .process, .truncate 0, .op (.append (ascii "b")), .op .process]
    ¬Machine.Along Trail.next Trail.Isolated t ops ∧
      saved (ops.foldl Trail.next t).calls =
        [("/var/log/app.log", 0), ("/var/log/app.log", -2)] := by
  intro t ops
  refine ⟨fun h => ?_, by decide +kernel⟩
  have hlast : (("/var/log/app.log", -2) : String × Int) ∈
      saved (((ops.take 3).foldl Trail.next t).file.shrinkStep (.op .process)).2 := by
    decide +kernel
  have := (h.2.2.2.1.1 _ hlast).1
  exact absurd this (by decide)

end Tail

end IqLogger
