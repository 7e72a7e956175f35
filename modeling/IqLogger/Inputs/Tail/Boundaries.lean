import IqLogger.Inputs.Tail.Segmentation

/-!
# Read boundaries

A file is read in buffers that end wherever the writer had got to, or where the
read buffer was full. Both modes look at one buffer at a time, and both see the
boundaries.

In newline mode a line that is cut by a boundary is handed on in two messages:
the messages are the lines of the file exactly when every boundary is next to a
newline (`IqLogger.Tail.messages_eq_lines_iff`).

In `startmsg_regex` mode the text waits for the next match in the pending text,
so a boundary alone does no harm; but a delimiter that is cut by a boundary is
not matched. Two ways of reading one file give the same messages exactly when
they make the matcher report the same positive offsets
(`IqLogger.Tail.messages_eq_messages_iff`), which they do when no occurrence of
the delimiter crosses a boundary (`IqLogger.Tail.matchOffsets_eq`). So the
boundaries of a file are invisible only where there is nothing to cut: when the
delimiter is a single byte, or does not occur after the beginning of the file
(`IqLogger.Tail.boundaries_invisible_iff`).
-/

namespace IqLogger

namespace Tail

/-! ### Newline mode -/

/-- In newline mode each buffer is handed on by itself. -/
theorem run_processBuffer_line {r : PointersTableInternalRecord} (hre : r.startMsgRegEx = none)
    (bufs : List Bytes) :
    (Machine.run PointersTableInternalRecord.processBuffer r bufs).1 = r ∧
      messages (Machine.run PointersTableInternalRecord.processBuffer r bufs).2 =
        bufs.flatMap (List.fields newline) := by
  induction bufs with
  | nil => exact ⟨rfl, rfl⟩
  | cons b bufs ih =>
    obtain ⟨hmessages, hrecord⟩ := r.processBuffer_line hre b
    rw [Machine.run_cons, hrecord, messages_append, hmessages, List.flatMap_cons]
    exact ⟨ih.1, congrArg _ ih.2⟩

/-- **In newline mode the messages are the non-empty lines of the file exactly
when every boundary is next to a newline.** -/
theorem messages_eq_lines_iff (r : PointersTableInternalRecord) (hre : r.startMsgRegEx = none)
    (bufs : List Bytes) (hne : ∀ b ∈ bufs, b ≠ []) :
    messages (Machine.run PointersTableInternalRecord.processBuffer r bufs).2 =
        bufs.flatten.fields newline ↔
      bufs.IsChain (List.CutAt newline) := by
  rw [(run_processBuffer_line hre bufs).2]
  exact List.flatMap_fields_eq_iff hne

/-- A record in newline mode. -/
def lineRecord : PointersTableInternalRecord :=
  .create ⟨"/l", none⟩ 3 none ⟨false, false, StateMode.exclusive_plain⟩ none 0

/-- Two buffers with the boundary after the newline of an empty line. -/
theorem messages_eq_lines_two_buffers :
    messages (Machine.run PointersTableInternalRecord.processBuffer lineRecord
        [ascii "a\n\n", ascii "b\n"]).2 = (ascii "a\n\nb\n").fields newline :=
  (messages_eq_lines_iff lineRecord rfl [ascii "a\n\n", ascii "b\n"] (by decide)).mpr (by decide)

/-- **A line cut by a boundary is handed on in two messages.** -/
theorem cut_line_not_a_message :
    ¬∀ (r : PointersTableInternalRecord) (bufs : List Bytes), r.startMsgRegEx = none →
      (∀ b ∈ bufs, b ≠ []) → bufs.flatten.getLast? = some newline →
      messages (Machine.run PointersTableInternalRecord.processBuffer r bufs).2 =
        bufs.flatten.fields newline := by
  intro h
  have h := h lineRecord [ascii "a", ascii "b\n"] rfl (by decide) (by decide)
  revert h
  decide +kernel

/-! ### `startmsg_regex` mode -/

/-- The operations on a record that reads a file in the given buffers, and is
flushed at the end. -/
def readAndFlush (bufs : List Bytes) : List StreamOp := bufs.map .processBuffer ++ [.flush]

/-- The offsets in a file at which the matcher reports a match when it is run over
each buffer. -/
def matchOffsets (re : DelimiterRegex) (bufs : List Bytes) : List ℕ :=
  cutOffsets re 0 (bufs.map .processBuffer)

theorem stream_map_processBuffer (bufs : List Bytes) :
    stream (bufs.map .processBuffer) = bufs.flatten := by
  induction bufs with
  | nil => rfl
  | cons b bufs ih => exact congrArg (b ++ ·) ih

theorem stream_readAndFlush (bufs : List Bytes) : stream (readAndFlush bufs) = bufs.flatten := by
  rw [readAndFlush, stream_snoc, stream_map_processBuffer, StreamOp.text, List.append_nil]

/-- A flush at the end of the file is a cut there. -/
theorem cutOffsets_readAndFlush (re : DelimiterRegex) (bufs : List Bytes) :
    cutOffsets re 0 (readAndFlush bufs) = matchOffsets re bufs ++ [bufs.flatten.length] := by
  rw [readAndFlush, cutOffsets_snoc, stream_map_processBuffer, matchOffsets]
  simp [StreamOp.positions]

/-- A record that reads a file and is flushed hands on the pieces between the
matches. -/
theorem segmented_readAndFlush {re : DelimiterRegex} {r : PointersTableInternalRecord}
    (hre : r.startMsgRegEx = some re) (hbuffer : r.buffer = []) (bufs : List Bytes) :
    messages (Machine.run StreamOp.perform r (readAndFlush bufs)).2 =
        bufs.flatten.segments (matchOffsets re bufs ++ [bufs.flatten.length]) ∧
      (matchOffsets re bufs ++ [bufs.flatten.length]).Pairwise (· ≤ ·) ∧
      ∀ c ∈ matchOffsets re bufs ++ [bufs.flatten.length], c ≤ bufs.flatten.length := by
  have h := segmented_run hre hbuffer (readAndFlush bufs)
  have hsort := h.sorted
  have hle := h.le_length
  rw [cutOffsets_readAndFlush] at hsort hle
  rw [stream_readAndFlush] at hle
  refine ⟨?_, hsort, hle⟩
  rw [h.messages, stream_readAndFlush, cutOffsets_readAndFlush]

/-- **Two ways of reading a file give the same messages exactly when they make
the matcher report the same offsets**, the beginning apart. -/
theorem messages_eq_messages_iff (delimiter : Bytes) (r : PointersTableInternalRecord)
    (hre : r.startMsgRegEx = some (literalRegex delimiter)) (hbuffer : r.buffer = [])
    (bufs bufs' : List Bytes) (hcontent : bufs.flatten = bufs'.flatten) :
    messages (Machine.run StreamOp.perform r (readAndFlush bufs)).2 =
        messages (Machine.run StreamOp.perform r (readAndFlush bufs')).2 ↔
      ∀ o, 0 < o → o < bufs.flatten.length →
        (o ∈ matchOffsets (literalRegex delimiter) bufs ↔
          o ∈ matchOffsets (literalRegex delimiter) bufs') := by
  obtain ⟨hmessages, hsort, hle⟩ := segmented_readAndFlush hre hbuffer bufs
  obtain ⟨hmessages', hsort', hle'⟩ := segmented_readAndFlush hre hbuffer bufs'
  rw [← hcontent] at hmessages' hsort' hle'
  rw [hmessages, hmessages', List.segments_eq_iff hsort hsort' hle hle']
  refine forall_congr' fun o => imp_congr_right fun _ => ?_
  simp only [List.mem_append, List.mem_singleton]
  constructor
  · intro h hlt
    rwa [or_iff_left hlt.ne, or_iff_left hlt.ne] at h
  · intro h
    -- the flush cuts at the end of the file in either run, and nothing cuts after it
    rcases lt_trichotomy o bufs.flatten.length with hlt | heq | hgt
    · rw [h hlt]
    · simp [heq]
    · have hno : ∀ {l : List ℕ}, (∀ c ∈ l ++ [bufs.flatten.length], c ≤ bufs.flatten.length) →
          o ∉ l := fun hl hmem => by
        have := hl o (by simp [hmem])
        omega
      simp [hno hle, hno hle']

/-- **When no occurrence of the delimiter crosses a boundary**, the offsets are
those of the matches in the whole file. -/
theorem matchOffsets_eq (delimiter : Bytes) (bufs : List Bytes)
    (hcross : ∀ left right, bufs = left ++ right →
      List.NoCrossing delimiter left.flatten right.flatten) :
    matchOffsets (literalRegex delimiter) bufs =
      List.literalMatches delimiter 0 0 bufs.flatten := by
  suffices h : ∀ n, cutOffsets (literalRegex delimiter) n (bufs.map .processBuffer) =
      List.literalMatches delimiter n 0 bufs.flatten from h 0
  induction bufs with
  | nil => exact fun n => rfl
  | cons b bufs ih =>
    intro n
    have hfirst : List.NoCrossing delimiter b bufs.flatten := by
      simpa using hcross [b] bufs rfl
    have hrest := ih fun left right heq => by
      have := hcross (b :: left) right (by rw [heq, List.cons_append])
      rw [List.flatten_cons] at this
      exact this.of_append
    have hpositions : (literalRegex delimiter).positions b = List.literalMatches delimiter 0 0 b :=
      rfl
    rw [List.map_cons, cutOffsets, StreamOp.positions, StreamOp.text, hrest, List.flatten_cons,
      List.literalMatches_append (Nat.zero_le _) hfirst, hpositions,
      ← List.literalMatches_add, Nat.zero_add]

/-- So the boundaries are invisible as long as they do not cut an occurrence of
the delimiter. -/
theorem messages_eq_messages_of_noCrossing (delimiter : Bytes) {r : PointersTableInternalRecord}
    (hre : r.startMsgRegEx = some (literalRegex delimiter)) (hbuffer : r.buffer = [])
    (bufs bufs' : List Bytes) (hcontent : bufs.flatten = bufs'.flatten)
    (hcross : ∀ left right, bufs = left ++ right →
      List.NoCrossing delimiter left.flatten right.flatten)
    (hcross' : ∀ left right, bufs' = left ++ right →
      List.NoCrossing delimiter left.flatten right.flatten) :
    messages (Machine.run StreamOp.perform r (readAndFlush bufs)).2 =
      messages (Machine.run StreamOp.perform r (readAndFlush bufs')).2 := by
  rw [(segmented_readAndFlush hre hbuffer bufs).1, (segmented_readAndFlush hre hbuffer bufs').1,
    matchOffsets_eq delimiter bufs hcross, matchOffsets_eq delimiter bufs' hcross', hcontent]

/-- A match that is reported is an occurrence of the delimiter in the file. -/
theorem prefix_of_mem_cutOffsets {delimiter : Bytes} {n o : ℕ} {bufs : List Bytes}
    (h : o ∈ cutOffsets (literalRegex delimiter) n (bufs.map .processBuffer)) :
    n ≤ o ∧ delimiter <+: bufs.flatten.drop (o - n) := by
  induction bufs generalizing n with
  | nil => simp [cutOffsets] at h
  | cons b bufs ih =>
    rw [List.map_cons, cutOffsets, StreamOp.positions, StreamOp.text] at h
    rw [List.flatten_cons]
    rcases List.mem_append.mp h with h | h
    · -- a match in the first buffer, which the rest of the file does not undo
      obtain ⟨p, hp, rfl⟩ := List.mem_map.mp h
      have hlen := (List.of_mem_literalMatches hp).2
      have hpre := List.prefix_of_mem_literalMatches hp
      refine ⟨Nat.le_add_left n p, ?_⟩
      rw [Nat.add_sub_cancel, List.drop_append_of_le_length (by omega)]
      exact hpre.trans (List.prefix_append ..)
    · obtain ⟨hle, hpre⟩ := ih h
      have hsub : o - n = b.length + (o - (n + b.length)) := by omega
      refine ⟨by omega, ?_⟩
      rwa [hsub, List.drop_length_add_append]

theorem flatten_bytes (content : Bytes) : (content.map fun c => [c]).flatten = content := by
  induction content with
  | nil => rfl
  | cons c content ih => exact congrArg (c :: ·) ih

/-- Reading byte by byte, a delimiter of two bytes or more is never matched. -/
theorem matchOffsets_bytes {delimiter : Bytes} (h : 1 < delimiter.length) (content : Bytes) :
    matchOffsets (literalRegex delimiter) (content.map fun c => [c]) = [] := by
  suffices hn : ∀ n, cutOffsets (literalRegex delimiter) n
      ((content.map fun c => [c]).map .processBuffer) = [] from hn 0
  induction content with
  | nil => exact fun n => rfl
  | cons c content ih =>
    intro n
    have hnone : (literalRegex delimiter).positions [c] = [] :=
      List.literalMatches_of_length_lt (by simpa using h) 0 0
    rw [List.map_cons, List.map_cons, cutOffsets, StreamOp.positions, hnone, ih, List.map_nil,
      List.append_nil]

/-- A delimiter that occurs after the beginning of the file is matched or not, as
the file is read. -/
theorem exists_messages_ne {delimiter : Bytes} (hd : 1 < delimiter.length)
    {r : PointersTableInternalRecord} (hre : r.startMsgRegEx = some (literalRegex delimiter))
    (hbuffer : r.buffer = []) {content : Bytes} {o : ℕ} (ho : 0 < o)
    (hpre : delimiter <+: content.drop o) :
    messages (Machine.run StreamOp.perform r
        (readAndFlush [content.take o, content.drop o])).2 ≠
      messages (Machine.run StreamOp.perform r (readAndFlush (content.map fun c => [c]))).2 := by
  have hlen := hpre.length_le
  rw [List.length_drop] at hlen
  have hflat : [content.take o, content.drop o].flatten = content := by simp
  have hbytes : (content.map fun c => [c]).flatten = content := flatten_bytes content
  intro hsame
  have hiff := (messages_eq_messages_iff delimiter r hre hbuffer _ _
    (hflat.trans hbytes.symm)).mp hsame o ho (by rw [hflat]; omega)
  rw [matchOffsets_bytes hd] at hiff
  refine List.not_mem_nil (hiff.mp ?_)
  -- the delimiter begins the second buffer
  have hzero : 0 ∈ (literalRegex delimiter).positions (content.drop o) := by
    obtain ⟨c, rest, hrest⟩ : ∃ c rest, content.drop o = c :: rest :=
      List.exists_cons_of_length_pos (by rw [List.length_drop]; omega)
    have hmatch : (literalRegex delimiter).positions (c :: rest) =
        0 :: List.literalMatches delimiter 1 (delimiter.length - 1) rest :=
      if_pos (hrest ▸ hpre)
    rw [hrest, hmatch]
    exact List.mem_cons_self
  have htake : (content.take o).length = o := by
    rw [List.length_take]
    omega
  simp only [matchOffsets, List.map_cons, List.map_nil, cutOffsets, StreamOp.positions,
    StreamOp.text, List.mem_append, List.mem_map, Nat.zero_add, htake]
  exact Or.inr (Or.inl ⟨0, hzero, Nat.zero_add o⟩)

/-- **The boundaries are visible exactly when they change where the matcher
reports a match.** Two readings of a file give the same messages if and only if
the matches are reported at the same offsets, the beginning apart; and all
readings of it give the same messages if and only if the delimiter is a single
byte, or does not occur in the file after its beginning. -/
theorem boundaries_invisible_iff (delimiter : Bytes) (hd : delimiter ≠ [])
    (r : PointersTableInternalRecord) (hre : r.startMsgRegEx = some (literalRegex delimiter))
    (hbuffer : r.buffer = []) (content : Bytes) :
    (∀ bufs bufs' : List Bytes, bufs.flatten = content → bufs'.flatten = content →
      (messages (Machine.run StreamOp.perform r (readAndFlush bufs)).2 =
          messages (Machine.run StreamOp.perform r (readAndFlush bufs')).2 ↔
        ∀ o, 0 < o → o < content.length →
          (o ∈ matchOffsets (literalRegex delimiter) bufs ↔
            o ∈ matchOffsets (literalRegex delimiter) bufs'))) ∧
    ((∀ bufs bufs' : List Bytes, (∀ b ∈ bufs ++ bufs', b ≠ []) → bufs.flatten = content →
      bufs'.flatten = content →
      messages (Machine.run StreamOp.perform r (readAndFlush bufs)).2 =
        messages (Machine.run StreamOp.perform r (readAndFlush bufs')).2) ↔
      delimiter.length = 1 ∨ ∀ o, 0 < o → ¬delimiter <+: content.drop o) := by
  refine ⟨?_, ?_, ?_⟩
  · rintro bufs bufs' rfl hcontent
    exact messages_eq_messages_iff delimiter r hre hbuffer bufs bufs' hcontent.symm
  · intro h
    refine or_iff_not_imp_left.mpr fun hone o ho hpre => ?_
    have hpos : 0 < delimiter.length := List.length_pos_iff.mpr hd
    have hlen := hpre.length_le
    rw [List.length_drop] at hlen
    -- the two readings: one boundary before the occurrence, and a boundary after every byte
    refine exists_messages_ne (by omega) hre hbuffer ho hpre (h _ _ ?_ (by simp)
      (flatten_bytes content))
    intro b hb
    simp only [List.mem_append, List.mem_cons, List.not_mem_nil, or_false, List.mem_map] at hb
    rcases hb with (rfl | rfl) | ⟨c, -, rfl⟩
    · rw [Ne, List.take_eq_nil_iff]
      rintro (h | h)
      · omega
      · simp only [h, List.length_nil] at hlen
        omega
    · rw [Ne, List.drop_eq_nil_iff]
      omega
    · exact List.cons_ne_nil c []
  · rintro (hone | hnone) bufs bufs' - hbufs hbufs'
    · -- an occurrence of a single byte crosses nothing
      have hcross : ∀ l m : Bytes, List.NoCrossing delimiter l m := fun l m i hi _ => by omega
      exact messages_eq_messages_of_noCrossing delimiter hre hbuffer bufs bufs'
        (hbufs.trans hbufs'.symm) (fun _ _ _ => hcross _ _) fun _ _ _ => hcross _ _
    · -- what is matched is an occurrence, however the file is read
      refine (messages_eq_messages_iff delimiter r hre hbuffer bufs bufs'
        (hbufs.trans hbufs'.symm)).mpr fun o ho _ => ?_
      have hno : ∀ {bs : List Bytes}, bs.flatten = content →
          o ∉ matchOffsets (literalRegex delimiter) bs := fun hbs hmem => by
        have := (prefix_of_mem_cutOffsets hmem).2
        rw [hbs, Nat.sub_zero] at this
        exact hnone o ho this
      exact iff_of_false (hno hbufs) (hno hbufs')

/-- A record with a literal delimiter. -/
def literalRecord (delimiter : Bytes) : PointersTableInternalRecord :=
  .create ⟨"/l", none⟩ 3 (some (literalRegex delimiter))
    ⟨false, false, StateMode.exclusive_plain⟩ none 0

/-- A boundary before the delimiter does no harm. -/
theorem messages_eq_messages_before_delimiter :
    messages (Machine.run StreamOp.perform (literalRecord (ascii "ab"))
        (readAndFlush [ascii "xaby"])).2 =
      messages (Machine.run StreamOp.perform (literalRecord (ascii "ab"))
        (readAndFlush [ascii "x", ascii "aby"])).2 := by
  refine ((boundaries_invisible_iff (ascii "ab") (by decide) _ rfl rfl (ascii "xaby")).1 _ _
    (by decide) (by decide)).mpr ?_
  intro o _ _
  have h : matchOffsets (literalRegex (ascii "ab")) [ascii "xaby"] =
      matchOffsets (literalRegex (ascii "ab")) [ascii "x", ascii "aby"] := by decide
  rw [h]

/-- **A delimiter cut by a boundary is not matched.** -/
theorem cut_delimiter_not_matched :
    ¬∀ (delimiter : Bytes) (r : PointersTableInternalRecord) (bufs bufs' : List Bytes),
      delimiter ≠ [] → r.startMsgRegEx = some (literalRegex delimiter) → r.buffer = [] →
      (∀ b ∈ bufs ++ bufs', b ≠ []) → bufs.flatten = bufs'.flatten →
      messages (Machine.run StreamOp.perform r (readAndFlush bufs)).2 =
        messages (Machine.run StreamOp.perform r (readAndFlush bufs')).2 := by
  intro h
  have h := h (ascii "ab") (literalRecord (ascii "ab")) [ascii "xaby"] [ascii "xa", ascii "by"]
    (by decide) rfl rfl (by decide) (by decide)
  revert h
  decide

end Tail

end IqLogger
