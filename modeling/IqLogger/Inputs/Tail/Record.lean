import IqLogger.Core.Base
import IqLogger.Inputs.Tail.Event
import IqLogger.Lib.Cuts
import IqLogger.Lib.Fields
import IqLogger.Lib.Literal
import IqLogger.Lib.MaximalRuns

/-!
# One tailed file

The record the tail input keeps for an open file,
`TailMonitor::PointersTableInternalRecord`: the descriptor, how far the file has
been read, and the text read but not yet handed on. `process` reads what was
added to the file, `flush` hands on what is pending, and both end by saving the
position. What a method does besides changing the record is the list of calls it
makes (`IqLogger.Tail.Call`), in order.

The file is seen through its content at the time of the call. Reads inside the
file return the bytes asked for; the stream fails when it is asked to seek
before the beginning or to read past the end, and a failed stream is noticed,
and cleared, by the next `process` (`tellg` returns `-1`).

The two modes of `processBuffer` are described here once and for all:
`IqLogger.Tail.lineMessages_eq_fields` for the newline mode, where the messages
are the non-empty lines of the buffer, and
`IqLogger.Tail.regexBuffer_eq` for the `startmsg_regex` mode, where the pending
text and the buffer are cut at the matches.
-/

namespace IqLogger

namespace Tail

/-- The separator of the newline mode. -/
def newline : UInt8 := 10

/-- A `startmsg_regex`, by the positions `boost::cregex_iterator` reports when it
runs over a buffer: they strictly increase and lie inside the buffer. -/
structure DelimiterRegex where
  positions : Bytes → List ℕ
  sorted : ∀ buffer, (positions buffer).Pairwise (· < ·)
  le_length : ∀ buffer, ∀ p ∈ positions buffer, p ≤ buffer.length

/-- The matcher of a non-empty literal: it reports the leftmost non-overlapping
occurrences. -/
def literalRegex (delimiter : Bytes) : DelimiterRegex where
  positions := List.literalMatches delimiter 0 0
  sorted _ := List.literalMatches_sorted
  le_length buffer p hp := by
    have := (List.of_mem_literalMatches hp).2
    omega

/-- `follow_only_mode` and `save_state`, of which at most one is on: the constructor of
`TailInput` refuses a configuration with both. -/
structure StateMode where
  followOnly : Bool
  saveState : Bool
  exclusive : ¬(followOnly = true ∧ saveState = true)
  deriving DecidableEq

theorem StateMode.exclusive_plain : ¬(false = true ∧ false = true) := by
  simp

/-- What a record does besides changing itself. -/
inductive Call where
  /-- `process` hands the bytes it has read to `processBuffer`. -/
  | processBuffer (buffer : Bytes) : Call
  /-- A message is handed to `processMessage`. -/
  | processMessage (buffer : Bytes) : Call
  /-- `SavePositionServer::savePosition`. -/
  | savePosition (filename : String) (position : Int) : Call
  deriving DecidableEq, Repr

/-- The messages among some calls. -/
def messages (calls : List Call) : List Bytes :=
  calls.filterMap fun | .processMessage m => some m | _ => none

/-- The buffers among some calls. -/
def buffers (calls : List Call) : List Bytes :=
  calls.filterMap fun | .processBuffer b => some b | _ => none

/-- The positions saved among some calls. -/
def saved (calls : List Call) : List (String × Int) :=
  calls.filterMap fun | .savePosition f p => some (f, p) | _ => none

section Calls

variable (c d : List Call) (b : Bytes) (ms : List Bytes) (f : String) (p : Int)

@[simp] theorem messages_nil : messages [] = [] := rfl

@[simp] theorem messages_append : messages (c ++ d) = messages c ++ messages d :=
  List.filterMap_append ..

@[simp] theorem messages_cons_processBuffer :
    messages (.processBuffer b :: c) = messages c := rfl

@[simp] theorem messages_cons_processMessage :
    messages (.processMessage b :: c) = b :: messages c := rfl

@[simp] theorem messages_cons_savePosition :
    messages (.savePosition f p :: c) = messages c := rfl

@[simp] theorem messages_map : messages (ms.map .processMessage) = ms := by
  induction ms with
  | nil => rfl
  | cons m ms ih => simp [ih]

@[simp] theorem buffers_nil : buffers [] = [] := rfl

@[simp] theorem buffers_append : buffers (c ++ d) = buffers c ++ buffers d :=
  List.filterMap_append ..

@[simp] theorem buffers_cons_processBuffer :
    buffers (.processBuffer b :: c) = b :: buffers c := rfl

@[simp] theorem buffers_cons_processMessage :
    buffers (.processMessage b :: c) = buffers c := rfl

@[simp] theorem buffers_cons_savePosition :
    buffers (.savePosition f p :: c) = buffers c := rfl

@[simp] theorem buffers_map : buffers (ms.map .processMessage) = [] := by
  induction ms with
  | nil => rfl
  | cons m ms ih => simp [ih]

@[simp] theorem saved_nil : saved [] = [] := rfl

@[simp] theorem saved_append : saved (c ++ d) = saved c ++ saved d :=
  List.filterMap_append ..

@[simp] theorem saved_cons_processBuffer : saved (.processBuffer b :: c) = saved c := rfl

@[simp] theorem saved_cons_processMessage : saved (.processMessage b :: c) = saved c := rfl

@[simp] theorem saved_cons_savePosition :
    saved (.savePosition f p :: c) = (f, p) :: saved c := rfl

@[simp] theorem saved_map : saved (ms.map .processMessage) = [] := by
  induction ms with
  | nil => rfl
  | cons m ms ih => simp [ih]

end Calls

/-! ### Cutting a buffer into messages -/

/-- `buffer.find_first_of('\n', first)`. -/
def findNewline (buffer : Bytes) (first : ℕ) : Option ℕ :=
  ((buffer.drop first).idxOf? newline).map (first + ·)

theorem le_of_findNewline {buffer : Bytes} {first second : ℕ}
    (h : findNewline buffer first = some second) : first ≤ second := by
  obtain ⟨i, -, rfl⟩ := Option.map_eq_some_iff.mp h
  exact Nat.le_add_right first i

/-- The newline mode of `processBuffer`, from the position `first` on. -/
def lineMessages (buffer : Bytes) (first : ℕ) : List Bytes :=
  if _ : first < buffer.length then
    match _ : findNewline buffer first with
    | none => [buffer.drop first]
    | some second =>
      (if first ≠ second then [substr buffer first (second - first)] else []) ++
        lineMessages buffer (second + 1)
  else []
termination_by buffer.length - first
decreasing_by
  have := le_of_findNewline ‹_›
  omega

/-- The loop over the matches after the first: the text from each match to the
next, and the last match. -/
def regexMessages (buffer : Bytes) (prev : ℕ) : List ℕ → List Bytes × ℕ
  | [] => ([], prev)
  | it :: its =>
    let rest := regexMessages buffer it its
    (substr buffer prev (it - prev) :: rest.1, rest.2)

/-- The `startmsg_regex` mode of `processBuffer`: the messages, and what is
pending afterwards. -/
def regexBuffer (pending : Bytes) (positions : List ℕ) (buffer : Bytes) : List Bytes × Bytes :=
  match positions with
  | [] => ([], pending ++ buffer)
  | it :: its =>
    let first :=
      if pending ≠ [] then
        if it = 0 then [pending] else [pending ++ buffer.take it]
      else
        if it ≠ 0 then [substr buffer 0 it] else []
    let rest := regexMessages buffer it its
    (first ++ rest.1, buffer.drop rest.2)

/-- **The newline mode hands on the non-empty lines** of what is left of the
buffer. -/
theorem lineMessages_eq_fields (buffer : Bytes) (first : ℕ) :
    lineMessages buffer first = (buffer.drop first).fields newline := by
  fun_induction lineMessages buffer first with
  | case1 first hlt hnone =>
    have hmem : newline ∉ buffer.drop first := by simpa [findNewline] using hnone
    rw [List.fields_of_notMem hmem (by simpa using hlt)]
  | case2 first hlt second hsome ih =>
    obtain ⟨i, hi, rfl⟩ := Option.map_eq_some_iff.mp hsome
    obtain ⟨happ, hmem⟩ := List.append_cons_of_idxOf? hi
    have hsub : substr buffer first (first + i - first) = (buffer.drop first).take i := by
      rw [substr, Nat.add_sub_cancel_left]
    have hrest : buffer.drop (first + i + 1) = (buffer.drop first).drop (i + 1) := by
      rw [List.drop_drop, Nat.add_assoc]
    rw [ih, hsub, hrest]
    conv_rhs => rw [happ]
    split_ifs with hzero
    · have hne : (buffer.drop first).take i ≠ [] := by
        intro hnil
        have := congrArg List.length hnil
        simp only [List.length_take, List.length_drop, List.length_nil] at this
        omega
      rw [List.fields_append_cons_of_notMem hmem hne, List.singleton_append]
    · obtain rfl : i = 0 := by omega
      simp
  | case3 first hge => rw [List.drop_of_length_le (by omega), List.fields_nil]

/-- The loop over the matches cuts the buffer between them. -/
theorem regexMessages_eq (buffer : Bytes) (prev : ℕ) (its : List ℕ) :
    regexMessages buffer prev its = (buffer.cutFrom prev its, List.lastCut prev its) := by
  induction its generalizing prev with
  | nil => rfl
  | cons it its ih =>
    rw [regexMessages, ih, List.cutFrom, List.lastCut_cons, substr, List.drop_take]

/-- **The `startmsg_regex` mode cuts the pending text and the buffer at the
matches**: the messages are the non-empty pieces, and what follows the last
match stays pending. -/
theorem regexBuffer_eq {pending buffer : Bytes} {positions : List ℕ}
    (hsort : positions.Pairwise (· < ·)) (hle : ∀ p ∈ positions, p ≤ buffer.length) :
    regexBuffer pending positions buffer =
      ((pending ++ buffer).segments (positions.map (· + pending.length)),
        (pending ++ buffer).afterCuts (positions.map (· + pending.length))) := by
  cases positions with
  | nil => simp [regexBuffer, List.segments, List.afterCuts, List.cutFrom]
  | cons it its =>
    have hit : it ≤ buffer.length := hle it (by simp)
    have hrest : (buffer.cutFrom it its).filter (fun w => w ≠ []) = buffer.cutFrom it its := by
      refine List.filter_eq_self.mpr fun w hw => by
        simpa using List.ne_nil_of_mem_cutFrom hsort (fun p hp => hle p (by simp [hp])) hw
    have hfirst : (pending ++ buffer).take (it + pending.length) = pending ++ buffer.take it := by
      rw [Nat.add_comm, List.take_length_add_append]
    have hlast : List.lastCut 0 ((it :: its).map (· + pending.length)) =
        pending.length + List.lastCut it its := by
      rw [List.map_cons, List.lastCut_cons, List.lastCut_map_add, Nat.add_comm]
    rw [List.afterCuts, hlast, List.drop_length_add_append, regexBuffer, regexMessages_eq,
      List.segments, List.map_cons, List.cutFrom, hfirst, List.drop_zero,
      List.cutFrom_map_add pending buffer it its]
    refine Prod.ext ?_ rfl
    dsimp only
    rw [List.filter_cons, hrest]
    -- the first piece is empty only with nothing pending and a match at position 0
    by_cases hpend : pending = []
    · by_cases hzero : it = 0
      · simp [hpend, hzero]
      · have hne : buffer.take it ≠ [] := by
          rw [Ne, List.take_eq_nil_iff]
          rintro (h | h)
          · exact hzero h
          · exact hzero (by simpa [h] using hit)
        simp [hpend, hzero, hne, substr]
    · by_cases hzero : it = 0 <;> simp [hpend, hzero]

/-! ### The record -/

/-- The record of an open file. The descriptor is a number the file system knows
the file by; `streamFail` is the failure state of the stream over it. Only the
`startmsg_regex` mode has pending text. -/
structure PointersTableInternalRecord where
  source : TailSource
  fileDescriptor : ℕ
  streamFail : Bool
  fileCurrentPosition : Int
  startMsgRegEx : Option DelimiterRegex
  buffer : Bytes
  mode : StateMode
  firstRead : Bool
  symlinkPath : Option String
  nothingPending : startMsgRegEx = none → buffer = []

namespace PointersTableInternalRecord

variable (r : PointersTableInternalRecord)

/-- `processBuffer`. -/
def processBuffer (buffer : Bytes) : PointersTableInternalRecord × List Call :=
  match h : r.startMsgRegEx with
  | some re =>
    let out := regexBuffer r.buffer (re.positions buffer) buffer
    ({ r with buffer := out.2, nothingPending := by simp [h] }, out.1.map .processMessage)
  | none => (r, (lineMessages buffer 0).map .processMessage)

/-- `savePosition`. -/
def savePosition : List Call :=
  if r.mode.saveState then
    [.savePosition r.source.filename (r.fileCurrentPosition - r.buffer.length)]
  else []

/-- `flush`. -/
def flush : PointersTableInternalRecord × List Call :=
  if r.buffer ≠ [] then
    let r' := { r with buffer := [], nothingPending := fun _ => rfl }
    (r', .processMessage r.buffer :: r'.savePosition)
  else (r, [])

/-- The size of the read buffer, 4 MB. -/
def readBufferSize : ℕ := 4096 * 1024

/-- The read loop of `process`: `added` bytes are wanted and `totalRead` of them
have been read, up to the position `get` of the stream. -/
def readLoop (content : Bytes) (added get totalRead : ℕ) (r : PointersTableInternalRecord) :
    PointersTableInternalRecord × List Call :=
  if _ : totalRead < added then
    let needRead := min readBufferSize (added - totalRead)
    let read := substr content get needRead
    let actualRead := read.length
    if actualRead = 0 then
      ({ r with streamFail := true }, [])
    else
      let out := r.processBuffer read
      let r' := { out.1 with
        fileCurrentPosition := out.1.fileCurrentPosition + actualRead
        streamFail := decide (actualRead < needRead) }
      let rest := readLoop content added (get + actualRead) (totalRead + actualRead) r'
      (rest.1, .processBuffer read :: (out.2 ++ rest.2))
  else (r, [])
termination_by added - totalRead
decreasing_by
  have : 0 < actualRead := Nat.pos_of_ne_zero ‹_›
  change added - (totalRead + actualRead) < added - totalRead
  omega

/-- `process`, on a file with the given content. -/
def process (content : Bytes) : PointersTableInternalRecord × List Call :=
  if r.symlinkPath.isSome then
    (r, [])
  else if r.streamFail then
    ({ r with fileCurrentPosition := 0, streamFail := false }, [])
  else
    let filesize := content.length
    let r := if filesize < r.fileCurrentPosition then { r with fileCurrentPosition := 0 } else r
    let added := (filesize - r.fileCurrentPosition).toNat
    if added > 0 ∧ r.firstRead = false ∧ r.mode.followOnly = true then
      ({ r with fileCurrentPosition := filesize, firstRead := true }, [])
    else if added > 0 then
      -- `seekg(-added, std::ios::cur)` from the end of the file
      let out :=
        if added ≤ filesize then readLoop content added (filesize - added) 0 r
        else ({ r with streamFail := true }, [])
      (out.1, out.2 ++ out.1.savePosition)
    else (r, r.savePosition)

/-- The constructor, on a file that has been opened: the position saved for the
file is the start in `save_state` mode. -/
def create (source : TailSource) (fileDescriptor : ℕ) (startMsgRegEx : Option DelimiterRegex)
    (mode : StateMode) (symlinkPath : Option String) (savedPosition : Int) :
    PointersTableInternalRecord where
  source := source
  fileDescriptor := fileDescriptor
  streamFail := false
  fileCurrentPosition := if mode.saveState then savedPosition else 0
  startMsgRegEx := startMsgRegEx
  buffer := []
  mode := mode
  firstRead := false
  symlinkPath := symlinkPath
  nothingPending _ := rfl

/-! ### What the methods do

`processBuffer` takes bytes in: some of them leave in messages, and in newline
mode the newlines leave for good. `Reads` says that a part of an execution took
a text in and did nothing else; the read loop composes it. -/

/-- What processing keeps of a text: all of it in `startmsg_regex` mode, all but
the newlines in newline mode. -/
def kept : Option DelimiterRegex → Bytes → Bytes
  | some _, text => text
  | none, text => text.filter fun c => c ≠ newline

theorem kept_append (re : Option DelimiterRegex) (s t : Bytes) :
    kept re (s ++ t) = kept re s ++ kept re t := by
  cases re <;> simp [kept]

@[simp] theorem kept_nil (re : Option DelimiterRegex) : kept re [] = [] := by
  cases re <;> rfl

/-- Two records of the same open file, which may differ in how far it has been
read and in what is pending. -/
structure SameFile (r r' : PointersTableInternalRecord) : Prop where
  source : r'.source = r.source
  fileDescriptor : r'.fileDescriptor = r.fileDescriptor
  startMsgRegEx : r'.startMsgRegEx = r.startMsgRegEx
  mode : r'.mode = r.mode
  symlinkPath : r'.symlinkPath = r.symlinkPath

theorem SameFile.refl : SameFile r r := ⟨rfl, rfl, rfl, rfl, rfl⟩

theorem SameFile.trans {r r' r'' : PointersTableInternalRecord} (h : SameFile r r')
    (h' : SameFile r' r'') : SameFile r r'' where
  source := h'.source.trans h.source
  fileDescriptor := h'.fileDescriptor.trans h.fileDescriptor
  startMsgRegEx := h'.startMsgRegEx.trans h.startMsgRegEx
  mode := h'.mode.trans h.mode
  symlinkPath := h'.symlinkPath.trans h.symlinkPath

/-- **From `r` to `r'` a text is read, and nothing else happens**: the position
moves past it, it is what `processBuffer` was called with, no position is saved,
and what is kept of the text is in the messages or pending. -/
structure Reads (r r' : PointersTableInternalRecord) (calls : List Call) (text : Bytes) :
    Prop where
  sameFile : SameFile r r'
  streamFail : r'.streamFail = r.streamFail
  position : r'.fileCurrentPosition = r.fileCurrentPosition + text.length
  buffers : (buffers calls).flatten = text
  saved : saved calls = []
  kept : (messages calls).flatten ++ r'.buffer = r.buffer ++ kept r.startMsgRegEx text

theorem Reads.refl : Reads r r [] [] where
  sameFile := .refl r
  streamFail := rfl
  position := by simp
  buffers := rfl
  saved := rfl
  kept := by simp

/-- Reading a text and then another one reads both. -/
theorem Reads.trans {r r' r'' : PointersTableInternalRecord} {c d : List Call} {s t : Bytes}
    (h : Reads r r' c s) (h' : Reads r' r'' d t) : Reads r r'' (c ++ d) (s ++ t) where
  sameFile := h.sameFile.trans h'.sameFile
  streamFail := h'.streamFail.trans h.streamFail
  position := by rw [h'.position, h.position, List.length_append, Int.natCast_add,
    Int.add_assoc]
  buffers := by rw [buffers_append, List.flatten_append, h.buffers, h'.buffers]
  saved := by rw [saved_append, h.saved, h'.saved, List.append_nil]
  kept := by
    rw [messages_append, List.flatten_append, List.append_assoc, h'.kept, h.sameFile.startMsgRegEx,
      kept_append, ← List.append_assoc, ← List.append_assoc, h.kept]

@[simp] theorem messages_savePosition : messages r.savePosition = [] := by
  rw [savePosition]
  split_ifs <;> rfl

@[simp] theorem buffers_savePosition : buffers r.savePosition = [] := by
  rw [savePosition]
  split_ifs <;> rfl

/-- `processBuffer` changes what is pending, and only hands on messages. -/
theorem processBuffer_spec (buffer : Bytes) :
    SameFile r (r.processBuffer buffer).1 ∧
      (r.processBuffer buffer).1.streamFail = r.streamFail ∧
      (r.processBuffer buffer).1.fileCurrentPosition = r.fileCurrentPosition ∧
      ∃ ms : List Bytes, (r.processBuffer buffer).2 = ms.map .processMessage := by
  rw [processBuffer]
  split
  · exact ⟨⟨rfl, rfl, rfl, rfl, rfl⟩, rfl, rfl, _, rfl⟩
  · exact ⟨.refl r, rfl, rfl, _, rfl⟩

/-- `processBuffer` in `startmsg_regex` mode. -/
theorem processBuffer_regex {re : DelimiterRegex} (h : r.startMsgRegEx = some re)
    (buffer : Bytes) :
    messages (r.processBuffer buffer).2 =
        (r.buffer ++ buffer).segments ((re.positions buffer).map (· + r.buffer.length)) ∧
      (r.processBuffer buffer).1.buffer =
        (r.buffer ++ buffer).afterCuts ((re.positions buffer).map (· + r.buffer.length)) := by
  rw [processBuffer]
  split
  case h_1 re' h' =>
    obtain rfl : re = re' := Option.some.inj (h.symm.trans h')
    have hcut := @regexBuffer_eq r.buffer _ _ (re.sorted buffer) (re.le_length buffer)
    exact ⟨(messages_map _).trans (congrArg Prod.fst hcut), congrArg Prod.snd hcut⟩
  case h_2 h' => simp [h] at h'

/-- `processBuffer` in newline mode hands on the non-empty lines, and leaves the record as it
was. -/
theorem processBuffer_eq_of_line (h : r.startMsgRegEx = none) (buffer : Bytes) :
    r.processBuffer buffer = (r, (buffer.fields newline).map .processMessage) := by
  rw [processBuffer]
  split
  case h_1 h' => simp [h] at h'
  case h_2 => rw [lineMessages_eq_fields, List.drop_zero]

/-- `processBuffer` in newline mode. -/
theorem processBuffer_line (h : r.startMsgRegEx = none) (buffer : Bytes) :
    messages (r.processBuffer buffer).2 = buffer.fields newline ∧
      (r.processBuffer buffer).1 = r := by
  rw [r.processBuffer_eq_of_line h]
  exact ⟨messages_map _, rfl⟩

/-- **`processBuffer` is exact on a buffer**: `processMessage` is called with the maximal
parts of the buffer that are not empty and hold no newline, from left to right, and with
nothing else. They are the buffer without its newlines, and the record is as it was, with
what was pending in it. -/
def SplitsExactly (buffer : Bytes) : Prop :=
  ∃ runs : List (ℕ × ℕ), runs.Pairwise (fun p q => p.2 < q.1) ∧
    (∀ i j, (i, j) ∈ runs ↔ List.IsMaximalRun newline buffer i j) ∧
    (r.processBuffer buffer).2 =
      (runs.map fun p => between buffer p.1 p.2).map .processMessage ∧
    (messages (r.processBuffer buffer).2).flatten = buffer.filter (fun c => c ≠ newline) ∧
    (r.processBuffer buffer).1 = r

/-- **The newline mode is exact on every buffer.** -/
theorem processBuffer_splitsExactly (h : r.startMsgRegEx = none) (buffer : Bytes) :
    r.SplitsExactly buffer := by
  obtain ⟨runs, horder, hmem, hfields⟩ := List.exists_maximalRuns newline buffer
  refine ⟨runs, horder, hmem, ?_, ?_, (r.processBuffer_line h buffer).2⟩
  · rw [r.processBuffer_eq_of_line h, hfields]
    rfl
  · rw [(r.processBuffer_line h buffer).1, List.flatten_fields]

/-- A buffer that begins with a newline, holds an empty line and ends without a newline. -/
theorem splitsExactly_without_last_newline :
    SplitsExactly (create ⟨"/l", none⟩ 3 none ⟨false, false, StateMode.exclusive_plain⟩ none 0)
      (ascii "\na\n\nb") :=
  processBuffer_splitsExactly _ rfl (ascii "\na\n\nb")

/-- **`processBuffer` loses nothing**: what it keeps of the buffer goes, after
the pending text, into the messages or stays pending. -/
theorem processBuffer_kept (buffer : Bytes) :
    (messages (r.processBuffer buffer).2).flatten ++ (r.processBuffer buffer).1.buffer =
      r.buffer ++ kept r.startMsgRegEx buffer := by
  cases hre : r.startMsgRegEx with
  | some re =>
    obtain ⟨hmessages, hbuffer⟩ := r.processBuffer_regex hre buffer
    rw [hmessages, hbuffer, kept]
    refine List.flatten_segments_append_afterCuts (List.pairwise_map.mpr ?_)
    exact (re.sorted buffer).imp fun h => Nat.add_le_add_right h.le _
  | none =>
    obtain ⟨hmessages, hrecord⟩ := r.processBuffer_line hre buffer
    rw [hmessages, hrecord, r.nothingPending hre, kept, List.flatten_fields, List.append_nil,
      List.nil_append]

/-- The read loop loses nothing either, whatever it finds. -/
theorem readLoop_kept (content : Bytes) (added get totalRead : ℕ)
    (r : PointersTableInternalRecord) :
    (readLoop content added get totalRead r).1.startMsgRegEx = r.startMsgRegEx ∧
      (messages (readLoop content added get totalRead r).2).flatten ++
          (readLoop content added get totalRead r).1.buffer =
        r.buffer ++ kept r.startMsgRegEx
          (IqLogger.Tail.buffers (readLoop content added get totalRead r).2).flatten := by
  fun_induction readLoop content added get totalRead r with
  | case1 => simp
  | case2 get totalRead r hlt needRead read actualRead hpos out r' rest ih =>
    obtain ⟨hfile, -, -, ms, hms⟩ := r.processBuffer_spec read
    have hfirst := r.processBuffer_kept read
    have hre : r'.startMsgRegEx = r.startMsgRegEx := hfile.startMsgRegEx
    have hbuffers : IqLogger.Tail.buffers out.2 = [] := by
      rw [hms]
      exact buffers_map ms
    refine ⟨ih.1.trans hre, ?_⟩
    rw [messages_cons_processBuffer, messages_append, List.flatten_append, List.append_assoc, ih.2,
      hre, ← List.append_assoc, hfirst, buffers_cons_processBuffer, buffers_append, hbuffers,
      List.nil_append, List.flatten_cons, kept_append, List.append_assoc]
  | case3 => simp

/-- **`process` loses nothing**, whatever the position and the size of the file. -/
theorem process_kept (content : Bytes) :
    (r.process content).1.startMsgRegEx = r.startMsgRegEx ∧
      (messages (r.process content).2).flatten ++ (r.process content).1.buffer =
        r.buffer ++ kept r.startMsgRegEx
          (IqLogger.Tail.buffers (r.process content).2).flatten := by
  rw [process]
  split_ifs with hlink hfail
  · simp
  · simp
  · generalize hr : (if (content.length : Int) < r.fileCurrentPosition then
      { r with fileCurrentPosition := 0 } else r) = r₀
    have hfields : r₀.startMsgRegEx = r.startMsgRegEx ∧ r₀.buffer = r.buffer := by
      rw [← hr]
      split_ifs <;> exact ⟨rfl, rfl⟩
    dsimp only
    rw [hr, ← hfields.1, ← hfields.2]
    split_ifs
    · simp
    · have hloop := readLoop_kept content (content.length - r₀.fileCurrentPosition).toNat
        (content.length - (content.length - r₀.fileCurrentPosition).toNat) 0 r₀
      simpa using hloop
    · simp
    · simp

/-- **The read loop reads what is left to read**, when the file holds as many
bytes as it is told. -/
theorem readLoop_reads (content : Bytes) (added get totalRead : ℕ)
    (r : PointersTableInternalRecord) (hfail : r.streamFail = false)
    (hsize : get + (added - totalRead) ≤ content.length) :
    Reads r (readLoop content added get totalRead r).1 (readLoop content added get totalRead r).2
      (substr content get (added - totalRead)) := by
  fun_induction readLoop content added get totalRead r with
  | case1 get totalRead r hlt needRead read actualRead hzero =>
    have hread : actualRead = needRead := length_substr (by omega)
    simp only [hzero, needRead, readBufferSize] at hread
    omega
  | case2 get totalRead r hlt needRead read actualRead hpos out r' rest ih =>
    have hread : actualRead = needRead := length_substr (by omega)
    have hneed : needRead ≤ added - totalRead := min_le_right ..
    obtain ⟨hfile, hstream, hposition, ms, hms⟩ := r.processBuffer_spec read
    have hfirst : Reads r r' (.processBuffer read :: out.2) read :=
      { sameFile := ⟨hfile.source, hfile.fileDescriptor, hfile.startMsgRegEx, hfile.mode,
          hfile.symlinkPath⟩
        streamFail := by simp [r', hread, hfail]
        position := by simp only [r', out, hposition, actualRead]
        buffers := by simp [out, hms]
        saved := by simp [out, hms]
        kept := by simpa using r.processBuffer_kept read }
    have hrest := ih (by simp [r', hread]) (by omega)
    have htext : read ++ substr content (get + actualRead) (added - (totalRead + actualRead)) =
        substr content get (added - totalRead) := by
      have hleft : added - totalRead = needRead + (added - (totalRead + needRead)) := by omega
      rw [hread, hleft]
      exact substr_append content get needRead _
    rw [← htext]
    exact hfirst.trans hrest
  | case3 get totalRead r hge =>
    have hnone : added - totalRead = 0 := by omega
    simpa [hnone, substr] using Reads.refl r

/-- A file that has shrunk is read from its beginning. -/
theorem process_of_size_lt {content : Bytes} (hlink : r.symlinkPath = none)
    (hfail : r.streamFail = false) (hsize : content.length < r.fileCurrentPosition) :
    r.process content = { r with fileCurrentPosition := 0 }.process content := by
  have hzero : ¬((content.length : Int) < 0) := by omega
  simp [process, hlink, hfail, hsize, hzero]

/-- **`process` reads what the file has beyond the position**, and saves the
position it gets to, unless it is the read that `follow_only_mode` skips. -/
theorem process_reads_of_not_skipped {content : Bytes} {n : ℕ} (hlink : r.symlinkPath = none)
    (hfail : r.streamFail = false) (hskip : ¬(r.firstRead = false ∧ r.mode.followOnly = true))
    (hposition : r.fileCurrentPosition = n) (hn : n ≤ content.length) :
    ∃ calls, Reads r (r.process content).1 calls (content.drop n) ∧
      (r.process content).2 = calls ++ (r.process content).1.savePosition := by
  have hsize : ¬((content.length : Int) < n) := by omega
  have hadded : ((content.length : Int) - n).toNat = content.length - n := by omega
  simp only [process, hlink, hfail, hposition, hsize, hadded, hskip, Option.isSome_none,
    Bool.false_eq_true, and_false, if_false]
  by_cases hnew : content.length - n > 0
  · have hget : content.length - (content.length - n) = n := by omega
    have hreads := readLoop_reads content (content.length - n) n 0 r hfail (by omega)
    simp only [hnew, Nat.sub_le, hget, if_true]
    refine ⟨_, ?_, rfl⟩
    have htext : substr content n (content.length - n - 0) = content.drop n :=
      List.take_of_length_le (by rw [List.length_drop]; omega)
    rwa [htext] at hreads
  · have hdrop : content.drop n = [] := List.drop_of_length_le (by omega)
    simp only [hnew, if_false, hdrop]
    exact ⟨[], .refl r, rfl⟩

/-- Without `follow_only_mode` nothing is skipped. -/
theorem process_reads {content : Bytes} {n : ℕ} (hlink : r.symlinkPath = none)
    (hfail : r.streamFail = false) (hfollow : r.mode.followOnly = false)
    (hposition : r.fileCurrentPosition = n) (hn : n ≤ content.length) :
    ∃ calls, Reads r (r.process content).1 calls (content.drop n) ∧
      (r.process content).2 = calls ++ (r.process content).1.savePosition :=
  r.process_reads_of_not_skipped hlink hfail (by simp [hfollow]) hposition hn

/-- A position before the beginning of the file cannot be reached, and nothing is
read. -/
theorem process_of_neg {content : Bytes} (hlink : r.symlinkPath = none)
    (hfail : r.streamFail = false) (hfollow : r.mode.followOnly = false)
    (hposition : r.fileCurrentPosition < 0) : buffers (r.process content).2 = [] := by
  have hsize : ¬((content.length : Int) < r.fileCurrentPosition) := by omega
  have hadded : ((content.length : Int) - r.fileCurrentPosition).toNat > 0 := by omega
  have hseek : ¬((content.length : Int) - r.fileCurrentPosition).toNat ≤ content.length := by omega
  simp [process, hlink, hfail, hsize, hadded, hfollow, hseek]

/-- **What the first `process` of a new record reads**: all of the file, when the
position it starts at is the beginning or lies beyond the end. -/
theorem buffers_process_create (source : TailSource) (fileDescriptor : ℕ)
    (startMsgRegEx : Option DelimiterRegex) {mode : StateMode} (hmode : mode.saveState = true)
    (symlinkPath : Option String) (savedPosition : Int) (content : Bytes) :
    (buffers ((create source fileDescriptor startMsgRegEx mode symlinkPath
        savedPosition).process content).2).flatten = content ↔
      content = [] ∨
        symlinkPath = none ∧ (savedPosition = 0 ∨ content.length < savedPosition) := by
  generalize hr : create source fileDescriptor startMsgRegEx mode symlinkPath savedPosition = r
  have hlink : r.symlinkPath = symlinkPath := by rw [← hr, create]
  have hfail : r.streamFail = false := by rw [← hr, create]
  have hposition : r.fileCurrentPosition = savedPosition := by
    rw [← hr, create]
    exact if_pos hmode
  have hfollow : r.mode.followOnly = false := by
    have := mode.exclusive
    rw [← hr, create]
    simpa [hmode] using this
  have hreads : ∀ {r : PointersTableInternalRecord} {n : ℕ}, r.symlinkPath = none →
      r.streamFail = false → r.mode.followOnly = false → r.fileCurrentPosition = n →
      n ≤ content.length → (buffers (r.process content).2).flatten = content.drop n := by
    intro r n hlink hfail hfollow hposition hn
    obtain ⟨calls, hreads, hcalls⟩ := r.process_reads hlink hfail hfollow hposition hn
    rw [hcalls, buffers_append, List.flatten_append, hreads.buffers]
    simp
  cases hsymlink : symlinkPath with
  | some path =>
    have hnone : (r.process content).2 = [] := by simp [process, hlink, hsymlink]
    simp [hnone, eq_comm]
  | none =>
    rw [hsymlink] at hlink
    rcases lt_or_ge savedPosition 0 with hneg | hpos
    · rw [r.process_of_neg hlink hfail hfollow (hposition ▸ hneg)]
      have hshort : ¬(content.length : Int) < savedPosition := by omega
      simp [hneg.ne, hshort, eq_comm]
    · obtain ⟨n, rfl⟩ := Int.eq_ofNat_of_zero_le hpos
      by_cases hn : n ≤ content.length
      · rw [hreads hlink hfail hfollow hposition hn]
        constructor
        · intro hdrop
          have hlen := congrArg List.length hdrop
          rw [List.length_drop] at hlen
          rcases Nat.eq_zero_or_pos content.length with hzero | _
          · exact Or.inl (List.length_eq_zero_iff.mp hzero)
          · exact Or.inr ⟨rfl, Or.inl (by omega)⟩
        · rintro (rfl | ⟨-, hzero | hlt⟩)
          · exact List.drop_nil
          · obtain rfl : n = 0 := by omega
            exact List.drop_zero
          · omega
      · have hsize : (content.length : Int) < r.fileCurrentPosition := by omega
        rw [r.process_of_size_lt hlink hfail hsize,
          hreads (r := { r with fileCurrentPosition := 0 }) hlink hfail hfollow rfl
            (Nat.zero_le _), List.drop_zero]
        exact iff_of_true rfl (Or.inr ⟨rfl, Or.inr (by omega)⟩)

end PointersTableInternalRecord

end Tail

end IqLogger
