import IqLogger.Lib.Strto
import IqLogger.Stats.Http.RequestParser

/-!
# The grammar of requests

What the parser reads is a request: a request line, header lines that may be continued on
further lines, and an empty line. The grammar is stated
here of the bytes alone (`RequestText`, whose values are the well-formed requests, and
`RequestText.encode`), and with it what each request says (`RequestText.fields`).

The parser reads every request to its end (`RequestParser.scan_request`): it is run on
the parts of one, each followed by anything. That it accepts nothing else is
shown in `Recognition`.
-/

namespace IqLogger.Http

open Scanner

open Strto (forall_byte)

/-! ### Classes of bytes -/

/-- A token character: a printable 7-bit character that is not a separator. -/
def IsToken (b : UInt8) : Prop := 32 < b ∧ b < 127 ∧ b ∉ tspecials.map chr

instance (b : UInt8) : Decidable (IsToken b) := inferInstanceAs (Decidable (_ ∧ _ ∧ _))

/-- A control character. -/
def IsControl (b : UInt8) : Prop := b < 32 ∨ b = 127

instance (b : UInt8) : Decidable (IsControl b) := inferInstanceAs (Decidable (_ ∨ _))

/-- A decimal digit. -/
def IsDigit (b : UInt8) : Prop := 48 ≤ b ∧ b ≤ 57

instance (b : UInt8) : Decidable (IsDigit b) := inferInstanceAs (Decidable (_ ∧ _))

/-- A space or a tab. -/
def IsBlank (b : UInt8) : Prop := b = SP ∨ b = HT

/-- The test for a token character that the parser makes in three of its states. -/
theorem not_token_eq (b : UInt8) :
    (!is_char (toInt b) || is_ctl (toInt b) || is_tspecial (toInt b)) = !decide (IsToken b) := by
  revert b
  exact forall_byte (by decide +kernel)

theorem is_ctl_eq (b : UInt8) : is_ctl (toInt b) = decide (IsControl b) := by
  revert b
  exact forall_byte (by decide +kernel)

theorem is_digit_eq (b : UInt8) : is_digit (toInt b) = decide (IsDigit b) := by
  revert b
  exact forall_byte (by decide +kernel)

theorem IsToken.ne {b c : UInt8} (hb : IsToken b) (hc : ¬IsToken c) : b ≠ c := by
  rintro rfl
  exact hc hb

theorem IsDigit.ne {b c : UInt8} (hb : IsDigit b) (hc : ¬IsDigit c) : b ≠ c := by
  rintro rfl
  exact hc hb

/-- No control character, and therefore no line end. -/
theorem ne_CR_of_not_isControl {b : UInt8} (hb : ¬IsControl b) : b ≠ CR := by
  rintro rfl
  exact hb (by decide)

theorem ne_HT_of_not_isControl {b : UInt8} (hb : ¬IsControl b) : b ≠ HT := by
  rintro rfl
  exact hb (by decide)

/-! ### Requests -/

/-- Any number of bytes of one kind. -/
def ZeroOrMore (P : UInt8 → Prop) (t : Bytes) : Prop := ∀ b ∈ t, P b

/-- At least one byte of one kind. -/
def OneOrMore (P : UInt8 → Prop) (t : Bytes) : Prop := t ≠ [] ∧ ZeroOrMore P t

section Kinds

variable {P : UInt8 → Prop} {t : Bytes} {b : UInt8}

theorem ZeroOrMore.snoc (ht : ZeroOrMore P t) (hb : P b) : ZeroOrMore P (t ++ [b]) :=
  List.forall_mem_append.mpr ⟨ht, by simpa using hb⟩

theorem OneOrMore.single (hb : P b) : OneOrMore P [b] :=
  ⟨List.cons_ne_nil b [], by simpa [ZeroOrMore] using hb⟩

theorem OneOrMore.snoc (ht : OneOrMore P t) (hb : P b) : OneOrMore P (t ++ [b]) :=
  ⟨by simp, ht.2.snoc hb⟩

theorem OneOrMore.exists_cons (ht : OneOrMore P t) :
    ∃ b rest, t = b :: rest ∧ P b ∧ ZeroOrMore P rest := by
  obtain ⟨b, rest, rfl⟩ := List.exists_cons_of_ne_nil ht.1
  obtain ⟨hb, hrest⟩ := List.forall_mem_cons.mp ht.2
  exact ⟨b, rest, rfl, hb, hrest⟩

end Kinds

/-- Token characters. -/
abbrev TokenText : Bytes → Prop := OneOrMore IsToken

/-- Digits. -/
abbrev DigitText : Bytes → Prop := OneOrMore IsDigit

/-- Bytes that are neither control characters nor spaces. -/
abbrev UriText : Bytes → Prop := ZeroOrMore fun b => ¬IsControl b ∧ b ≠ SP

/-- Bytes that are not control characters. -/
abbrev PlainText : Bytes → Prop := ZeroOrMore fun b => ¬IsControl b

/-- Blanks. -/
abbrev BlankText : Bytes → Prop := OneOrMore IsBlank

/-- The line end. -/
def crlf : Bytes := [CR, LF]

/-- `HTTP/`. -/
def httpSlash : Bytes := [chr 'H', chr 'T', chr 'T', chr 'P', chr '/']

/-- The first line of a request. -/
structure RequestLine where
  method : Bytes
  uri : Bytes
  major : Bytes
  minor : Bytes
  method_token : TokenText method
  uri_text : UriText uri
  major_digits : DigitText major
  minor_digits : DigitText minor

/-- What the first line of a request begins with. -/
def lineStart (method uri : Bytes) : Bytes := method ++ SP :: (uri ++ SP :: httpSlash)

def RequestLine.encode (line : RequestLine) : Bytes :=
  lineStart line.method line.uri ++ line.major ++ chr '.' :: line.minor ++ crlf

/-- A line that continues the value of a header. -/
structure Continuation where
  blanks : Bytes
  text : Bytes
  blanks_text : BlankText blanks
  plain : PlainText text

def Continuation.encode (line : Continuation) : Bytes := line.blanks ++ line.text ++ crlf

/-- What a continuation line adds to the value: its text behind all the blanks it starts
with. -/
def Continuation.added (line : Continuation) : Bytes := line.text.dropWhile (· = SP)

/-- A header line and the lines that continue it. -/
structure HeaderLines where
  name : Bytes
  text : Bytes
  continuations : List Continuation
  name_token : TokenText name
  plain : PlainText text

/-- The header line itself. -/
def headerLine (name text : Bytes) : Bytes := name ++ chr ':' :: SP :: text ++ crlf

def HeaderLines.encode (lines : HeaderLines) : Bytes :=
  headerLine lines.name lines.text ++ lines.continuations.flatMap Continuation.encode

/-- The header these lines say. -/
def HeaderLines.header (lines : HeaderLines) : Header where
  name := lines.name
  value := lines.text ++ lines.continuations.flatMap Continuation.added

/-- A request. -/
structure RequestText where
  line : RequestLine
  headers : List HeaderLines

/-- What comes before the empty line. -/
def RequestText.head (text : RequestText) : Bytes :=
  text.line.encode ++ text.headers.flatMap HeaderLines.encode

/-- **A request as it is sent.** -/
def RequestText.encode (text : RequestText) : Bytes := text.head ++ crlf

/-- The parts of a request that its reader is told. -/
structure Fields where
  method : Bytes
  uri : Bytes
  headers : List Header

/-- **What a request says.** -/
def RequestText.fields (text : RequestText) : Fields where
  method := text.line.method
  uri := text.line.uri
  headers := text.headers.map HeaderLines.header

/-- What the parser has collected. -/
def Request.fields (req : Request) : Fields where
  method := req.method
  uri := req.uri
  headers := req.headers

/-- The bytes are those of a request that says these fields. -/
def IsRequest (w : Bytes) (fields : Fields) : Prop :=
  ∃ text : RequestText, text.encode = w ∧ text.fields = fields

/-- The number a run of digits is read as, in an `int`. -/
def version (digits : Bytes) : Int32 := digits.foldl RequestParser.version_digit 0

theorem version_append_singleton (digits : Bytes) (b : UInt8) :
    version (digits ++ [b]) = RequestParser.version_digit (version digits) b := by
  rw [version, List.foldl_append]
  rfl

namespace RequestParser

/-! ### Reading a request

The run of the parser on each part of a request. -/

section Reading

variable {m u : Bytes} (v w : Int32) (hs : List Header) (t : Bytes)

theorem scan_token (hm : TokenText m) :
    scan consume (.method_start, ⟨[], u, v, w, hs⟩) (m ++ SP :: t) =
      scan consume (.uri, ⟨m, u, v, w, hs⟩) t := by
  obtain ⟨b, m, rfl, hb, hrest⟩ := hm.exists_cons
  have hfirst : consume (.method_start, ⟨[], u, v, w, hs⟩) b =
      (.indeterminate, .method, ⟨[b], u, v, w, hs⟩) := by
    rw [consume, not_token_eq, if_neg (by simpa using hb)]
    rfl
  have hmore : ∀ x c, IsToken c → consume (.method, ⟨x, u, v, w, hs⟩) c =
      (.indeterminate, .method, ⟨x ++ [c], u, v, w, hs⟩) := fun x c hc => by
    rw [consume, if_neg (hc.ne (by decide)), not_token_eq, if_neg (by simpa using hc)]
  have hspace : consume (.method, ⟨b :: m, u, v, w, hs⟩) SP =
      (.indeterminate, .uri, ⟨b :: m, u, v, w, hs⟩) := by
    rw [consume, if_pos rfl]
  rw [List.cons_append, scan_cons_of_indeterminate _ hfirst]
  exact (scan_family (f := fun x => (State.method, (⟨x, u, v, w, hs⟩ : Request)))
    hmore hrest [b] (SP :: t)).trans (scan_cons_of_indeterminate _ hspace)

theorem scan_uri (hu : UriText u) :
    scan consume (.uri, ⟨m, [], v, w, hs⟩) (u ++ SP :: t) =
      scan consume (.http_version_h, ⟨m, u, v, w, hs⟩) t := by
  have hmore : ∀ x c, ¬IsControl c ∧ c ≠ SP → consume (.uri, ⟨m, x, v, w, hs⟩) c =
      (.indeterminate, .uri, ⟨m, x ++ [c], v, w, hs⟩) := fun x c hc => by
    rw [consume, if_neg hc.2, is_ctl_eq, if_neg (by simpa using hc.1)]
  have hspace : consume (.uri, ⟨m, u, v, w, hs⟩) SP =
      (.indeterminate, .http_version_h, ⟨m, u, v, w, hs⟩) := by
    rw [consume, if_pos rfl]
  exact (scan_family (f := fun x => (State.uri, (⟨m, x, v, w, hs⟩ : Request)))
    hmore hu [] (SP :: t)).trans (scan_cons_of_indeterminate _ hspace)

theorem scan_httpSlash :
    scan consume (.http_version_h, ⟨m, u, v, w, hs⟩) (httpSlash ++ t) =
      scan consume (.http_version_major_start, ⟨m, u, 0, 0, hs⟩) t := rfl

theorem scan_major {d : Bytes} (hd : DigitText d) :
    scan consume (.http_version_major_start, ⟨m, u, 0, w, hs⟩) (d ++ t) =
      scan consume (.http_version_major, ⟨m, u, version d, w, hs⟩) t := by
  obtain ⟨b, d, rfl, hb, hrest⟩ := hd.exists_cons
  have hfirst : consume (.http_version_major_start, ⟨m, u, 0, w, hs⟩) b =
      (.indeterminate, .http_version_major, ⟨m, u, version [b], w, hs⟩) := by
    rw [consume, is_digit_eq, if_pos (by simpa using hb)]
    rfl
  have hmore : ∀ x c, IsDigit c → consume (.http_version_major, ⟨m, u, version x, w, hs⟩) c =
      (.indeterminate, .http_version_major, ⟨m, u, version (x ++ [c]), w, hs⟩) := fun x c hc => by
    rw [consume, if_neg (hc.ne (by decide)), is_digit_eq, if_pos (by simpa using hc),
      version_append_singleton]
  rw [List.cons_append, scan_cons_of_indeterminate _ hfirst]
  exact scan_family (f := fun x => (State.http_version_major,
    (⟨m, u, version x, w, hs⟩ : Request))) hmore hrest [b] t

theorem scan_minor {d : Bytes} (hd : DigitText d) :
    scan consume (.http_version_major, ⟨m, u, v, 0, hs⟩) (chr '.' :: (d ++ t)) =
      scan consume (.http_version_minor, ⟨m, u, v, version d, hs⟩) t := by
  obtain ⟨b, d, rfl, hb, hrest⟩ := hd.exists_cons
  have hdot : consume (.http_version_major, ⟨m, u, v, 0, hs⟩) (chr '.') =
      (.indeterminate, .http_version_minor_start, ⟨m, u, v, 0, hs⟩) := by
    rw [consume, if_pos rfl]
  have hfirst : consume (.http_version_minor_start, ⟨m, u, v, 0, hs⟩) b =
      (.indeterminate, .http_version_minor, ⟨m, u, v, version [b], hs⟩) := by
    rw [consume, is_digit_eq, if_pos (by simpa using hb)]
    rfl
  have hmore : ∀ x c, IsDigit c → consume (.http_version_minor, ⟨m, u, v, version x, hs⟩) c =
      (.indeterminate, .http_version_minor, ⟨m, u, v, version (x ++ [c]), hs⟩) := fun x c hc => by
    rw [consume, if_neg (hc.ne (by decide)), is_digit_eq, if_pos (by simpa using hc),
      version_append_singleton]
  rw [scan_cons_of_indeterminate _ hdot, List.cons_append, scan_cons_of_indeterminate _ hfirst]
  exact scan_family (f := fun x => (State.http_version_minor,
    (⟨m, u, v, version x, hs⟩ : Request))) hmore hrest [b] t

/-- The beginning of the first line is read, up to the version. -/
theorem scan_lineStart (hm : TokenText m) (hu : UriText u) :
    scan consume (fresh v w) (lineStart m u ++ t) =
      scan consume (.http_version_major_start, ⟨m, u, 0, 0, []⟩) t := by
  have hsplit : lineStart m u ++ t = m ++ SP :: (u ++ SP :: (httpSlash ++ t)) := by
    simp [lineStart]
  rw [hsplit, fresh, Request.empty, scan_token v w [] _ hm, scan_uri v w [] _ hu, scan_httpSlash]

/-- **The first line is read.** -/
theorem scan_line (line : RequestLine) :
    scan consume (fresh v w) (line.encode ++ t) =
      scan consume (.header_line_start,
        ⟨line.method, line.uri, version line.major, version line.minor, []⟩) t := by
  have hsplit : line.encode ++ t = lineStart line.method line.uri ++
      (line.major ++ chr '.' :: (line.minor ++ (CR :: LF :: t))) := by
    simp [RequestLine.encode, crlf]
  rw [hsplit, scan_lineStart v w _ line.method_token line.uri_text,
    scan_major 0 [] _ line.major_digits, scan_minor _ [] _ line.minor_digits]
  rfl

/-- The name of a header is read. -/
theorem scan_name {n : Bytes} (hn : TokenText n) :
    scan consume (.header_line_start, ⟨m, u, v, w, hs⟩) (n ++ chr ':' :: SP :: t) =
      scan consume (.header_value, ⟨m, u, v, w, hs ++ [⟨n, []⟩]⟩) t := by
  obtain ⟨b, n, rfl, hb, hrest⟩ := hn.exists_cons
  have hfirst : consume (.header_line_start, ⟨m, u, v, w, hs⟩) b =
      (.indeterminate, .header_name, ⟨m, u, v, w, hs ++ [⟨[b], []⟩]⟩) := by
    have hblank : ¬(!hs.isEmpty && (b == SP || b == HT)) = true := by
      simp [hb.ne (c := SP) (by decide), hb.ne (c := HT) (by decide)]
    rw [consume, if_neg (hb.ne (by decide)), if_neg hblank, not_token_eq,
      if_neg (by simpa using hb)]
  have hmore : ∀ x c, IsToken c →
      consume (.header_name, ⟨m, u, v, w, hs ++ [⟨x, []⟩]⟩) c =
        (.indeterminate, .header_name, ⟨m, u, v, w, hs ++ [⟨x ++ [c], []⟩]⟩) := fun x c hc => by
    rw [consume, if_neg (hc.ne (by decide)), not_token_eq, if_neg (by simpa using hc),
      push_back_name, modifyBack_append_singleton]
  have hcolon : consume (.header_name, ⟨m, u, v, w, hs ++ [⟨b :: n, []⟩]⟩) (chr ':') =
      (.indeterminate, .space_before_header_value, ⟨m, u, v, w, hs ++ [⟨b :: n, []⟩]⟩) := by
    rw [consume, if_pos rfl]
  have hspace : consume (.space_before_header_value, ⟨m, u, v, w, hs ++ [⟨b :: n, []⟩]⟩) SP =
      (.indeterminate, .header_value, ⟨m, u, v, w, hs ++ [⟨b :: n, []⟩]⟩) := by
    rw [consume, if_pos rfl]
  rw [List.cons_append, scan_cons_of_indeterminate _ hfirst]
  refine (scan_family (f := fun x => (State.header_name,
    (⟨m, u, v, w, hs ++ [⟨x, []⟩]⟩ : Request))) hmore hrest [b] (chr ':' :: SP :: t)).trans ?_
  exact (scan_cons_of_indeterminate _ hcolon).trans (scan_cons_of_indeterminate _ hspace)

/-- The text of a header line is read, up to the end of the line. -/
theorem scan_value (n y : Bytes) {x : Bytes} (hx : PlainText x) :
    scan consume (.header_value, ⟨m, u, v, w, hs ++ [⟨n, y⟩]⟩) (x ++ CR :: LF :: t) =
      scan consume (.header_line_start, ⟨m, u, v, w, hs ++ [⟨n, y ++ x⟩]⟩) t := by
  have hmore : ∀ z c, ¬IsControl c →
      consume (.header_value, ⟨m, u, v, w, hs ++ [⟨n, z⟩]⟩) c =
        (.indeterminate, .header_value, ⟨m, u, v, w, hs ++ [⟨n, z ++ [c]⟩]⟩) := fun z c hc => by
    rw [consume, if_neg (ne_CR_of_not_isControl hc), is_ctl_eq, if_neg (by simpa using hc),
      push_back_value, modifyBack_append_singleton]
  have hend : consume (.header_value, ⟨m, u, v, w, hs ++ [⟨n, y ++ x⟩]⟩) CR =
      (.indeterminate, .expecting_newline_2, ⟨m, u, v, w, hs ++ [⟨n, y ++ x⟩]⟩) := by
    rw [consume, if_pos rfl]
  refine (scan_family (f := fun z => (State.header_value,
    (⟨m, u, v, w, hs ++ [⟨n, z⟩]⟩ : Request))) hmore hx y (CR :: LF :: t)).trans ?_
  rw [scan_cons_of_indeterminate _ hend]
  rfl

/-- The text of a continuation line is read: the spaces it starts with are skipped. -/
theorem scan_lws (n y : Bytes) {x : Bytes} (hx : PlainText x) :
    scan consume (.header_lws, ⟨m, u, v, w, hs ++ [⟨n, y⟩]⟩) (x ++ CR :: LF :: t) =
      scan consume (.header_line_start,
        ⟨m, u, v, w, hs ++ [⟨n, y ++ x.dropWhile (· = SP)⟩]⟩) t := by
  induction x with
  | nil =>
    rw [List.dropWhile_nil, List.append_nil]
    rfl
  | cons b x ih =>
    obtain ⟨hb, hrest⟩ := List.forall_mem_cons.mp hx
    by_cases hspace : b = SP
    · have hskip : consume (.header_lws, ⟨m, u, v, w, hs ++ [⟨n, y⟩]⟩) b =
          (.indeterminate, .header_lws, ⟨m, u, v, w, hs ++ [⟨n, y⟩]⟩) := by
        rw [consume, if_neg (ne_CR_of_not_isControl hb), if_pos (Or.inl hspace)]
      rw [List.cons_append, scan_cons_of_indeterminate _ hskip, ih hrest,
        List.dropWhile_cons_of_pos (by simpa using hspace)]
    · have hfirst : consume (.header_lws, ⟨m, u, v, w, hs ++ [⟨n, y⟩]⟩) b =
          (.indeterminate, .header_value, ⟨m, u, v, w, hs ++ [⟨n, y ++ [b]⟩]⟩) := by
        have hblank : ¬(b = SP ∨ b = HT) := by
          rintro (h | h)
          · exact hspace h
          · exact ne_HT_of_not_isControl hb h
        rw [consume, if_neg (ne_CR_of_not_isControl hb), if_neg hblank, is_ctl_eq,
          if_neg (by simpa using hb), push_back_value, modifyBack_append_singleton]
      rw [List.cons_append, scan_cons_of_indeterminate _ hfirst, scan_value v w hs t n _ hrest,
        List.dropWhile_cons_of_neg (by simpa using hspace), List.append_assoc,
        List.singleton_append]

/-- The blanks a continuation line starts with are skipped. -/
theorem scan_blanks {x : Bytes} (hx : BlankText x) (hhs : hs ≠ []) :
    scan consume (.header_line_start, ⟨m, u, v, w, hs⟩) (x ++ t) =
      scan consume (.header_lws, ⟨m, u, v, w, hs⟩) t := by
  obtain ⟨b, x, rfl, hb, hrest⟩ := hx.exists_cons
  have hCR : ∀ c, IsBlank c → c ≠ CR := by
    rintro c (rfl | rfl) <;> decide
  have hfirst : consume (.header_line_start, ⟨m, u, v, w, hs⟩) b =
      (.indeterminate, .header_lws, ⟨m, u, v, w, hs⟩) := by
    have hfold : (!hs.isEmpty && (b == SP || b == HT)) = true := by
      simpa [hhs] using (show b = SP ∨ b = HT from hb)
    rw [consume, if_neg (hCR b hb), if_pos hfold]
  have hmore : ∀ (_ : Bytes) c, IsBlank c → consume (.header_lws, ⟨m, u, v, w, hs⟩) c =
      (.indeterminate, .header_lws, ⟨m, u, v, w, hs⟩) := fun _ c hc => by
    rw [consume, if_neg (hCR c hc), if_pos (show c = SP ∨ c = HT from hc)]
  rw [List.cons_append, scan_cons_of_indeterminate _ hfirst]
  exact scan_family (f := fun _ => (State.header_lws, (⟨m, u, v, w, hs⟩ : Request)))
    hmore hrest [b] t

/-- **The lines that continue a header are read**, and their text is added to its value. -/
theorem scan_continuations (n y : Bytes) (lines : List Continuation) :
    scan consume (.header_line_start, ⟨m, u, v, w, hs ++ [⟨n, y⟩]⟩)
        (lines.flatMap Continuation.encode ++ t) =
      scan consume (.header_line_start,
        ⟨m, u, v, w, hs ++ [⟨n, y ++ lines.flatMap Continuation.added⟩]⟩) t := by
  induction lines generalizing y with
  | nil => simp
  | cons line lines ih =>
    have hsplit : (line :: lines).flatMap Continuation.encode ++ t = line.blanks ++
        (line.text ++ CR :: LF :: (lines.flatMap Continuation.encode ++ t)) := by
      simp [Continuation.encode, crlf]
    rw [hsplit, scan_blanks v w _ _ line.blanks_text (by simp), scan_lws v w hs _ n y line.plain,
      ih, List.flatMap_cons, Continuation.added, List.append_assoc]

/-- **The headers are read.** -/
theorem scan_headers (headers : List HeaderLines) :
    scan consume (.header_line_start, ⟨m, u, v, w, hs⟩)
        (headers.flatMap HeaderLines.encode ++ t) =
      scan consume (.header_line_start,
        ⟨m, u, v, w, hs ++ headers.map HeaderLines.header⟩) t := by
  induction headers generalizing hs with
  | nil => simp
  | cons lines headers ih =>
    have hsplit : (lines :: headers).flatMap HeaderLines.encode ++ t =
        lines.name ++ chr ':' :: SP :: (lines.text ++ CR :: LF ::
          (lines.continuations.flatMap Continuation.encode ++
            (headers.flatMap HeaderLines.encode ++ t))) := by
      simp [HeaderLines.encode, headerLine, crlf]
    rw [hsplit, scan_name v w hs _ lines.name_token, scan_value v w hs _ _ _ lines.plain,
      scan_continuations, ih, List.map_cons, HeaderLines.header, List.append_assoc,
      List.singleton_append, List.nil_append]

/-- **A request is read to its end**, and the parser has then collected what it says. -/
theorem scan_request (text : RequestText) :
    ∃ parser, scan consume (fresh v w) (text.encode ++ t) = (.good, parser, t) ∧
      parser.2.fields = text.fields := by
  refine ⟨(.expecting_newline_3, ⟨text.line.method, text.line.uri, version text.line.major,
    version text.line.minor, text.headers.map HeaderLines.header⟩), ?_, rfl⟩
  rw [RequestText.encode, RequestText.head, List.append_assoc, List.append_assoc, scan_line,
    scan_headers]
  rfl

end Reading

end RequestParser

end IqLogger.Http
