import IqLogger.Stats.Http.Grammar

/-!
# The parser recognizes the grammar

`Unfinished` says for each of the twenty states what has been read when the parser is in
it, and what it has collected. Every step keeps it (`Unfinished.step`), so what is accepted
is a request; and from every state there is a way to the end of one (`exists_good`).
With the runs of `Grammar`, the parser recognizes the grammar (`recognizes`), and this is
what it says on any input, cut into reads in any way (`do_read_verdicts`).
-/

namespace IqLogger.Http

open Scanner RequestParser

/-- What has been collected with the first line and the headers. -/
def collected (line : RequestLine) (headers : List Header) : Request :=
  ⟨line.method, line.uri, version line.major, version line.minor, headers⟩

/-- The first line and some headers, as they are sent. -/
def sent (line : RequestLine) (headers : List HeaderLines) : Bytes :=
  line.encode ++ headers.flatMap HeaderLines.encode

/-- **What has been read in each state**, from a fresh parser and an empty request, whose
version numbers were `v` and `w`. -/
inductive Unfinished (v w : Int32) : Bytes → State × Request → Prop
  | method_start : Unfinished v w [] (fresh v w)
  | method {m : Bytes} : TokenText m → Unfinished v w m (.method, ⟨m, [], v, w, []⟩)
  | uri {m u : Bytes} : TokenText m → UriText u →
      Unfinished v w (m ++ SP :: u) (.uri, ⟨m, u, v, w, []⟩)
  /-- In the middle of `HTTP/`, of which `x` has been read. -/
  | http_version {m u x : Bytes} {state : State} : TokenText m → UriText u →
      (state, x) ∈ [(.http_version_h, []), (.http_version_t_1, [chr 'H']),
        (.http_version_t_2, [chr 'H', chr 'T']), (.http_version_p, [chr 'H', chr 'T', chr 'T']),
        (.http_version_slash, [chr 'H', chr 'T', chr 'T', chr 'P'])] →
      Unfinished v w (m ++ SP :: (u ++ SP :: x)) (state, ⟨m, u, v, w, []⟩)
  | http_version_major_start {m u : Bytes} : TokenText m → UriText u →
      Unfinished v w (lineStart m u) (.http_version_major_start, ⟨m, u, 0, 0, []⟩)
  | http_version_major {m u d : Bytes} : TokenText m → UriText u → DigitText d →
      Unfinished v w (lineStart m u ++ d) (.http_version_major, ⟨m, u, version d, 0, []⟩)
  | http_version_minor_start {m u d : Bytes} : TokenText m → UriText u → DigitText d →
      Unfinished v w (lineStart m u ++ d ++ [chr '.'])
        (.http_version_minor_start, ⟨m, u, version d, 0, []⟩)
  | http_version_minor {m u d e : Bytes} : TokenText m → UriText u → DigitText d →
      DigitText e → Unfinished v w (lineStart m u ++ d ++ chr '.' :: e)
        (.http_version_minor, ⟨m, u, version d, version e, []⟩)
  | expecting_newline_1 {p : Bytes} (line : RequestLine) : p ++ [LF] = line.encode →
      Unfinished v w p (.expecting_newline_1, collected line [])
  | header_line_start (line : RequestLine) (hs : List HeaderLines) :
      Unfinished v w (sent line hs) (.header_line_start, collected line (hs.map (·.header)))
  | header_lws (line : RequestLine) (hs : List HeaderLines) (last : HeaderLines) {x : Bytes} :
      BlankText x → Unfinished v w (sent line (hs ++ [last]) ++ x)
        (.header_lws, collected line ((hs ++ [last]).map (·.header)))
  | header_name (line : RequestLine) (hs : List HeaderLines) {n : Bytes} : TokenText n →
      Unfinished v w (sent line hs ++ n)
        (.header_name, collected line (hs.map (·.header) ++ [⟨n, []⟩]))
  | space_before_header_value (line : RequestLine) (hs : List HeaderLines) {n : Bytes} :
      TokenText n → Unfinished v w (sent line hs ++ (n ++ [chr ':']))
        (.space_before_header_value, collected line (hs.map (·.header) ++ [⟨n, []⟩]))
  | header_value (line : RequestLine) (hs : List HeaderLines) {n x : Bytes} : TokenText n →
      PlainText x → Unfinished v w (sent line hs ++ (n ++ chr ':' :: SP :: x))
        (.header_value, collected line (hs.map (·.header) ++ [⟨n, x⟩]))
  /-- In the text of a line that continues the last header. -/
  | folded_value (line : RequestLine) (hs : List HeaderLines) (last : HeaderLines)
      {x t : Bytes} {b : UInt8} : BlankText x → b ≠ SP → PlainText (b :: t) →
      Unfinished v w (sent line (hs ++ [last]) ++ (x ++ b :: t))
        (.header_value, collected line
          (hs.map (·.header) ++ [⟨last.name, last.header.value ++ b :: t⟩]))
  | expecting_newline_2 {p : Bytes} (line : RequestLine) (hs : List HeaderLines) :
      p ++ [LF] = sent line hs →
      Unfinished v w p (.expecting_newline_2, collected line (hs.map (·.header)))
  | expecting_newline_3 (line : RequestLine) (hs : List HeaderLines) :
      Unfinished v w (sent line hs ++ [CR])
        (.expecting_newline_3, collected line (hs.map (·.header)))

namespace Unfinished

variable {v w : Int32} {p : Bytes} {s s' : State × Request} {b : UInt8}

/-- The same bytes, written in another way. -/
theorem of_eq {q : Bytes} (h : Unfinished v w p s) (heq : p = q) : Unfinished v w q s := heq ▸ h

/-- The lines of a header with one more line that continues it. -/
def extend (last : HeaderLines) (line : Continuation) : HeaderLines :=
  { last with continuations := last.continuations ++ [line] }

theorem sent_extend (line : RequestLine) (hs : List HeaderLines) (last : HeaderLines)
    (more : Continuation) :
    sent line (hs ++ [extend last more]) = sent line (hs ++ [last]) ++ more.encode := by
  simp [sent, extend, HeaderLines.encode]

theorem header_extend (last : HeaderLines) (more : Continuation) :
    (extend last more).header = ⟨last.name, last.header.value ++ more.added⟩ := by
  simp [extend, HeaderLines.header]

/-- At the end of a header line. -/
theorem line_end (line : RequestLine) (hs : List HeaderLines)
    (hp : p ++ [CR, LF] = sent line hs) : Unfinished v w (p ++ [CR])
      (.expecting_newline_2, collected line (hs.map (·.header))) :=
  expecting_newline_2 line hs (by rw [← hp, List.append_assoc, List.singleton_append])

/-- At the end of a line that continues the last header. -/
theorem folded_line_end (line : RequestLine) (hs : List HeaderLines) (last : HeaderLines)
    (more : Continuation) (hp : p ++ [CR, LF] = sent line (hs ++ [last]) ++ more.encode) :
    Unfinished v w (p ++ [CR]) (.expecting_newline_2, collected line
      (hs.map (·.header) ++ [⟨last.name, last.header.value ++ more.added⟩])) := by
  have hend := line_end (v := v) (w := w) line (hs ++ [extend last more])
    (hp.trans (sent_extend line hs last more).symm)
  rwa [List.map_append, List.map_singleton, header_extend] at hend

/-- Where only one byte is expected, a step without a verdict has read it. -/
theorem eq_of_expected {c : UInt8} {next rejected : State × Request}
    (hconsume : consume s b = if b = c then (.indeterminate, next) else (.bad, rejected))
    (hstep : consume s b = (.indeterminate, s')) : b = c ∧ s' = next := by
  rw [hconsume] at hstep
  split_ifs at hstep with hb
  · exact ⟨hb, (Prod.mk.inj hstep).2.symm⟩
  · simp at hstep

/-- In `HTTP/`, where one letter is expected. -/
theorem step_http_version {m u x : Bytes} {state : State} (hm : TokenText m) (hu : UriText u)
    (hx : (state, x) ∈ [(.http_version_h, []), (.http_version_t_1, [chr 'H']),
      (.http_version_t_2, [chr 'H', chr 'T']), (.http_version_p, [chr 'H', chr 'T', chr 'T']),
      (.http_version_slash, [chr 'H', chr 'T', chr 'T', chr 'P'])])
    (hstep : consume (state, ⟨m, u, v, w, []⟩) b =
      (.indeterminate, s')) :
    Unfinished v w ((m ++ SP :: (u ++ SP :: x)) ++ [b]) s' := by
  simp only [List.mem_cons, Prod.mk.injEq, List.not_mem_nil, or_false] at hx
  rcases hx with ⟨rfl, rfl⟩ | ⟨rfl, rfl⟩ | ⟨rfl, rfl⟩ | ⟨rfl, rfl⟩ | ⟨rfl, rfl⟩
  · obtain ⟨rfl, rfl⟩ := eq_of_expected rfl hstep
    exact (http_version hm hu (x := [chr 'H']) (by simp)).of_eq (by simp)
  · obtain ⟨rfl, rfl⟩ := eq_of_expected rfl hstep
    exact (http_version hm hu (x := [chr 'H', chr 'T']) (by simp)).of_eq (by simp)
  · obtain ⟨rfl, rfl⟩ := eq_of_expected rfl hstep
    exact (http_version hm hu (x := [chr 'H', chr 'T', chr 'T']) (by simp)).of_eq (by simp)
  · obtain ⟨rfl, rfl⟩ := eq_of_expected rfl hstep
    exact (http_version hm hu (x := [chr 'H', chr 'T', chr 'T', chr 'P'])
      (by simp)).of_eq (by simp)
  · obtain ⟨rfl, rfl⟩ := eq_of_expected rfl hstep
    exact (http_version_major_start hm hu).of_eq (by simp [lineStart, httpSlash])

/-- In the number before the point. -/
theorem step_http_version_major {m u d : Bytes} (hm : TokenText m) (hu : UriText u)
    (hd : DigitText d)
    (hstep : consume (.http_version_major, ⟨m, u, version d, 0, []⟩) b =
      (.indeterminate, s')) :
    Unfinished v w (lineStart m u ++ d ++ [b]) s' := by
  rw [consume, is_digit_eq] at hstep
  split_ifs at hstep with hdot hb
  · obtain ⟨-, rfl⟩ := Prod.mk.inj hstep
    rw [hdot]
    exact http_version_minor_start hm hu hd
  · obtain ⟨-, rfl⟩ := Prod.mk.inj hstep
    have hnext := http_version_major (v := v) (w := w) hm hu (hd.snoc (by simpa using hb))
    rw [version_append_singleton] at hnext
    exact hnext.of_eq (by simp)
  · simp at hstep

/-- In the number behind the point. -/
theorem step_http_version_minor {m u d e : Bytes} (hm : TokenText m) (hu : UriText u)
    (hd : DigitText d) (he : DigitText e)
    (hstep : consume (.http_version_minor, ⟨m, u, version d, version e, []⟩) b =
      (.indeterminate, s')) :
    Unfinished v w (lineStart m u ++ d ++ chr '.' :: e ++ [b]) s' := by
  rw [consume, is_digit_eq] at hstep
  split_ifs at hstep with hCR hb
  · obtain ⟨-, rfl⟩ := Prod.mk.inj hstep
    rw [hCR]
    exact expecting_newline_1 ⟨_, _, _, _, hm, hu, hd, he⟩
      (by simp [RequestLine.encode, crlf])
  · obtain ⟨-, rfl⟩ := Prod.mk.inj hstep
    have hnext := http_version_minor (v := v) (w := w) hm hu hd (he.snoc (by simpa using hb))
    rw [version_append_singleton] at hnext
    exact hnext.of_eq (by simp)
  · simp at hstep

/-- At the start of a line: the last line, a line that continues a header, or a header. -/
theorem step_header_line_start (line : RequestLine) (hs : List HeaderLines)
    (hstep : consume (.header_line_start, collected line (hs.map (·.header))) b =
      (.indeterminate, s')) :
    Unfinished v w (sent line hs ++ [b]) s' := by
  rw [consume, not_token_eq] at hstep
  split_ifs at hstep with hCR hfold hb
  · obtain ⟨-, rfl⟩ := Prod.mk.inj hstep
    rw [hCR]
    exact expecting_newline_3 line hs
  · obtain ⟨-, rfl⟩ := Prod.mk.inj hstep
    -- There is a header to continue: the blank is only accepted behind one.
    obtain ⟨hne, hblank⟩ : hs ≠ [] ∧ IsBlank b := by simpa [collected, IsBlank] using hfold
    obtain ⟨init, last, rfl⟩ := List.eq_nil_or_concat' hs |>.resolve_left hne
    exact header_lws line init last (.single hblank)
  · simp at hstep
  · obtain ⟨-, rfl⟩ := Prod.mk.inj hstep
    exact header_name line hs (.single (by simpa using hb))

/-- In the blanks of a line that continues a header. -/
theorem step_header_lws (line : RequestLine) (hs : List HeaderLines) (last : HeaderLines)
    {x : Bytes} (hx : BlankText x)
    (hstep : consume (.header_lws, collected line ((hs ++ [last]).map (·.header))) b =
      (.indeterminate, s')) :
    Unfinished v w (sent line (hs ++ [last]) ++ x ++ [b]) s' := by
  rw [consume, is_ctl_eq] at hstep
  split_ifs at hstep with hCR hblank hb
  · obtain ⟨-, rfl⟩ := Prod.mk.inj hstep
    rw [hCR]
    have hend := folded_line_end (v := v) (w := w) line hs last
      ⟨x, [], hx, by simp [ZeroOrMore]⟩ (p := sent line (hs ++ [last]) ++ x)
      (by simp [Continuation.encode, crlf])
    simpa [Continuation.added, HeaderLines.header] using hend
  · obtain ⟨-, rfl⟩ := Prod.mk.inj hstep
    exact (header_lws line hs last (hx.snoc hblank)).of_eq (by simp)
  · simp at hstep
  · obtain ⟨-, rfl⟩ := Prod.mk.inj hstep
    have hnext := folded_value (v := v) (w := w) line hs last (t := []) hx
      (fun hsp => hblank (Or.inl hsp)) (by simpa [ZeroOrMore] using hb)
    simpa [collected, push_back_value, HeaderLines.header] using hnext

/-- In the name of a header. -/
theorem step_header_name (line : RequestLine) (hs : List HeaderLines) {n : Bytes} (hn : TokenText n)
    (hstep : consume (.header_name, collected line (hs.map (·.header) ++ [⟨n, []⟩])) b =
      (.indeterminate, s')) :
    Unfinished v w (sent line hs ++ n ++ [b]) s' := by
  rw [consume, not_token_eq] at hstep
  split_ifs at hstep with hcolon hb
  · obtain ⟨-, rfl⟩ := Prod.mk.inj hstep
    rw [hcolon]
    exact (space_before_header_value line hs hn).of_eq (by simp)
  · simp at hstep
  · obtain ⟨-, rfl⟩ := Prod.mk.inj hstep
    have hnext := header_name (v := v) (w := w) line hs (hn.snoc (by simpa using hb))
    simpa [collected, push_back_name] using hnext

/-- In the value of a header. -/
theorem step_header_value (line : RequestLine) (hs : List HeaderLines) {n x : Bytes}
    (hn : TokenText n) (hx : PlainText x)
    (hstep : consume (.header_value, collected line (hs.map (·.header) ++ [⟨n, x⟩])) b =
      (.indeterminate, s')) :
    Unfinished v w (sent line hs ++ (n ++ chr ':' :: SP :: x) ++ [b]) s' := by
  rw [consume, is_ctl_eq] at hstep
  split_ifs at hstep with hCR hb
  · obtain ⟨-, rfl⟩ := Prod.mk.inj hstep
    rw [hCR]
    have hend := line_end (v := v) (w := w) line (hs ++ [⟨n, x, [], hn, hx⟩])
      (p := sent line hs ++ (n ++ chr ':' :: SP :: x))
      (by simp [sent, HeaderLines.encode, headerLine, crlf])
    simpa [HeaderLines.header] using hend
  · simp at hstep
  · obtain ⟨-, rfl⟩ := Prod.mk.inj hstep
    have hnext := header_value (v := v) (w := w) line hs hn (hx.snoc (by simpa using hb))
    simpa [collected, push_back_value] using hnext

/-- In the text of a line that continues a header. -/
theorem step_folded_value (line : RequestLine) (hs : List HeaderLines) (last : HeaderLines)
    {x t : Bytes} {c : UInt8} (hx : BlankText x) (hne : c ≠ SP) (ht : PlainText (c :: t))
    (hstep : consume (.header_value, collected line
      (hs.map (·.header) ++ [⟨last.name, last.header.value ++ c :: t⟩])) b = (.indeterminate, s')) :
    Unfinished v w (sent line (hs ++ [last]) ++ (x ++ c :: t) ++ [b]) s' := by
  rw [consume, is_ctl_eq] at hstep
  split_ifs at hstep with hCR hb
  · obtain ⟨-, rfl⟩ := Prod.mk.inj hstep
    rw [hCR]
    have hend := folded_line_end (v := v) (w := w) line hs last ⟨x, c :: t, hx, ht⟩
      (p := sent line (hs ++ [last]) ++ (x ++ c :: t)) (by simp [Continuation.encode, crlf])
    rwa [Continuation.added, List.dropWhile_cons_of_neg (by simpa using hne)] at hend
  · simp at hstep
  · obtain ⟨-, rfl⟩ := Prod.mk.inj hstep
    have hnext := folded_value (v := v) (w := w) line hs last hx hne
      (ht.snoc (by simpa using hb))
    simpa [collected, push_back_value] using hnext

/-- **Every step without a verdict keeps it.** -/
theorem step (h : Unfinished v w p s) (hstep : consume s b = (.indeterminate, s')) :
    Unfinished v w (p ++ [b]) s' := by
  cases h with
  | method_start =>
    rw [fresh, consume, not_token_eq] at hstep
    split_ifs at hstep with hb
    · simp at hstep
    · obtain ⟨-, rfl⟩ := Prod.mk.inj hstep
      exact .method (.single (by simpa using hb))
  | method hm =>
    rw [consume, not_token_eq] at hstep
    split_ifs at hstep with hsp hb
    · obtain ⟨-, rfl⟩ := Prod.mk.inj hstep
      rw [hsp]
      exact .uri hm (by simp [ZeroOrMore])
    · simp at hstep
    · obtain ⟨-, rfl⟩ := Prod.mk.inj hstep
      exact .method (hm.snoc (by simpa using hb))
  | uri hm hu =>
    rw [consume, is_ctl_eq] at hstep
    split_ifs at hstep with hsp hb
    · obtain ⟨-, rfl⟩ := Prod.mk.inj hstep
      rw [hsp]
      exact (http_version hm hu (x := []) (by simp)).of_eq (by simp)
    · simp at hstep
    · obtain ⟨-, rfl⟩ := Prod.mk.inj hstep
      exact (uri hm (hu.snoc ⟨by simpa using hb, hsp⟩)).of_eq (by simp)
  | http_version hm hu hx => exact step_http_version hm hu hx hstep
  | http_version_major_start hm hu =>
    rw [consume, is_digit_eq] at hstep
    split_ifs at hstep with hb
    · obtain ⟨-, rfl⟩ := Prod.mk.inj hstep
      exact http_version_major hm hu (.single (by simpa using hb))
    · simp at hstep
  | http_version_major hm hu hd => exact step_http_version_major hm hu hd hstep
  | http_version_minor_start hm hu hd =>
    rw [consume, is_digit_eq] at hstep
    split_ifs at hstep with hb
    · obtain ⟨-, rfl⟩ := Prod.mk.inj hstep
      exact (http_version_minor hm hu hd (.single (by simpa using hb))).of_eq (by simp)
    · simp at hstep
  | http_version_minor hm hu hd he => exact step_http_version_minor hm hu hd he hstep
  | expecting_newline_1 line hp =>
    obtain ⟨rfl, rfl⟩ := eq_of_expected rfl hstep
    rw [hp]
    exact (header_line_start line []).of_eq (by simp [sent])
  | header_line_start line hs => exact step_header_line_start line hs hstep
  | header_lws line hs last hx => exact step_header_lws line hs last hx hstep
  | header_name line hs hn => exact step_header_name line hs hn hstep
  | space_before_header_value line hs hn =>
    obtain ⟨rfl, rfl⟩ := eq_of_expected rfl hstep
    exact (header_value line hs hn (x := []) (by simp [ZeroOrMore])).of_eq (by simp)
  | header_value line hs hn hx => exact step_header_value line hs hn hx hstep
  | folded_value line hs last hx hne ht => exact step_folded_value line hs last hx hne ht hstep
  | expecting_newline_2 line hs hp =>
    obtain ⟨rfl, rfl⟩ := eq_of_expected rfl hstep
    rw [hp]
    exact header_line_start line hs
  | expecting_newline_3 line hs =>
    rw [consume] at hstep
    split_ifs at hstep <;> simp at hstep

/-- The only step that accepts. -/
theorem eq_of_good (hstep : consume s b = (.good, s')) :
    s.1 = .expecting_newline_3 ∧ b = LF ∧ s' = s := by
  obtain ⟨state, req⟩ := s
  cases state <;> simp only [consume] at hstep <;> split_ifs at hstep <;> simp_all

/-- **What a step accepts is a request.** -/
theorem isRequest_of_good (h : Unfinished v w p s) (hstep : consume s b = (.good, s')) :
    IsRequest (p ++ [b]) s'.2.fields := by
  obtain ⟨hstate, rfl, rfl⟩ := eq_of_good hstep
  obtain ⟨state, req⟩ := s'
  obtain rfl : state = .expecting_newline_3 := hstate
  cases h with
  | expecting_newline_3 line hs =>
    exact ⟨⟨line, hs⟩, by simp [RequestText.encode, RequestText.head, sent, crlf], rfl⟩
  | http_version _ _ hx => simp at hx

end Unfinished

/-- From the state `s` there is a way to the end of a request. -/
def Completable (s : State × Request) : Prop := ∃ t s', scan consume s t = (.good, s', [])

theorem Completable.of_step {s s' : State × Request} (b : UInt8) (h : Completable s')
    (hstep : consume s b = (.indeterminate, s')) : Completable s := by
  obtain ⟨t, u, ht⟩ := h
  exact ⟨b :: t, u, by rw [scan_cons_of_indeterminate t hstep, ht]⟩

/-- **There is a way to the end from every state**, whatever has been collected. -/
theorem completable (state : State) (req : Request) : Completable (state, req) := by
  have newline_3 (req : Request) : Completable (.expecting_newline_3, req) := ⟨[LF], _, rfl⟩
  have line_start (req : Request) : Completable (.header_line_start, req) :=
    .of_step CR (newline_3 req) rfl
  have newline_2 (req : Request) : Completable (.expecting_newline_2, req) :=
    .of_step LF (line_start req) rfl
  have value (req : Request) : Completable (.header_value, req) :=
    .of_step CR (newline_2 req) rfl
  have space (req : Request) : Completable (.space_before_header_value, req) :=
    .of_step SP (value req) rfl
  have newline_1 (req : Request) : Completable (.expecting_newline_1, req) :=
    .of_step LF (line_start req) rfl
  have minor (req : Request) : Completable (.http_version_minor, req) :=
    .of_step CR (newline_1 req) rfl
  have minor_start (req : Request) : Completable (.http_version_minor_start, req) :=
    .of_step (chr '1') (minor _) rfl
  have major (req : Request) : Completable (.http_version_major, req) :=
    .of_step (chr '.') (minor_start req) rfl
  have major_start (req : Request) : Completable (.http_version_major_start, req) :=
    .of_step (chr '1') (major _) rfl
  have slash (req : Request) : Completable (.http_version_slash, req) :=
    .of_step (chr '/') (major_start _) rfl
  have p (req : Request) : Completable (.http_version_p, req) := .of_step (chr 'P') (slash req) rfl
  have t_2 (req : Request) : Completable (.http_version_t_2, req) := .of_step (chr 'T') (p req) rfl
  have t_1 (req : Request) : Completable (.http_version_t_1, req) :=
    .of_step (chr 'T') (t_2 req) rfl
  have h (req : Request) : Completable (.http_version_h, req) := .of_step (chr 'H') (t_1 req) rfl
  have uri (req : Request) : Completable (.uri, req) := .of_step SP (h req) rfl
  have method (req : Request) : Completable (.method, req) := .of_step SP (uri req) rfl
  cases state with
  | method_start => exact .of_step (chr 'G') (method _) rfl
  | method => exact method req
  | uri => exact uri req
  | http_version_h => exact h req
  | http_version_t_1 => exact t_1 req
  | http_version_t_2 => exact t_2 req
  | http_version_p => exact p req
  | http_version_slash => exact slash req
  | http_version_major_start => exact major_start req
  | http_version_major => exact major req
  | http_version_minor_start => exact minor_start req
  | http_version_minor => exact minor req
  | expecting_newline_1 => exact newline_1 req
  | header_line_start => exact line_start req
  | header_lws => exact .of_step CR (newline_2 req) rfl
  | header_name => exact .of_step (chr ':') (space req) rfl
  | space_before_header_value => exact space req
  | header_value => exact value req
  | expecting_newline_2 => exact newline_2 req
  | expecting_newline_3 => exact newline_3 req

/-- What has been read without a verdict. -/
theorem unfinished_of_scan {v w : Int32} {p : Bytes} {s : State × Request}
    (h : scan consume (fresh v w) p = (.indeterminate, s, [])) : Unfinished v w p s :=
  scan_invariant .method_start (fun _ _ _ _ hp hstep => hp.step hstep) h

/-- What has been accepted is a request. -/
theorem isRequest_of_scan {v w : Int32} {p : Bytes} {s : State × Request}
    (h : scan consume (fresh v w) p = (.good, s, [])) : IsRequest p s.2.fields := by
  obtain ⟨before, b, s', rfl, hscan, hstep⟩ := exists_of_scan h (by simp)
  exact (unfinished_of_scan hscan).isRequest_of_good hstep

/-- **The parser recognizes the grammar of requests.** -/
theorem recognizes (v w : Int32) :
    Recognizes consume (fresh v w) IsRequest fun parser => parser.2.fields where
  complete := by
    rintro _ _ ⟨text, rfl, rfl⟩ t
    exact scan_request v w t text
  sound _ _ h := isRequest_of_scan h
  live p s h := by
    obtain ⟨t, s', ht⟩ := completable s.1 s.2
    refine ⟨t, s'.2.fields, isRequest_of_scan (v := v) (w := w) ?_⟩
    rw [scan_append_of_indeterminate t h, ht]

/-- **What the parser says of any input**, whatever the reads it arrives in. It accepts right
behind the byte `k` exactly if the first `k` bytes are a request, and has then collected
what this request says. It rejects exactly if the input has a beginning that, without a
request at its start, is not the beginning of any request. -/
theorem do_read_verdicts (v w : Int32) (reads : List Bytes) :
    (∀ k ≤ reads.flatten.length, ∀ fields : Fields,
      (∃ parser, Connection.do_read (fresh v w) reads =
          (.good, parser, reads.flatten.drop k) ∧ parser.2.fields = fields) ↔
        ∃ text : RequestText, text.encode = reads.flatten.take k ∧ text.fields = fields) ∧
    ((Connection.do_read (fresh v w) reads).1 = .bad ↔
      ∃ p, p <+: reads.flatten ∧ (∀ text : RequestText, ¬text.encode <+: p) ∧
        ∀ text : RequestText, ¬p <+: text.encode) := by
  rw [Connection.do_read, scanChunks_eq]
  constructor
  · intro k hk fields
    rw [good_iff (recognizes v w)]
    constructor
    · rintro ⟨_, ⟨text, rfl, hfields⟩, happ⟩
      refine ⟨text, ?_, hfields⟩
      have htake : reads.flatten.take k ++ reads.flatten.drop k =
          text.encode ++ reads.flatten.drop k := by rw [List.take_append_drop, ← happ]
      exact (List.append_cancel_right htake).symm
    · rintro ⟨text, htext, hfields⟩
      exact ⟨reads.flatten.take k, ⟨text, htext, hfields⟩, (List.take_append_drop k _).symm⟩
  · rw [bad_iff (recognizes v w)]
    constructor
    · rintro ⟨p, hp, hno, hdead⟩
      exact ⟨p, hp, fun text => hno _ _ ⟨text, rfl, rfl⟩, fun text => hdead _ _ ⟨text, rfl, rfl⟩⟩
    · rintro ⟨p, hp, hno, hdead⟩
      refine ⟨p, hp, ?_, ?_⟩
      · rintro _ _ ⟨text, rfl, -⟩
        exact hno text
      · rintro _ _ ⟨text, rfl, -⟩
        exact hdead text

end IqLogger.Http
