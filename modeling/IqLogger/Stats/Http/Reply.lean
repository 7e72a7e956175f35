import IqLogger.Stats.Http.Versions
import Mathlib.Data.Nat.Digits.Defs

/-!
# Replies

A `Reply` is a status, headers and a content, and is sent as the buffers of
`Reply::to_buffers` one after the other. `Reply::stock_reply` makes the page for a
status.

A reply is `Framed` when it says how long its content is and no header breaks out of its
line. What is sent of a framed reply can be taken apart again: it is lines that are not empty
and hold no line end, an empty line, and as many bytes as the header says
(`Reply.Framed.exists_lines`).
-/

namespace IqLogger.Http

/-- `Reply::status_type`. -/
inductive StatusType
  | ok
  | created
  | accepted
  | no_content
  | multiple_choices
  | moved_permanently
  | moved_temporarily
  | not_modified
  | bad_request
  | unauthorized
  | forbidden
  | not_found
  | internal_server_error
  | not_implemented
  | bad_gateway
  | service_unavailable
  deriving DecidableEq, Repr

/-- `Reply`. -/
structure Reply where
  status : StatusType
  headers : List Header
  content : Bytes
  deriving DecidableEq

/-! ### The texts -/

/-- The texts of `status_strings`, without what all of them begin and end with. -/
def StatusType.reason : StatusType → Bytes
  | ok => ascii "200 OK"
  | created => ascii "201 Created"
  | accepted => ascii "202 Accepted"
  | no_content => ascii "204 No Content"
  | multiple_choices => ascii "300 Multiple Choices"
  | moved_permanently => ascii "301 Moved Permanently"
  | moved_temporarily => ascii "302 Moved Temporarily"
  | not_modified => ascii "304 Not Modified"
  | bad_request => ascii "400 Bad Request"
  | unauthorized => ascii "401 Unauthorized"
  | forbidden => ascii "403 Forbidden"
  | not_found => ascii "404 Not Found"
  | internal_server_error => ascii "500 Internal Server Error"
  | not_implemented => ascii "501 Not Implemented"
  | bad_gateway => ascii "502 Bad Gateway"
  | service_unavailable => ascii "503 Service Unavailable"

/-- The first line of a reply, without its end. -/
def StatusType.line (status : StatusType) : Bytes := ascii "HTTP/1.0 " ++ status.reason

/-- A page of `stock_replies`. -/
def page (title heading : String) : Bytes :=
  ascii "<html><head><title>" ++ ascii title ++ ascii "</title></head><body><h1>" ++
    ascii heading ++ ascii "</h1></body></html>"

/-- `stock_replies::to_string`. -/
def StatusType.to_string : StatusType → Bytes
  | ok => []
  | created => page "Created" "201 Created"
  | accepted => page "Accepted" "202 Accepted"
  | no_content => page "No Content" "204 Content"
  | multiple_choices => page "Multiple Choices" "300 Multiple Choices"
  | moved_permanently => page "Moved Permanently" "301 Moved Permanently"
  | moved_temporarily => page "Moved Temporarily" "302 Moved Temporarily"
  | not_modified => page "Not Modified" "304 Not Modified"
  | bad_request => page "Bad Request" "400 Bad Request"
  | unauthorized => page "Unauthorized" "401 Unauthorized"
  | forbidden => page "Forbidden" "403 Forbidden"
  | not_found => page "Not Found" "404 Not Found"
  | internal_server_error => page "Internal Server Error" "500 Internal Server Error"
  | not_implemented => page "Not Implemented" "501 Not Implemented"
  | bad_gateway => page "Bad Gateway" "502 Bad Gateway"
  | service_unavailable => page "Service Unavailable" "503 Service Unavailable"

/-- `std::to_string` of a size. -/
def sizeText (n : ℕ) : Bytes :=
  if n = 0 then [48] else ((Nat.digits 10 n).map fun d => UInt8.ofNat (48 + d)).reverse

namespace Reply

/-- The two headers every reply gets: how long its content is, and of what type. -/
def contentHeaders (content contentType : Bytes) : List Header :=
  [⟨ascii "Content-Length", sizeText content.length⟩, ⟨ascii "Content-Type", contentType⟩]

/-- `Reply::stock_reply`. -/
def stock_reply (status : StatusType) : Reply where
  status := status
  headers := contentHeaders status.to_string (ascii "text/html")
  content := status.to_string

/-- `Reply::to_buffers`. -/
def to_buffers (rep : Reply) : List Bytes :=
  (rep.status.line ++ crlf) ::
    (rep.headers.flatMap fun h => [h.name, [chr ':', SP], h.value, crlf]) ++ [crlf, rep.content]

end Reply

/-! ### Sizes -/

/-- The letters of some digits are their number, the last digit the most significant. -/
theorem number_reverse {ds : List ℕ} (hds : ∀ d ∈ ds, d < 10) :
    number (ds.map fun d => UInt8.ofNat (48 + d)).reverse = Nat.ofDigits 10 ds := by
  induction ds with
  | nil => rfl
  | cons d ds ih =>
    obtain ⟨hd, hds⟩ := List.forall_mem_cons.mp hds
    have hletter : (UInt8.ofNat (48 + d)).toNat = 48 + d :=
      UInt8.toNat_ofNat_of_lt' (by rw [UInt8.size]; omega)
    rw [List.map_cons, List.reverse_cons, number_snoc, ih hds, hletter, Nat.ofDigits_cons,
      Nat.add_sub_cancel_left, Nat.add_comm]

/-- **A size is read back as what it is.** -/
theorem number_sizeText (n : ℕ) : number (sizeText n) = n := by
  rw [sizeText]
  split_ifs with hn
  · rw [hn]
    rfl
  · rw [number_reverse fun d hd => Nat.digits_lt_base (by omega) hd, Nat.ofDigits_digits]

/-- A size is written in digits. -/
theorem isDigit_of_mem_sizeText {n : ℕ} {b : UInt8} (h : b ∈ sizeText n) : IsDigit b := by
  have hletter : ∀ d : Fin 10, IsDigit (UInt8.ofNat (48 + d)) := by decide
  rw [sizeText] at h
  split_ifs at h with hn
  · obtain rfl := List.mem_singleton.mp h
    exact hletter 0
  · obtain ⟨d, hd, rfl⟩ := List.mem_map.mp (List.mem_reverse.mp h)
    exact hletter ⟨d, Nat.digits_lt_base (by omega) hd⟩

/-! ### Framing -/

/-- A text of one line. -/
def OneLine (line : Bytes) : Prop := line ≠ [] ∧ CR ∉ line ∧ LF ∉ line

instance (line : Bytes) : Decidable (OneLine line) := inferInstanceAs (Decidable (_ ∧ _ ∧ _))

theorem OneLine.append {line rest : Bytes} (h : OneLine line) (hCR : CR ∉ rest)
    (hLF : LF ∉ rest) : OneLine (line ++ rest) := by
  obtain ⟨hne, hCR', hLF'⟩ := h
  exact ⟨by simp [hne], by simp [hCR, hCR'], by simp [hLF, hLF']⟩

theorem oneLine_line (status : StatusType) : OneLine status.line := by
  cases status <;> decide

namespace Reply

/-- **A reply is framed**: its headers are the length of its content and a type without a
line end. -/
def Framed (rep : Reply) : Prop :=
  ∃ contentType, CR ∉ contentType ∧ LF ∉ contentType ∧
    rep.headers = contentHeaders rep.content contentType

theorem framed_stock_reply (status : StatusType) : (stock_reply status).Framed :=
  ⟨ascii "text/html", by decide, by decide, rfl⟩

/-- The line that says how long the content is. -/
def lengthLine (size : ℕ) : Bytes := ascii "Content-Length: " ++ sizeText size

theorem oneLine_lengthLine (size : ℕ) : OneLine (lengthLine size) := by
  refine OneLine.append (by decide) (fun h => ?_) fun h => ?_
  · exact absurd (isDigit_of_mem_sizeText h) (by decide)
  · exact absurd (isDigit_of_mem_sizeText h) (by decide)

/-- **What is sent of a framed reply**: the line of the status and others, an empty line, and as
many bytes as one of the lines says. -/
theorem Framed.exists_lines {rep : Reply} (h : rep.Framed) :
    ∃ lines : List Bytes, (∀ line ∈ rep.status.line :: lines, OneLine line) ∧
      lengthLine rep.content.length ∈ lines ∧
      rep.to_buffers.flatten =
        (rep.status.line :: lines).flatMap (· ++ crlf) ++ crlf ++ rep.content := by
  obtain ⟨contentType, hCR, hLF, hheaders⟩ := h
  have htype : OneLine (ascii "Content-Type: " ++ contentType) :=
    OneLine.append (by decide) hCR hLF
  have hlengthName : ascii "Content-Length: " = ascii "Content-Length" ++ [chr ':', SP] := rfl
  have htypeName : ascii "Content-Type: " = ascii "Content-Type" ++ [chr ':', SP] := rfl
  refine ⟨[lengthLine rep.content.length, ascii "Content-Type: " ++ contentType], ?_, by simp, ?_⟩
  · simp only [List.forall_mem_cons, List.not_mem_nil, IsEmpty.forall_iff, implies_true, and_true]
    exact ⟨oneLine_line rep.status, oneLine_lengthLine _, htype⟩
  · rw [to_buffers, hheaders, contentHeaders, lengthLine, hlengthName, htypeName]
    simp

end Reply

end IqLogger.Http
