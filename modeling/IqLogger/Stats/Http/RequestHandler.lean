import IqLogger.Lib.PercentEncoding
import IqLogger.Stats.Http.Reply
import Mathlib.Data.List.Infix

/-!
# The handler of requests

`RequestHandler::handle_request` decodes the path of a request and answers with the
statistics, or with the page for an error.

`RequestHandler::url_decode` goes over the path from left to right. An escape is read by
extracting an `int` from a stream over the two characters behind the `%`, and nothing asks
whether the number has taken up both of them: white space and a sign before a digit are
read as well, and so is one digit before anything. The path `/%5g` is taken for `/` and the
byte 5.

`RequestHandler.url_decodeLoop_ends` says what the loop does, for every path: it decodes the
path with this reading of the escapes. It is right on exactly those paths in which no escape
is read that is no pair of digits, unless another one stops it
(`RequestHandler.decodesExactly_iff`).
-/

namespace IqLogger.Http

open PercentEncoding Strto

/-- `static_cast<char>(value)`. -/
def toChar (value : Int32) : UInt8 := value.toInt8.toUInt8

/-- A number of two digits is its byte. -/
theorem toChar_ofNat {n : ℕ} (h : n < 256) : toChar (Int32.ofInt n) = UInt8.ofNat n := by
  have hall : ∀ n : Fin 256, toChar (Int32.ofInt n.val) = UInt8.ofNat n.val := by decide +kernel
  exact hall ⟨n, h⟩

namespace RequestHandler

/-- The loop of `url_decode`, from the position `i` on. -/
def url_decodeLoop (input : Bytes) (i : ℕ) (out : Bytes) : Bool × Bytes :=
  if _ : i < input.length then
    if input[i] = chr '%' then
      if i + 3 ≤ input.length then
        match extractHex (substr input (i + 1) 2) with
        | some value => url_decodeLoop input (i + 3) (out ++ [toChar value])
        | none => (false, out)
      else (false, out)
    else if input[i] = chr '+' then
      url_decodeLoop input (i + 1) (out ++ [SP])
    else
      url_decodeLoop input (i + 1) (out ++ [input[i]])
  else (true, out)
termination_by input.length - i

/-- `RequestHandler::url_decode`: whether the path is accepted, and `out`, which is cleared
first. -/
def url_decode (input : Bytes) : Bool × Bytes := url_decodeLoop input 0 []

/-! ### What the loop does -/

/-- How the loop reads an escape. -/
def readEscape (digits : Bytes) : Option UInt8 :=
  if digits.length = 2 then (extractHex digits).map toChar else none

theorem readEscape_pair (x y : UInt8) :
    readEscape [x, y] = (extractHex [x, y]).map toChar := rfl

theorem readEscape_of_ne {e : Bytes} (h : e.length ≠ 2) : readEscape e = none := if_neg h

/-- What is left of a path at an escape that is not cut off. -/
theorem drop_eq_escape {input : Bytes} {i : ℕ} (hlt : i < input.length)
    (hpercent : input[i] = chr '%') (hle : i + 3 ≤ input.length) :
    ∃ x y, substr input (i + 1) 2 = [x, y] ∧
      input.drop i = 37 :: x :: y :: input.drop (i + 3) := by
  have hx : i + 1 < input.length := by omega
  have hy : i + 2 < input.length := by omega
  have hdrop : input.drop (i + 1) = input[i + 1] :: input[i + 2] :: input.drop (i + 3) := by
    rw [List.drop_eq_getElem_cons hx, List.drop_eq_getElem_cons hy]
  refine ⟨input[i + 1], input[i + 2], ?_, ?_⟩
  · rw [substr, hdrop]
    rfl
  · rw [List.drop_eq_getElem_cons hlt, hdrop, hpercent]
    rfl

/-- What is left of a path at a byte outside an escape. -/
theorem decode_drop_byte {read : Bytes → Option UInt8} {input : Bytes} {i : ℕ}
    (hlt : i < input.length) (hpercent : input[i] ≠ chr '%') :
    decode read (input.drop i) =
      (decode read (input.drop (i + 1))).map ((if input[i] = 43 then 32 else input[i]) :: ·) := by
  rw [List.drop_eq_getElem_cons hlt, decode_byte hpercent]

/-- The loop ends as the decoding of what was left of the path does, with the result put
behind `out`. -/
structure Ends (result : Bool × Bytes) (out : Bytes) (decoded : Option Bytes) : Prop where
  accepts : result.1 = decoded.isSome
  out : ∀ rest, decoded = some rest → result.2 = out ++ rest

theorem Ends.refuse (out : Bytes) : Ends (false, out) out none where
  accepts := rfl
  out _ h := by cases h

/-- One byte was put out before. -/
theorem Ends.cons {result : Bool × Bytes} {out : Bytes} {v : UInt8} {decoded : Option Bytes}
    (h : Ends result (out ++ [v]) decoded) : Ends result out (decoded.map (v :: ·)) where
  accepts := by rw [h.accepts, Option.isSome_map]
  out rest hrest := by
    obtain ⟨rest, hdecoded, rfl⟩ := Option.map_eq_some_iff.mp hrest
    rw [h.out rest hdecoded, List.append_assoc, List.singleton_append]

/-- **The loop decodes what is left of the path.** -/
theorem url_decodeLoop_ends (input : Bytes) (i : ℕ) (out : Bytes) :
    Ends (url_decodeLoop input i out) out (decode readEscape (input.drop i)) := by
  fun_induction url_decodeLoop input i out with
  | case1 i out hlt hpercent hle value hvalue ih =>
    obtain ⟨x, y, hsub, hdrop⟩ := drop_eq_escape hlt hpercent hle
    rw [hdrop, decode_escape, readEscape_pair, ← hsub, hvalue, Option.map_some, Option.bind_some]
    exact ih.cons
  | case2 i out hlt hpercent hle hvalue =>
    obtain ⟨x, y, hsub, hdrop⟩ := drop_eq_escape hlt hpercent hle
    rw [hdrop, decode_escape, readEscape_pair, ← hsub, hvalue, Option.map_none, Option.bind_none]
    exact .refuse out
  | case3 i out hlt hpercent hle =>
    have hshort : (input.drop (i + 1)).length < 2 := by
      rw [List.length_drop]
      omega
    have hdecode : decode readEscape (chr '%' :: input.drop (i + 1)) = none :=
      decode_short hshort (readEscape_of_ne (by omega))
    rw [List.drop_eq_getElem_cons hlt, hpercent, hdecode]
    exact .refuse out
  | case4 i out hlt hpercent hplus ih =>
    have hblank : (if input[i] = 43 then 32 else input[i]) = SP := if_pos hplus
    rw [decode_drop_byte hlt hpercent, hblank]
    exact ih.cons
  | case5 i out hlt hpercent hplus ih =>
    have hbyte : (if input[i] = 43 then 32 else input[i]) = input[i] := if_neg hplus
    rw [decode_drop_byte hlt hpercent, hbyte]
    exact ih.cons
  | case6 i out hge =>
    rw [List.drop_of_length_le (by omega), decode_nil]
    refine ⟨rfl, fun rest hrest => ?_⟩
    obtain rfl := Option.some.inj hrest
    exact (List.append_nil out).symm

/-- **A path is accepted where every escape can be read.** -/
theorem url_decode_eq_true_iff (input : Bytes) :
    (url_decode input).1 = true ↔ ∀ e ∈ escapes input, (readEscape e).isSome := by
  rw [url_decode, (url_decodeLoop_ends input 0 []).accepts, List.drop_zero, isSome_decode_iff]

theorem url_decode_out {input out : Bytes} (h : decode readEscape input = some out) :
    (url_decode input).2 = out :=
  (url_decodeLoop_ends input 0 []).out out (by rwa [List.drop_zero])

/-! ### Which escapes are read -/

/-- The characters behind a `%` that are read as a number and are no pair of digits: a digit
before anything that neither is a digit nor makes a prefix of the two, or a digit behind white
space or a sign. -/
def Loose : Bytes → Prop
  | [x, y] =>
    (hexValue x).isSome ∧ hexValue y = none ∧ ¬(x = chr '0' ∧ toLower y = chr 'x') ∨
      (isSpace x ∨ x = chr '-' ∨ x = chr '+') ∧ (hexValue y).isSome
  | _ => False

/-- Two digits are read as their byte. -/
theorem readEscape_of_hexPair (e : Bytes) (v : UInt8) (h : hexPair e = some v) :
    readEscape e = some v := by
  match e, h with
  | [x, y], h =>
    rw [hexPair] at h
    split at h
    · next a b hx hy =>
      obtain ⟨ha, -⟩ := of_hexValue hx
      obtain ⟨hb, -⟩ := of_hexValue hy
      rw [readEscape_pair, extractHex_of_digits hx hy, ← h, Option.map_some,
        toChar_ofNat (by omega)]
    · cases h

/-- **The escapes that are read** are the pairs of digits and the loose ones. -/
theorem isSome_readEscape_iff (e : Bytes) :
    (readEscape e).isSome ↔ (hexPair e).isSome ∨ Loose e := by
  match e with
  | [x, y] =>
    rw [readEscape_pair, Option.isSome_map, isSome_extractHex_iff, isSome_hexPair_iff, Loose]
    constructor
    · rintro (⟨hx, hmark⟩ | hfront)
      · cases hy : hexValue y with
        | none => exact Or.inr (Or.inl ⟨hx, rfl, hmark⟩)
        | some b => exact Or.inl ⟨hx, rfl⟩
      · exact Or.inr (Or.inr hfront)
    · rintro (⟨hx, hy⟩ | ⟨hx, -, hmark⟩ | hfront)
      · obtain ⟨b, hb⟩ := Option.isSome_iff_exists.mp hy
        obtain ⟨-, -, -, -, hletter⟩ := of_hexValue hb
        exact Or.inl ⟨hx, fun h => hletter h.2⟩
      · exact Or.inl ⟨hx, hmark⟩
      · exact Or.inr hfront
  | [] => simp [readEscape, hexPair, Loose]
  | [x] => simp [readEscape, hexPair, Loose]
  | x :: y :: z :: e => simp [readEscape, hexPair, Loose]

/-- No loose escape is a pair of digits. -/
theorem Loose.not_hexPair {e : Bytes} (h : Loose e) : ¬(hexPair e).isSome := by
  match e, h with
  | [x, y], h =>
    rw [isSome_hexPair_iff]
    rintro ⟨hx, hy⟩
    rcases h with ⟨-, hnone, -⟩ | ⟨hfront, -⟩
    · simp [hnone] at hy
    · rw [hexValue_of_front hfront] at hx
      cases hx

/-! ### When the path is decoded exactly -/

/-- **`url_decode` is exact on a path**: it accepts the path exactly if every escape in it is
followed by two digits, and then puts out the path with each escape replaced by its byte and
every other `+` by a blank. -/
structure DecodesExactly (input : Bytes) : Prop where
  accepts : (url_decode input).1 = true ↔ WellFormed input
  out : (url_decode input).1 = true → decode hexPair input = some (url_decode input).2

/-- A well-formed path is decoded as what it encodes. -/
theorem url_decode_of_wellFormed {input : Bytes} (h : WellFormed input) :
    (url_decode input).1 = true ∧ decode hexPair input = some (url_decode input).2 := by
  obtain ⟨out, hout⟩ := Option.isSome_iff_exists.mp (isSome_decode_iff.mpr h)
  have hread := decode_of_le readEscape_of_hexPair hout
  refine ⟨?_, ?_⟩
  · rw [url_decode_eq_true_iff]
    exact isSome_decode_iff.mp (Option.isSome_of_eq_some hread)
  · rw [url_decode_out hread, hout]

/-- **When a path is decoded exactly**: where an escape of it is loose, another one is
neither loose nor a pair of digits. -/
theorem decodesExactly_iff (input : Bytes) :
    DecodesExactly input ↔
      ((∃ e ∈ escapes input, Loose e) → ∃ e ∈ escapes input, ¬(hexPair e).isSome ∧ ¬Loose e) := by
  constructor
  · rintro ⟨haccepts, -⟩ ⟨e, he, hloose⟩
    by_contra hcon
    have hread : ∀ e ∈ escapes input, (readEscape e).isSome := by
      intro e he
      rw [isSome_readEscape_iff]
      by_contra hneither
      exact hcon ⟨e, he, not_or.mp hneither⟩
    have hwf := haccepts.mp ((url_decode_eq_true_iff input).mpr hread)
    exact hloose.not_hexPair (hwf e he)
  · intro h
    have hwf : (url_decode input).1 = true → WellFormed input := by
      intro htrue e he
      have hread := (url_decode_eq_true_iff input).mp htrue
      refine ((isSome_readEscape_iff e).mp (hread e he)).resolve_right fun hloose => ?_
      obtain ⟨e', he', hpair, hloose'⟩ := h ⟨e, he, hloose⟩
      exact ((isSome_readEscape_iff e').mp (hread e' he')).elim hpair hloose'
    exact ⟨⟨hwf, fun h => (url_decode_of_wellFormed h).1⟩,
      fun htrue => (url_decode_of_wellFormed (hwf htrue)).2⟩

/-- The path `/%5g` is accepted. -/
theorem loose_escape_accepted : ¬∀ input, DecodesExactly input := by
  intro h
  have h := (h (ascii "/%5g")).accepts
  revert h
  decide +kernel

/-! ### The handler -/

/-- `MimeType::mappings`. -/
def mappings : List (Bytes × Bytes) :=
  [(ascii "gif", ascii "image/gif"), (ascii "htm", ascii "text/html"),
    (ascii "html", ascii "text/html"), (ascii "jpg", ascii "image/jpeg"),
    (ascii "png", ascii "image/png"), (ascii "json", ascii "application/json")]

/-- `MimeType::extension_to_type`. -/
def extension_to_type (extension : Bytes) : Bytes :=
  match mappings.find? fun m => m.1 = extension with
  | some m => m.2
  | none => ascii "text/plain"

section Handler

/- The statistics, as the text they are written to when they are asked for. -/
variable (stats : Bytes)

/-- `RequestHandler::handle_request`. -/
def handle_request (req : Request) : Reply :=
  match url_decode req.uri with
  | (false, _) => .stock_reply .bad_request
  | (true, request_path) =>
    if request_path = [] ∨ request_path.head? ≠ some (chr '/') ∨ ascii ".." <:+: request_path then
      .stock_reply .bad_request
    else if request_path = ascii "/stats" then
      { status := .ok
        headers := Reply.contentHeaders stats (extension_to_type (ascii "json"))
        content := stats }
    else
      .stock_reply .not_found

/-- **What is answered**: the statistics, or one of two pages. -/
theorem handle_request_cases (req : Request) :
    (url_decode req.uri = (true, ascii "/stats") ∧
      handle_request stats req =
        ⟨.ok, Reply.contentHeaders stats (ascii "application/json"), stats⟩) ∨
    (url_decode req.uri ≠ (true, ascii "/stats") ∧
      ∃ status, (status = .bad_request ∨ status = .not_found) ∧
        handle_request stats req = .stock_reply status) := by
  rw [handle_request]
  split
  · next request_path heq =>
    exact Or.inr ⟨by simp [heq], .bad_request, Or.inl rfl, rfl⟩
  · next request_path heq =>
    simp only [heq, ne_eq, Prod.mk.injEq, true_and]
    by_cases hstats : request_path = ascii "/stats"
    · subst hstats
      rw [if_neg (by decide), if_pos rfl]
      exact Or.inl ⟨rfl, rfl⟩
    · refine Or.inr ⟨hstats, ?_⟩
      rw [if_neg hstats]
      split_ifs
      · exact ⟨.bad_request, Or.inl rfl, rfl⟩
      · exact ⟨.not_found, Or.inr rfl, rfl⟩

/-- Every answer is framed. -/
theorem framed_handle_request (req : Request) : (handle_request stats req).Framed := by
  rcases handle_request_cases stats req with ⟨-, heq⟩ | ⟨-, status, -, heq⟩
  · rw [heq]
    exact ⟨ascii "application/json", by decide, by decide, rfl⟩
  · rw [heq]
    exact Reply.framed_stock_reply status

/-- **Who gets the statistics**: whose path is decoded as `/stats`. -/
theorem status_handle_request_eq_ok_iff (req : Request) :
    (handle_request stats req).status = .ok ↔ url_decode req.uri = (true, ascii "/stats") := by
  rcases handle_request_cases stats req with ⟨hpath, heq⟩ | ⟨hpath, status, hstatus, heq⟩
  · exact iff_of_true (by rw [heq]) hpath
  · refine iff_of_false (fun hok => ?_) hpath
    rw [heq, Reply.stock_reply] at hok
    rcases hstatus with rfl | rfl
    · cases hok
    · cases hok

end Handler

end RequestHandler

end IqLogger.Http
