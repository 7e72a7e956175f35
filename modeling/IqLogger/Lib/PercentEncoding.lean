import IqLogger.Lib.Strto

/-!
# Percent-encoded text

A text in which `%` begins an escape: the two bytes behind it, or the bytes that are left
where there are fewer, belong to the escape and stand for one byte. `tokens` cuts a text
from left to right into escapes and the bytes between them; `decode` replaces every escape
by what a reading of escapes says, and `+` outside an escape by a blank. Where the reading
fails on one escape there is no result.

`hexPair` reads two hexadecimal digits, which is what a text has to be encoded with. Other
readings may accept more, and then they accept more texts (`decode_of_le`).
-/

namespace PercentEncoding

/-- A piece of a text: one byte outside an escape, or the bytes of an escape behind its
`%`. -/
inductive Token
  | byte (c : UInt8)
  | escape (digits : List UInt8)
  deriving DecidableEq, Repr

/-- **The pieces of a text**, from left to right. -/
def tokens : List UInt8 → List Token
  | [] => []
  | 37 :: x :: y :: s => .escape [x, y] :: tokens s
  | 37 :: s => [.escape s]
  | c :: s => .byte c :: tokens s

/-- The escape that a piece is. -/
def Token.escape? : Token → Option (List UInt8)
  | byte _ => none
  | escape digits => some digits

/-- The escapes of a text. -/
def escapes (s : List UInt8) : List (List UInt8) := (tokens s).filterMap Token.escape?

/-- A reading of escapes, as one of pieces: outside of escapes `+` is a blank. -/
def Token.read (read : List UInt8 → Option UInt8) : Token → Option UInt8
  | byte c => some (if c = 43 then 32 else c)
  | escape digits => read digits

/-- What some pieces stand for, where every escape among them can be read. -/
def readTokens (read : List UInt8 → Option UInt8) : List Token → Option (List UInt8)
  | [] => some []
  | token :: rest => (token.read read).bind fun v => (readTokens read rest).map (v :: ·)

/-- **The text that is encoded.** -/
def decode (read : List UInt8 → Option UInt8) (s : List UInt8) : Option (List UInt8) :=
  readTokens read (tokens s)

/-- The byte of two hexadecimal digits. -/
def hexPair : List UInt8 → Option UInt8
  | [x, y] =>
    match Strto.hexValue x, Strto.hexValue y with
    | some a, some b => some (UInt8.ofNat (16 * a + b))
    | _, _ => none
  | _ => none

theorem isSome_hexPair_iff {x y : UInt8} :
    (hexPair [x, y]).isSome ↔ (Strto.hexValue x).isSome ∧ (Strto.hexValue y).isSome := by
  rw [hexPair]
  cases Strto.hexValue x <;> cases Strto.hexValue y <;> simp

/-- Every `%` of the text that begins an escape is followed by two hexadecimal digits. -/
def WellFormed (s : List UInt8) : Prop := ∀ e ∈ escapes s, (hexPair e).isSome

instance (s : List UInt8) : Decidable (WellFormed s) := inferInstanceAs (Decidable (∀ e ∈ _, _))

section Pieces

variable {c x y : UInt8} {s : List UInt8} {read strict : List UInt8 → Option UInt8}

/-! ### The pieces -/

@[simp] theorem tokens_nil : tokens [] = [] := rfl

theorem tokens_escape : tokens (37 :: x :: y :: s) = .escape [x, y] :: tokens s := rfl

/-- An escape that the text ends in. -/
theorem tokens_short (h : s.length < 2) : tokens (37 :: s) = [.escape s] := by
  match s, h with
  | [], _ => rfl
  | [_], _ => rfl

theorem tokens_byte (h : c ≠ 37) : tokens (c :: s) = .byte c :: tokens s :=
  tokens.eq_4 c s (fun _ _ _ hc _ => h hc) h

/-! ### The text that is encoded -/

@[simp] theorem decode_nil : decode read [] = some [] := rfl

theorem decode_escape : decode read (37 :: x :: y :: s) =
    (read [x, y]).bind fun v => (decode read s).map (v :: ·) := rfl

/-- An escape that is cut off and cannot be read. -/
theorem decode_short (h : s.length < 2) (hread : read s = none) : decode read (37 :: s) = none := by
  rw [decode, tokens_short h, readTokens, Token.read, hread, Option.bind_none]

theorem decode_byte (h : c ≠ 37) :
    decode read (c :: s) = (decode read s).map ((if c = 43 then 32 else c) :: ·) := by
  rw [decode, tokens_byte h]
  rfl

/-- **There is a result where every escape can be read.** -/
theorem isSome_decode_iff : (decode read s).isSome ↔ ∀ e ∈ escapes s, (read e).isSome := by
  rw [decode, escapes]
  induction tokens s with
  | nil => simp [readTokens]
  | cons token rest ih =>
    cases token with
    | byte c => simpa [readTokens, Token.read, Token.escape?] using ih
    | escape digits =>
      rw [List.filterMap_cons_some (f := Token.escape?) (b := digits) rfl, List.forall_mem_cons,
        ← ih, readTokens, Token.read]
      cases read digits <;> simp

/-- A reading that agrees with another one where that one succeeds gives its results. -/
theorem decode_of_le (hle : ∀ e v, strict e = some v → read e = some v) {t : List UInt8}
    (h : decode strict s = some t) : decode read s = some t := by
  have htoken : ∀ token v, Token.read strict token = some v → Token.read read token = some v := by
    intro token v hv
    cases token with
    | byte c => exact hv
    | escape digits => exact hle digits v hv
  rw [decode] at h ⊢
  generalize tokens s = ts at h ⊢
  induction ts generalizing t with
  | nil => exact h
  | cons token rest ih =>
    obtain ⟨v, hv, h⟩ := Option.bind_eq_some_iff.mp h
    obtain ⟨t', ht', rfl⟩ := Option.map_eq_some_iff.mp h
    rw [readTokens, htoken token v hv, ih ht']
    rfl

end Pieces

end PercentEncoding
