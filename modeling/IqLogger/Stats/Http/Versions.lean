import IqLogger.Stats.Http.Recognition

/-!
# The version numbers of a request

The two version numbers are accumulated in `int`s, digit after digit, by
`version * 10 + input - '0'`; nothing bounds the number of digits. `evaluated` are the
integers this computes on the way, from left to right: the character code is added before
that of `0` is subtracted, so the largest number that can be read without an overflow is 48
below the largest `int`.

No evaluation overflows exactly if every version number that is read, up to each
of its digits, is at most that (`noOverflow_iff`).
-/

namespace IqLogger.Http

open Scanner RequestParser

open Strto (forall_byte)

/-- The number a run of digits denotes. -/
def number (digits : Bytes) : ℕ := digits.foldl (fun n b => 10 * n + (b.toNat - 48)) 0

/-- The largest number that is read without an overflow: `INT_MAX - '0'`. -/
def maxVersion : ℕ := 2 ^ 31 - 1 - 48

@[simp] theorem number_nil : number [] = 0 := rfl

theorem number_snoc (digits : Bytes) (b : UInt8) :
    number (digits ++ [b]) = 10 * number digits + (b.toNat - 48) := by
  rw [number, List.foldl_append]
  rfl

/-- The integers that `version * 10 + input - '0'` computes. -/
def digitValues (version : Int32) (input : UInt8) : List ℤ :=
  [version.toInt * 10, version.toInt * 10 + toInt input, version.toInt * 10 + toInt input - 48]

/-- **The integers one step of the parser computes**, for a version number. -/
def evaluated : State × Request → UInt8 → List ℤ
  | (.http_version_major_start, req), input =>
    if is_digit (toInt input) then digitValues req.http_version_major input else []
  | (.http_version_major, req), input =>
    if is_digit (toInt input) then digitValues req.http_version_major input else []
  | (.http_version_minor_start, req), input =>
    if is_digit (toInt input) then digitValues req.http_version_minor input else []
  | (.http_version_minor, req), input =>
    if is_digit (toInt input) then digitValues req.http_version_minor input else []
  | _, _ => []

/-- An `int`. -/
def InRange (n : ℤ) : Prop := -2147483648 ≤ n ∧ n ≤ 2147483647

instance (n : ℤ) : Decidable (InRange n) := inferInstanceAs (Decidable (_ ∧ _))

/-- Nothing that is computed for a version number, while the reads are parsed, leaves the
range of an `int`. -/
def NoOverflow (v w : Int32) (reads : List Bytes) : Prop :=
  ∀ x ∈ stepsChunks consume (fresh v w) reads, ∀ n ∈ evaluated x.1 x.2, InRange n

instance (v w : Int32) (reads : List Bytes) : Decidable (NoOverflow v w reads) :=
  inferInstanceAs (Decidable (∀ x ∈ _, _))

/-- `p` is the beginning of a request up to some digit of a version number, and `d` are the
digits of this number so far. -/
def ReadVersion (p d : Bytes) : Prop :=
  ∃ m u, TokenText m ∧ UriText u ∧ DigitText d ∧
    (p = lineStart m u ++ d ∨ ∃ e, DigitText e ∧ p = lineStart m u ++ e ++ chr '.' :: d)

/-! ### Digits -/

theorem toInt_of_isDigit (b : UInt8) :
    IsDigit b → toInt b = b.toNat ∧ 48 ≤ b.toNat ∧ b.toNat ≤ 57 := by
  revert b
  exact forall_byte (by decide +kernel)

/-- **One digit, without an overflow.** -/
theorem toInt_version_digit {v : Int32} {b : UInt8} (hb : IsDigit b) {n : ℕ}
    (hv : v.toInt = n) (hn : 10 * n + (b.toNat - 48) < 2 ^ 31) :
    (version_digit v b).toInt = (10 * n + (b.toNat - 48) : ℕ) := by
  obtain ⟨hint, hlow, hhigh⟩ := toInt_of_isDigit b hb
  have hten : (10 : Int32).toInt = 10 := rfl
  have hzero : (48 : Int32).toInt = 48 := rfl
  rw [version_digit, Int32.toInt_sub, Int32.toInt_add, Int32.toInt_mul, Int32.toInt_ofInt, hv,
    hint, hten, hzero, Int.bmod_add_bmod, Int.add_bmod_bmod, Int.bmod_sub_bmod]
  have hsize : (Int32.size : ℤ) = 2 ^ 32 := rfl
  refine (Int.bmod_eq_of_le (by omega) (by omega)).trans ?_
  omega

/-- **A number that does not overflow is read as what it is.** -/
theorem toInt_version {d : Bytes} (hd : ∀ b ∈ d, IsDigit b) (h : number d < 2 ^ 31) :
    (version d).toInt = number d := by
  induction d using List.reverseRecOn with
  | nil => rfl
  | append_singleton d b ih =>
    obtain ⟨hd, hb⟩ := List.forall_mem_append.mp hd
    rw [number_snoc] at h ⊢
    rw [version_append_singleton]
    exact toInt_version_digit (hb b (by simp)) (ih hd (by omega)) h

/-! ### Where the digits of a version number are read -/

section Reading

variable {v w : Int32} {m u p d : Bytes} {b : UInt8}

/-- A beginning of a request that ends in a version number, and the digits so far, one of
which has yet to be read. -/
theorem ReadVersion.exists_split (h : ReadVersion (p ++ [b]) (d ++ [b])) :
    IsDigit b ∧ (d = [] ∨ ReadVersion p d) := by
  obtain ⟨m, u, hm, hu, hd, hp⟩ := h
  refine ⟨hd.2 b (by simp), ?_⟩
  by_cases hnil : d = []
  · exact Or.inl hnil
  · have hd' : DigitText d := ⟨hnil, fun c hc => hd.2 c (by simp [hc])⟩
    refine Or.inr ⟨m, u, hm, hu, hd', ?_⟩
    rcases hp with hp | ⟨e, he, hp⟩
    · rw [← List.append_assoc] at hp
      exact Or.inl (List.append_cancel_right hp)
    · rw [← List.cons_append, ← List.append_assoc] at hp
      exact Or.inr ⟨e, he, List.append_cancel_right hp⟩

/-- **The run up to a digit of a version number**: the digit is added to the number that the
digits before it were read as. -/
theorem exists_scan_of_readVersion (h : ReadVersion (p ++ [b]) (d ++ [b])) :
    ∃ s, scan consume (fresh v w) p = (.indeterminate, s, []) ∧
      evaluated s b = digitValues (version d) b := by
  obtain ⟨m, u, hm, hu, hd, hp⟩ := h
  have hb : is_digit (toInt b) = true := by simpa [is_digit_eq] using hd.2 b (by simp)
  have hd' : d ≠ [] → DigitText d := fun hnil => ⟨hnil, fun c hc => hd.2 c (by simp [hc])⟩
  rcases hp with hp | ⟨e, he, hp⟩
  · rw [← List.append_assoc] at hp
    obtain rfl := List.append_cancel_right hp
    rw [scan_lineStart v w d hm hu]
    by_cases hnil : d = []
    · rw [hnil]
      exact ⟨_, rfl, by rw [evaluated, if_pos hb]; rfl⟩
    · have hscan := scan_major (m := m) (u := u) 0 [] [] (hd' hnil)
      rw [List.append_nil] at hscan
      rw [hscan]
      exact ⟨_, rfl, by rw [evaluated, if_pos hb]⟩
  · rw [← List.cons_append, ← List.append_assoc] at hp
    obtain rfl := List.append_cancel_right hp
    rw [List.append_assoc, scan_lineStart v w _ hm hu, scan_major 0 [] _ he]
    by_cases hnil : d = []
    · rw [hnil]
      exact ⟨_, rfl, by rw [evaluated, if_pos hb]; rfl⟩
    · have hscan := scan_minor (m := m) (u := u) (version e) [] [] (hd' hnil)
      rw [List.append_nil] at hscan
      rw [hscan]
      exact ⟨_, rfl, by rw [evaluated, if_pos hb]⟩

/-- **What a step computes**: nothing, or what adds a digit to a version number. -/
theorem Unfinished.evaluated_eq {s : State × Request} (h : Unfinished v w p s) :
    evaluated s b = [] ∨
      ∃ d, ReadVersion (p ++ [b]) (d ++ [b]) ∧ evaluated s b = digitValues (version d) b := by
  by_cases hb : is_digit (toInt b) = true
  · have hdigit : IsDigit b := by simpa [is_digit_eq] using hb
    cases h with
    | @http_version_major_start m u hm hu =>
      refine Or.inr ⟨[], ⟨m, u, hm, hu, .single hdigit, Or.inl (by simp)⟩, ?_⟩
      rw [evaluated, if_pos hb]
      rfl
    | @http_version_major m u d hm hu hd =>
      refine Or.inr ⟨d, ⟨m, u, hm, hu, hd.snoc hdigit, Or.inl (by simp)⟩, ?_⟩
      rw [evaluated, if_pos hb]
    | @http_version_minor_start m u d hm hu hd =>
      refine Or.inr ⟨[], ⟨m, u, hm, hu, .single hdigit, Or.inr ⟨d, hd, by simp⟩⟩, ?_⟩
      rw [evaluated, if_pos hb]
      rfl
    | @http_version_minor m u d e hm hu hd he =>
      refine Or.inr ⟨e, ⟨m, u, hm, hu, he.snoc hdigit, Or.inr ⟨d, hd, by simp⟩⟩, ?_⟩
      rw [evaluated, if_pos hb]
    | http_version _ _ hx =>
      left
      simp only [List.mem_cons, Prod.mk.injEq, List.not_mem_nil, or_false] at hx
      rcases hx with ⟨rfl, -⟩ | ⟨rfl, -⟩ | ⟨rfl, -⟩ | ⟨rfl, -⟩ | ⟨rfl, -⟩ <;> rfl
    | _ => exact Or.inl rfl
  · left
    obtain ⟨state, req⟩ := s
    cases state <;> simp [evaluated, hb]

end Reading

/-- The values a digit is added with, where the number so far is small. -/
theorem inRange_digitValues {d : Bytes} {b : UInt8} (hd : ∀ c ∈ d, IsDigit c) (hb : IsDigit b)
    (h : number d < 2 ^ 31) :
    (∀ n ∈ digitValues (version d) b, InRange n) ↔ number (d ++ [b]) ≤ maxVersion := by
  obtain ⟨hint, hlow, hhigh⟩ := toInt_of_isDigit b hb
  rw [number_snoc, maxVersion]
  simp only [digitValues, toInt_version hd h, hint, List.mem_cons, List.not_mem_nil, or_false,
    forall_eq_or_imp, forall_eq, InRange]
  omega

/-- **When no evaluation overflows**: exactly if every version number that is read is,
up to each of its digits, at most `INT_MAX - '0'`. -/
theorem noOverflow_iff (v w : Int32) (reads : List Bytes) :
    NoOverflow v w reads ↔
      ∀ p d, p <+: reads.flatten → ReadVersion p d → number d ≤ maxVersion := by
  rw [NoOverflow, stepsChunks_eq]
  constructor
  · intro h p d hp hread
    induction d using List.reverseRecOn generalizing p with
    | nil => exact Nat.zero_le _
    | append_singleton d b ih =>
      obtain ⟨q, rfl⟩ : ∃ q, p = q ++ [b] := by
        obtain ⟨m, u, -, -, -, rfl | ⟨e, -, rfl⟩⟩ := hread
        · exact ⟨lineStart m u ++ d, by simp⟩
        · exact ⟨lineStart m u ++ e ++ chr '.' :: d, by simp⟩
      obtain ⟨hb, hsplit⟩ := hread.exists_split
      obtain ⟨s, hscan, heval⟩ := exists_scan_of_readVersion (v := v) (w := w) hread
      have hsmall : number d ≤ maxVersion := by
        rcases hsplit with rfl | hbefore
        · exact Nat.zero_le _
        · exact ih q ((List.prefix_append q [b]).trans hp) hbefore
      have hdigits : ∀ c ∈ d, IsDigit c := by
        obtain ⟨m, u, -, -, hd, -⟩ := hread
        exact fun c hc => hd.2 c (by simp [hc])
      have hstep := h (s, b) (mem_steps_iff.mpr ⟨q, hp, hscan⟩)
      rw [heval] at hstep
      exact (inRange_digitValues hdigits hb (by unfold maxVersion at hsmall; omega)).mp hstep
  · rintro h ⟨s, b⟩ hmem
    obtain ⟨p, hp, hscan⟩ := mem_steps_iff.mp hmem
    rcases (unfinished_of_scan hscan).evaluated_eq (b := b) with hnil | ⟨d, hread, heval⟩
    · simp [hnil]
    · have hbound := h _ _ hp hread
      obtain ⟨hb, -⟩ := hread.exists_split
      have hdigits : ∀ c ∈ d, IsDigit c := by
        obtain ⟨m, u, -, -, hd, -⟩ := hread
        exact fun c hc => hd.2 c (by simp [hc])
      have hsmall : number d < 2 ^ 31 := by
        rw [number_snoc, maxVersion] at hbound
        omega
      rw [heval]
      exact (inRange_digitValues hdigits hb hsmall).mpr hbound

/-- A version number of ten digits overflows. -/
theorem overflow_of_long_version :
    ¬∀ (v w : Int32) (reads : List Bytes), NoOverflow v w reads := by
  intro h
  exact absurd (h 0 0 [ascii "GET / HTTP/2147483648"]) (by decide +kernel)

end IqLogger.Http
