import Mathlib.Algebra.GroupWithZero.Nat
import Mathlib.Algebra.Ring.Int.Defs
import Mathlib.Data.Nat.Log

/-!
# Comparisons and conversions of floating-point numbers

Facts about the numbers of the type `Float`, from its logical model: of two numbers that are
not not-a-number, one is at most the other if and only if that one is not less
(`Float.le_iff_not_lt`), a number below an integral one is still below it when its fraction
is dropped (`Float.toUInt64_lt`), and not-a-number comes neither from rounding nor from
multiplying or dividing finite numbers other than zero (`Float.isNaN_ofScientific`,
`Float.isNaN_normalize`).
-/

open Float.Model (UnpackedFloat Format)

namespace Float.Model.UnpackedFloat

/-! ### Order -/

/-- Comparing the other way around. -/
theorem compare_swap (a b : UnpackedFloat) : b.compare a = (a.compare b).map Ordering.swap := by
  have hthen : ∀ (e f : ℤ) (m n : ℕ),
      (compare f e).then (compare n m) = ((compare e f).then (compare m n)).swap := by
    intro e f m n
    rw [Ordering.swap_then, Int.compare_swap, Nat.compare_swap]
  rcases a with ⟨_ | _⟩ | _ | ⟨_ | _⟩ | ⟨_ | _, m, e, hm⟩ <;>
    rcases b with ⟨_ | _⟩ | _ | ⟨_ | _⟩ | ⟨_ | _, n, f, hn⟩ <;>
    first
    | rfl
    | exact congrArg some (hthen e f m n)
    | exact congrArg (fun o => some (Ordering.swap o)) (hthen e f m n)

/-- Only not-a-number cannot be compared. -/
theorem compare_isSome {a b : UnpackedFloat} (ha : a.isNaN = false) (hb : b.isNaN = false) :
    (a.compare b).isSome := by
  rcases a with ⟨_ | _⟩ | _ | ⟨_ | _⟩ | ⟨_ | _, m, e, hm⟩ <;>
    rcases b with ⟨_ | _⟩ | _ | ⟨_ | _⟩ | ⟨_ | _, n, f, hn⟩ <;>
    first
    | rfl
    | (cases hb; done)
    | cases ha

/-- One number is at most another when the other is not less. -/
theorem le_eq_not_lt {a b : UnpackedFloat} (ha : a.isNaN = false) (hb : b.isNaN = false) :
    a.le b = !b.lt a := by
  obtain ⟨o, ho⟩ := Option.isSome_iff_exists.mp (compare_isSome ha hb)
  rw [UnpackedFloat.le, UnpackedFloat.lt, compare_swap a b, ho]
  cases o <;> rfl

/-- A number that is at most another is not greater, not-a-number or not. -/
theorem not_lt_of_le {a b : UnpackedFloat} (h : a.le b) : b.lt a = false := by
  rw [UnpackedFloat.le] at h
  rw [UnpackedFloat.lt, compare_swap a b]
  rcases hcompare : a.compare b with _ | o
  · rfl
  · rw [hcompare] at h
    cases o <;> first | rfl | cases h

/-- A number is finite when it is neither infinite nor not-a-number. -/
theorem isFinite_eq (a : UnpackedFloat) : a.isFinite = (!a.isNaN && !a.isInf) := by
  cases a <;> rfl

/-- A number between a finite one and another is finite. -/
theorem isFinite_of_le_of_lt {a b c : UnpackedFloat} (ha : a.isFinite) (hab : a.le b)
    (hbc : b.lt c) :
    b.isFinite := by
  rcases b with ⟨_ | _⟩ | _ | _ | _
  case infinity.negative =>
    rcases a with ⟨_ | _⟩ | _ | _ | ⟨_ | _, _⟩ <;> first | (cases ha; done) | cases hab
  case infinity.positive => rcases c with ⟨_ | _⟩ | _ | _ | _ <;> cases hbc
  case notANumber => cases hbc
  case zero => rfl
  case finite => rfl

/-! ### Packing -/

/-- Components stand for a finite number, unless the exponent is the one of infinity. -/
theorem isFinite_unpack_packComponents (s : Sign) {e : BitVec 11} (m : BitVec 52)
    (he : e ≠ (-1#11)) :
    (unpack Format.binary64 (packComponents Format.binary64 s e m)).isFinite := by
  delta unpack
  dsimp only
  rw [if_neg fun hones => he (unpackExponent_packComponents.symm.trans hones)]
  by_cases hzero : unpackExponent (packComponents Format.binary64 s e m) = 0#_
  · rw [if_pos hzero]
    by_cases hmantissa : unpackMantissa (packComponents Format.binary64 s e m) = 0#_
    · rw [dif_pos hmantissa]
      rfl
    · rw [dif_neg hmantissa]
      rfl
  · rw [if_neg hzero]
    rfl

/-- A number is packed as infinity when its exponent is too large. -/
theorem unpack_pack_finite (s : Sign) (m : ℕ) (e : ℤ) (hm : 0 < m) :
    (unpack Format.binary64 (pack Format.binary64 (.finite s m e hm)) = .infinity s ∧ 971 < e) ∨
      (unpack Format.binary64 (pack Format.binary64 (.finite s m e hm))).isFinite := by
  delta pack
  dsimp only
  split_ifs with hlarge
  · have hbias : (Format.binary64.exponentBias : ℤ) = 1023 := rfl
    rw [hbias] at hlarge
    refine Or.inl ⟨by cases s <;> rfl, ?_⟩
    change 2 ^ 11 ≤ (e + 1023 + 52).toNat + 1 at hlarge
    omega
  · refine Or.inr (isFinite_unpack_packComponents s _ fun he => ?_)
    have htoNat := congrArg BitVec.toNat he
    rw [BitVec.toNat_ofNat] at htoNat
    change _ % 2 ^ 11 = 2047 at htoNat
    omega
  · exact Or.inr (isFinite_unpack_packComponents s _ (by decide))

/-- Packing makes no number not-a-number. -/
theorem isNaN_unpack_pack {a : UnpackedFloat} (ha : a.isNaN = false) :
    (unpack Format.binary64 (pack Format.binary64 a)).isNaN = false := by
  have hfinite : ∀ {b : UnpackedFloat}, b.isFinite → b.isNaN = false := by
    intro b hb
    rw [isFinite_eq, Bool.and_eq_true] at hb
    simpa using hb.1
  cases a with
  | notANumber => cases ha
  | infinity s => cases s <;> rfl
  | zero s => exact hfinite (isFinite_unpack_packComponents s 0 (by decide))
  | finite s m e hm =>
    rcases unpack_pack_finite s m e hm with ⟨hinfinity, -⟩ | h
    · rw [hinfinity]
      rfl
    · exact hfinite h

/-- The mantissa and the exponent of a finite number have bounds. -/
theorem bounds_of_unpack {b : BitVec Format.binary64.numBits} {s : Sign} {m : ℕ} {e : ℤ}
    {hm : 0 < m} (h : unpack Format.binary64 b = .finite s m e hm) : m < 2 ^ 53 ∧ e ≤ 971 := by
  delta unpack at h
  dsimp only at h
  have hmantissa := (@unpackMantissa Format.binary64 b).isLt
  have hexponent := (@unpackExponent Format.binary64 b).isLt
  change _ < 2 ^ 52 at hmantissa
  change _ < 2 ^ 11 at hexponent
  have hbias : (Format.binary64.exponentBias : ℤ) = 1023 := rfl
  by_cases hones : @unpackExponent Format.binary64 b = -1#_
  · rw [if_pos hones] at h
    by_cases hmantissa : @unpackMantissa Format.binary64 b = 0#_
    · rw [if_pos hmantissa] at h
      cases h
    · rw [if_neg hmantissa] at h
      cases h
  · rw [if_neg hones] at h
    by_cases hzero : @unpackExponent Format.binary64 b = 0#_
    · -- a number below the normal ones
      rw [if_pos hzero] at h
      by_cases hmantissa' : @unpackMantissa Format.binary64 b = 0#_
      · rw [dif_pos hmantissa'] at h
        cases h
      · rw [dif_neg hmantissa'] at h
        obtain ⟨-, rfl, rfl⟩ := UnpackedFloat.finite.inj h
        refine ⟨by omega, ?_⟩
        rw [hzero, hbias]
        decide
    · rw [if_neg hzero] at h
      obtain ⟨-, rfl, rfl⟩ := UnpackedFloat.finite.inj h
      have hne : (@unpackExponent Format.binary64 b).toNat ≠ 2047 := fun hc =>
        hones (BitVec.eq_of_toNat_eq hc)
      refine ⟨BitVec.isLt _, ?_⟩
      rw [hbias]
      change _ - ((1023 : ℤ) + 52) ≤ 971
      omega

/-- A number is still finite when it is negated. -/
theorem isFinite_unpack_pack_neg (b : BitVec Format.binary64.numBits)
    (hb : (unpack Format.binary64 b).isFinite) :
    (unpack Format.binary64 (pack Format.binary64 (unpack Format.binary64 b).neg)).isFinite := by
  cases ha : unpack Format.binary64 b with
  | notANumber =>
    rw [ha] at hb
    cases hb
  | infinity s =>
    rw [ha] at hb
    cases hb
  | zero s => exact isFinite_unpack_packComponents _ 0 (by decide)
  | finite s m e hm =>
    obtain ⟨-, he⟩ := bounds_of_unpack ha
    rcases unpack_pack_finite (-s) m e hm with ⟨-, hlarge⟩ | h
    · omega
    · exact h

/-! ### Operations -/

theorem isNaN_roundWithAccuracy (spec : Format) (s : Sign) (m : ℕ) (e : ℤ) (accuracy : Accuracy) :
    (roundWithAccuracy spec s m e accuracy).isNaN = false := by
  have hcases : ∀ (n : ℕ) (f : ℤ),
      (if h : n = 0 then zero s else finite s n f (Nat.pos_of_ne_zero h)).isNaN = false := by
    intro n f
    by_cases hn : n = 0
    · rw [dif_pos hn]
      rfl
    · rw [dif_neg hn]
      rfl
  exact hcases _ _

/-- Rounding a finite number makes it not not-a-number. -/
theorem isNaN_normalize (spec : Format) (m e : ℤ) (s : Sign) :
    (normalize spec m e s).isNaN = false := by
  rw [normalize]
  split
  · exact isNaN_roundWithAccuracy _ _ _ _ _
  · rfl
  · exact isNaN_roundWithAccuracy _ _ _ _ _

theorem isNaN_ofScientific (spec : Format) (m : ℕ) (e : ℤ) :
    (ofScientific spec m e).isNaN = false := by
  rw [ofScientific]
  by_cases hm : m = 0
  · rw [dif_pos hm]
    rfl
  · rw [dif_neg hm]
    by_cases hlarge : e > 2 ^ spec.exponentBits
    · rw [if_pos hlarge]
      rfl
    · rw [if_neg hlarge]
      by_cases hsmall : e < -((2 ^ spec.exponentBits : ℤ) + m.log2)
      · rw [if_pos hsmall]
        rfl
      · rw [if_neg hsmall]
        by_cases he : 0 ≤ e
        · rw [if_pos he]
          exact isNaN_roundWithAccuracy _ _ _ _ _
        · rw [if_neg he]
          exact isNaN_roundWithAccuracy _ _ _ _ _

/-! ### Integers -/

theorem mantissa_shiftRight (em : ExtendedMantissa) (k : ℕ) :
    (em >>> k).mantissa = em.mantissa / 2 ^ k := by
  induction k with
  | zero =>
    rw [Nat.pow_zero, Nat.div_one]
    rfl
  | succ k ih =>
    change (em >>> k).mantissa / 2 = _
    rw [ih, Nat.div_div_eq_div_mul, Nat.pow_succ]

theorem roundedMantissa_le (em : ExtendedMantissa) : em.roundedMantissa ≤ em.mantissa + 1 := by
  obtain ⟨m, _ | _, _ | _⟩ := em
  · exact Nat.le_succ m
  · exact Nat.le_succ m
  · exact Nat.add_le_add_left (Nat.le_of_lt_succ (Nat.mod_lt m (by decide))) m
  · exact Nat.le_refl _

theorem targetExponent_binary64 (t : ℤ) : Format.binary64.targetExponent t = max (t - 53) (-1074) :=
  rfl

theorem log2_mono {m n : ℕ} (h : m ≤ n) : m.log2 ≤ n.log2 := by
  rw [Nat.log2_eq_log_two, Nat.log2_eq_log_two]
  exact Nat.log_mono_right h

/-- The exponent is at most the one before or the one that is asked for. -/
theorem shiftToTargetExponent_snd_le {m : ℕ} {e bound : ℤ} {accuracy : Accuracy} (he : e ≤ bound)
    (hm : m.log2 + 1 + e - 53 ≤ bound) (hbound : -1074 ≤ bound) :
    (shiftToTargetExponent Format.binary64 m e accuracy).2 ≤ bound := by
  change e + ((Format.binary64.targetExponent (totalExponent m e) - e).toNat : ℤ) ≤ bound
  rw [targetExponent_binary64, totalExponent]
  omega

theorem mantissa_ofMantissaAndAccuracy (m : ℕ) (accuracy : Accuracy) :
    (ExtendedMantissa.ofMantissaAndAccuracy m accuracy).mantissa = m := by
  rcases accuracy with _ | _ | _ | _ <;> rfl

/-- What is rounded is finite when the exponent stays small. -/
theorem isFinite_unpack_pack_roundWithAccuracy (s : Sign) {m : ℕ} {e : ℤ}
    {accuracy : Accuracy} (bound : ℤ)
    (he : e ≤ bound) (hm : m.log2 + 1 + e - 53 ≤ bound)
    (hm' : (m + 1).log2 + 1 + bound - 53 ≤ 971)
    (hbound : -1074 ≤ bound ∧ bound ≤ 971) :
    (unpack Format.binary64
      (pack Format.binary64 (roundWithAccuracy Format.binary64 s m e accuracy))).isFinite := by
  have hcases : ∀ (n : ℕ) (f : ℤ), f ≤ 971 → (unpack Format.binary64 (pack Format.binary64
      (if h : n = 0 then zero s else finite s n f (Nat.pos_of_ne_zero h)))).isFinite := by
    intro n f hf
    by_cases hn : n = 0
    · rw [dif_pos hn]
      exact isFinite_unpack_packComponents s 0 (by decide)
    · rw [dif_neg hn]
      rcases unpack_pack_finite s n f (Nat.pos_of_ne_zero hn) with ⟨-, hlarge⟩ | h
      · omega
      · exact h
  -- the mantissa is shifted once before it is rounded, and once after
  have hfirst : (shiftToTargetExponent Format.binary64 m e accuracy).2 ≤ bound :=
    shiftToTargetExponent_snd_le he hm hbound.1
  have hmantissa : (shiftToTargetExponent Format.binary64 m e accuracy).1.mantissa ≤ m := by
    refine Nat.le_trans (Nat.le_of_eq (mantissa_shiftRight _ _)) ?_
    rw [mantissa_ofMantissaAndAccuracy]
    exact Nat.div_le_self _ _
  have hrounded : (shiftToTargetExponent Format.binary64 m e accuracy).1.roundedMantissa ≤ m + 1 :=
    Nat.le_trans (roundedMantissa_le _) (Nat.succ_le_succ hmantissa)
  have hlog := log2_mono hrounded
  have hsecond : (shiftToTargetExponent Format.binary64
      (shiftToTargetExponent Format.binary64 m e accuracy).1.roundedMantissa
      (shiftToTargetExponent Format.binary64 m e accuracy).2 .exact).2 ≤ 971 :=
    shiftToTargetExponent_snd_le (by omega) (by omega) (by decide)
  exact hcases _ _ hsecond

/-- **An integer of 64 bits is finite.** -/
theorem isFinite_unpack_pack_round (s : Sign) {m : ℕ} (hm : m ≤ 2 ^ 64) :
    (unpack Format.binary64 (pack Format.binary64 (round Format.binary64 s m 0))).isFinite := by
  have hlog : m.log2 ≤ 64 := by
    have h := log2_mono hm
    rwa [Nat.log2_two_pow] at h
  have hshift : (0 - Format.binary64.targetExponent (totalExponent m 0)).toNat ≤ 52 := by
    rw [targetExponent_binary64, totalExponent]
    omega
  generalize hk : (0 - Format.binary64.targetExponent (totalExponent m 0)).toNat = k at hshift
  have hround : round Format.binary64 s m 0 =
      roundWithAccuracy Format.binary64 s (m <<< k) (0 - k) .exact := by
    rw [← hk]
    rfl
  have hsize : m <<< k + 1 ≤ 2 ^ 117 := by
    rw [Nat.shiftLeft_eq]
    have hpow : 2 ^ k ≤ 2 ^ 52 := Nat.pow_le_pow_right (by decide) hshift
    calc m * 2 ^ k + 1 ≤ 2 ^ 64 * 2 ^ 52 + 1 := Nat.succ_le_succ (Nat.mul_le_mul hm hpow)
      _ ≤ 2 ^ 117 := by decide
  have hlog' : (m <<< k + 1).log2 ≤ 117 := by
    have h := log2_mono hsize
    rwa [Nat.log2_two_pow] at h
  have hlog'' : (m <<< k).log2 ≤ 117 := Nat.le_trans (log2_mono (Nat.le_succ _)) hlog'
  rw [hround]
  exact isFinite_unpack_pack_roundWithAccuracy s 118 (by omega) (by omega) (by omega)
    (by decide)

/-- The quotient of two finite numbers is rounded. -/
theorem div_finite (spec : Format) (s₁ s₂ : Sign) {m₁ m₂ : ℕ} (e₁ e₂ : ℤ) (hm₁ : 0 < m₁)
    (hm₂ : 0 < m₂) : div spec (.finite s₁ m₁ e₁ hm₁) (.finite s₂ m₂ e₂ hm₂) =
      roundWithAccuracy spec (s₁ / s₂) (divCore spec m₁ e₁ m₂ e₂).1 (divCore spec m₁ e₁ m₂ e₂).2.1
        (divCore spec m₁ e₁ m₂ e₂).2.2 :=
  rfl

/-- **A quotient is finite** when what is divided is, and what it is divided by is large enough. -/
theorem isFinite_unpack_pack_div {a : UnpackedFloat} {b : BitVec Format.binary64.numBits}
    (hb : unpack Format.binary64 b = a) (ha : a.isFinite) {s : Sign} {m : ℕ} {e : ℤ} (hm : 0 < m)
    (hbits : m.log2 = 52) (hlarge : -45 ≤ e) :
    (unpack Format.binary64
      (pack Format.binary64 (div Format.binary64 a (.finite s m e hm)))).isFinite := by
  rcases a with _ | s₁ | s₁ | ⟨s₁, m₁, e₁, hm₁⟩
  · cases ha
  · cases ha
  · exact isFinite_unpack_packComponents _ 0 (by decide)
  · obtain ⟨hm₁', he₁⟩ := bounds_of_unpack hb
    have hlog₁ : m₁.log2 < 53 := (Nat.log2_lt (Nat.ne_of_gt hm₁)).mpr hm₁'
    have htwo : 2 ^ 52 ≤ m := by
      have h := Nat.log2_self_le (Nat.ne_of_gt hm)
      rwa [hbits] at h
    rw [div_finite, divCore]
    dsimp only
    rw [targetExponent_binary64, totalExponent, totalExponent, hbits]
    have hcast : (m₁.log2 : ℤ) + 1 + e₁ - (((52 : ℕ) : ℤ) + 1 + e) - 53 =
        m₁.log2 + e₁ - e - 105 := by omega
    rw [hcast]
    generalize hte : min (e₁ - e) (max ((m₁.log2 : ℤ) + e₁ - e - 105) (-1074)) = target
    generalize hk : (e₁ - e - target).toNat = k
    -- the quotient has 55 bits at most
    have hquotient : m₁ <<< k / m < 2 ^ 54 := by
      have hbelow : m₁ < 2 ^ (m₁.log2 + 1) := Nat.lt_log2_self
      rw [Nat.shiftLeft_eq]
      refine Nat.div_lt_of_lt_mul ?_
      calc m₁ * 2 ^ k < 2 ^ (m₁.log2 + 1) * 2 ^ k :=
            Nat.mul_lt_mul_of_pos_right hbelow (Nat.two_pow_pos k)
        _ = 2 ^ (m₁.log2 + 1 + k) := (Nat.pow_add ..).symm
        _ ≤ 2 ^ 106 := Nat.pow_le_pow_right (by decide) (by omega)
        _ = 2 ^ 52 * 2 ^ 54 := by decide
        _ ≤ m * 2 ^ 54 := Nat.mul_le_mul_right _ htwo
    have hlog : (m₁ <<< k / m).log2 ≤ 54 := by
      have h := log2_mono (Nat.le_of_lt hquotient)
      rwa [Nat.log2_two_pow] at h
    have hlog' : (m₁ <<< k / m + 1).log2 ≤ 54 := by
      have h := log2_mono (Nat.succ_le_of_lt hquotient)
      rwa [Nat.log2_two_pow] at h
    have htarget : target ≤ 963 := by
      rw [← hte]
      exact (min_le_right _ _).trans (max_le (by omega) (by decide))
    exact isFinite_unpack_pack_roundWithAccuracy _ 965 (by omega) (by omega) (by omega) (by decide)

/-! ### Dropping the fraction -/

/-- The whole part of a finite number. -/
theorem toInt_finite {low high : ℤ} {s : Sign} {m : ℕ} {e : ℤ} {hm : 0 < m} (he : e ≤ 0) :
    toInt low high (.finite s m e hm) = s.apply (m / 2 ^ (-e).toNat : ℕ) := by
  have hdown : (e - 0).toNat = 0 := by omega
  have hup : (0 - (e - (0 : ℕ))).toNat = (-e).toNat := by omega
  change roundToInt s m e = _
  rw [roundToInt]
  simp only [decreaseExponent, shiftToExponent, mantissa_shiftRight,
    ExtendedMantissa.ofMantissaAndAccuracy]
  rw [hdown, hup, Nat.shiftLeft_zero]

/-- A negative number has no positive whole part. -/
theorem toInt_finite_negative_le {low high : ℤ} {m : ℕ} {e : ℤ} {hm : 0 < m} :
    toInt low high (.finite .negative m e hm) ≤ 0 := by
  change roundToInt .negative m e ≤ 0
  rw [roundToInt]
  simp only [Sign.apply]
  omega

/-- **A number below an integral one** stays below it when its fraction is dropped; the
integral one is given by a mantissa of 53 bits. -/
theorem toInt_lt {a : UnpackedFloat} {n k : ℕ} {hn : 0 < n * 2 ^ k} {low high : ℤ} (hlow : low < n)
    (hmantissa : ∀ s m e hm, a = .finite s m e hm → m < 2 ^ 53) (hfull : 2 ^ 52 ≤ n * 2 ^ k)
    (h : a.lt (.finite .positive (n * 2 ^ k) (-k) hn)) : a.toInt low high < n := by
  have hpos : 0 < n := Nat.pos_of_mul_pos_right hn
  rw [UnpackedFloat.lt, beq_iff_eq] at h
  rcases a with ⟨_ | _⟩ | _ | _ | ⟨_ | _, m, e, hm⟩
  case infinity.negative => exact hlow
  case infinity.positive => cases h
  case notANumber => cases h
  case zero => exact Int.natCast_pos.mpr hpos
  case finite.negative =>
    exact Int.lt_of_le_of_lt toInt_finite_negative_le (Int.natCast_pos.mpr hpos)
  case finite.positive =>
    have h : (compare e (-k)).then (compare m (n * 2 ^ k)) = .lt := Option.some.inj h
    rw [Ordering.then_eq_lt, Int.compare_eq_lt, Int.compare_eq_eq, Nat.compare_eq_lt] at h
    have hm53 := hmantissa _ _ _ _ rfl
    have hexponent : e ≤ 0 := by omega
    rw [toInt_finite hexponent]
    change ((m / 2 ^ (-e).toNat : ℕ) : ℤ) < n
    rw [Int.ofNat_lt, Nat.div_lt_iff_lt_mul (Nat.two_pow_pos _)]
    rcases h with hlt | ⟨rfl, hlt⟩
    · -- the exponent is smaller, and the mantissa is at most twice as large
      have hpow : 2 ^ (k + 1) ≤ 2 ^ (-e).toNat := Nat.pow_le_pow_right (by decide) (by omega)
      calc m < 2 ^ 53 := hm53
        _ = 2 ^ 52 * 2 := by decide
        _ ≤ n * 2 ^ k * 2 := Nat.mul_le_mul_right 2 hfull
        _ = n * 2 ^ (k + 1) := by rw [Nat.pow_succ, Nat.mul_assoc]
        _ ≤ n * 2 ^ (-e).toNat := Nat.mul_le_mul_left n hpow
    · have hk : (-(-(k : ℤ))).toNat = k := by omega
      rwa [hk]

end Float.Model.UnpackedFloat

namespace Float

variable {x y : Float}

theorem lt_iff_unpack : x < y ↔ x.toModel.unpack.lt y.toModel.unpack := decide_eq_true_iff

theorem le_iff_unpack : x ≤ y ↔ x.toModel.unpack.le y.toModel.unpack := decide_eq_true_iff

/-- **Of two numbers, one is at most the other when that one is not less.** -/
theorem le_iff_not_lt (hx : x.isNaN = false) (hy : y.isNaN = false) : x ≤ y ↔ ¬y < x := by
  rw [le_iff_unpack, lt_iff_unpack, UnpackedFloat.le_eq_not_lt hx hy]
  simp

theorem not_lt_of_le (h : x ≤ y) : ¬y < x := by
  rw [lt_iff_unpack, UnpackedFloat.not_lt_of_le (le_iff_unpack.mp h)]
  exact Bool.false_ne_true

theorem isFinite_iff : x.isFinite ↔ x.isNaN = false ∧ x.isInf = false := by
  have h : x.isFinite = (!x.isNaN && !x.isInf) := UnpackedFloat.isFinite_eq _
  rw [h, Bool.and_eq_true, Bool.not_eq_true', Bool.not_eq_true']

/-- A number between a finite one and another is finite. -/
theorem isFinite_of_le_of_lt {low high : Float} (hlow : low.isFinite) (h : low ≤ x)
    (h' : x < high) :
    x.isFinite :=
  UnpackedFloat.isFinite_of_le_of_lt hlow (le_iff_unpack.mp h) (lt_iff_unpack.mp h')

theorem isFinite_neg (h : x.isFinite) : (-x).isFinite :=
  UnpackedFloat.isFinite_unpack_pack_neg x.toModel.toBits.toBitVec h

/-- **A number below an integral one** stays below it when its fraction is dropped. -/
theorem toUInt64_lt {n k : ℕ} {hn : 0 < n * 2 ^ k} (h : x < y)
    (hy : y.toModel.unpack = .finite .positive (n * 2 ^ k) (-k) hn) (hfull : 2 ^ 52 ≤ n * 2 ^ k)
    (hsize : n < UInt64.size) : x.toUInt64.toNat < n := by
  rw [lt_iff_unpack, hy] at h
  have hpos : 0 < n := Nat.pos_of_mul_pos_right hn
  have hlt : x.toModel.unpack.toInt 0 (UInt64.size - 1) < n :=
    UnpackedFloat.toInt_lt (Int.natCast_pos.mpr hpos)
      (fun s m e hm ha => (UnpackedFloat.bounds_of_unpack ha).1) hfull h
  change (UInt64.ofNatClamp (x.toModel.unpack.toInt 0 (UInt64.size - 1)).toNat).toNat < n
  have hnat : (x.toModel.unpack.toInt 0 (UInt64.size - 1)).toNat < n := by omega
  rw [UInt64.ofNatClamp, dif_pos (Nat.lt_trans hnat hsize)]
  exact hnat

/-- The number of a numeral is no not-a-number, however it is rounded. -/
theorem isNaN_ofScientific (m : ℕ) (e : ℤ) : (Float.ofModel (.ofScientific m e)).isNaN = false :=
  UnpackedFloat.isNaN_unpack_pack (UnpackedFloat.isNaN_ofScientific _ m e)

theorem isNaN_normalize (m e : ℤ) (s : UnpackedFloat.Sign) :
    (Float.ofModel (.pack (.normalize Format.binary64 m e s))).isNaN = false :=
  UnpackedFloat.isNaN_unpack_pack (UnpackedFloat.isNaN_normalize _ m e s)

/-- **An integer of 64 bits is finite as a `Float`.** -/
theorem isFinite_ofInt {n : ℤ} (h : -2 ^ 64 ≤ n ∧ n ≤ 2 ^ 64) :
    (Float.ofModel (.ofInt n)).isFinite := by
  have hcases : ∀ o, compare n 0 = o → (UnpackedFloat.unpack Format.binary64
      (UnpackedFloat.pack Format.binary64 (match o with
        | .lt => .round Format.binary64 .negative (-n).toNat 0
        | .eq => .zero .positive
        | .gt => .round Format.binary64 .positive n.toNat 0))).isFinite := by
    intro o _
    cases o with
    | lt => exact UnpackedFloat.isFinite_unpack_pack_round .negative (by omega)
    | eq => exact UnpackedFloat.isFinite_unpack_packComponents .positive 0 (by decide)
    | gt => exact UnpackedFloat.isFinite_unpack_pack_round .positive (by omega)
  exact hcases _ rfl

/-- **A quotient is finite**, in terms of how the divisor is stored. -/
theorem isFinite_div {x y : Float} (hx : x.isFinite) {s : UnpackedFloat.Sign} {m : ℕ} {e : ℤ}
    {hm : 0 < m} (hy : y.toModel.unpack = .finite s m e hm) (hbits : m.log2 = 52)
    (hlarge : -45 ≤ e) : (x / y).isFinite := by
  have h := UnpackedFloat.isFinite_unpack_pack_div rfl hx hm hbits hlarge (s := s)
  rw [← hy] at h
  exact h

end Float
