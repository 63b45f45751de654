/-
  LineBasic.Proofs.NearestDoubles

  The numbers that doubles are, and the double that a number is rounded to.  The bits
  of a double without the sign are its pattern, so what is known of patterns carries
  over to doubles of either sign (`Binary64.nearest_of_roundsTo`).
-/

import LineBasic.Proofs.DoubleArithmetic
import LineBasic.Proofs.Rounding

namespace LineBasic

namespace Double

open Float.Model Binary64

-- ============================================================================
-- Patterns of doubles
-- ============================================================================

section Patterns

variable {x : Float}

theorem toNat_toBits_lt (x : Float) : x.toBits.toNat < 2 ^ 64 := x.toBits.toNat_lt

theorem exponentField_magnitude (x : Float) :
    exponentField (magnitude x) = exponent x.toBits.toBitVec := by
  show x.toBits.toNat % 2 ^ 63 / 2 ^ 52 = x.toBits.toNat / 2 ^ 52 % 2 ^ 11
  omega

theorem fractionField_magnitude (x : Float) :
    fractionField (magnitude x) = mantissa x.toBits.toBitVec := by
  show x.toBits.toNat % 2 ^ 63 % 2 ^ 52 = x.toBits.toNat % 2 ^ 52
  omega

theorem fields_magnitude (x : Float) :
    magnitude x = exponent x.toBits.toBitVec * 2 ^ 52 + mantissa x.toBits.toBitVec := by
  rw [← exponentField_magnitude, ← fractionField_magnitude]
  exact (Nat.div_add_mod' (magnitude x) (2 ^ 52)).symm

/-- Finite are the doubles below infinity, sign apart. -/
theorem isFinite_iff : x.isFinite = true ↔ magnitude x < Binary64.infinity := by
  have hmantissa : mantissa x.toBits.toBitVec < 2 ^ 52 := Nat.mod_lt _ (by decide)
  have hexponent : exponent x.toBits.toBitVec < 2 ^ 11 := Nat.mod_lt _ (by decide)
  have hfields := fields_magnitude x
  have hinfinity : Binary64.infinity = 2047 * 2 ^ 52 := by decide
  have hbound : magnitude x < Binary64.infinity ↔ exponent x.toBits.toBitVec ≠ 2047 := by omega
  rw [hbound]
  refine ⟨exponent_of_isFinite, fun h => ?_⟩
  have hreads := reads_unpack x.toBits.toBitVec
  have hnumber := unpack_ne_notANumber h
  show (UnpackedFloat.unpack Format.binary64 x.toBits.toBitVec).isFinite = true
  generalize UnpackedFloat.unpack Format.binary64 x.toBits.toBitVec = u at hreads hnumber
  cases hreads with
  | infinity _ hones _ => exact absurd hones h
  | notANumber => exact absurd rfl hnumber
  | zero => rfl
  | subnormal => rfl
  | normal => rfl

/-- A double that is a number and not finite is an infinity. -/
theorem magnitude_of_not_finite (hnumber : x.isNaN = false) (h : ¬ x.isFinite = true) :
    magnitude x = Binary64.infinity ∧ x.isInf = true := by
  have hreads := reads_unpack x.toBits.toBitVec
  have hfields := fields_magnitude x
  have hnumber' : (UnpackedFloat.unpack Format.binary64 x.toBits.toBitVec).isNaN = false := hnumber
  have h' : ¬ (UnpackedFloat.unpack Format.binary64 x.toBits.toBitVec).isFinite = true := h
  show _ ∧ (UnpackedFloat.unpack Format.binary64 x.toBits.toBitVec).isInf = true
  generalize UnpackedFloat.unpack Format.binary64 x.toBits.toBitVec = u at hreads hnumber' h'
  cases hreads with
  | infinity _ hones hmantissa =>
    rw [hfields, hones, hmantissa]
    exact ⟨by decide, rfl⟩
  | notANumber => cases hnumber'
  | zero => exact absurd rfl h'
  | subnormal => exact absurd rfl h'
  | normal => exact absurd rfl h'

/-- A finite double is no infinity. -/
theorem isInf_of_isFinite (h : x.isFinite = true) : x.isInf = false := by
  have h' : x.toModel.unpack.isFinite = true := h
  show x.toModel.unpack.isInf = false
  cases hu : x.toModel.unpack with
  | notANumber => rfl
  | infinity s => rw [hu] at h'; cases h'
  | zero s => rfl
  | finite s m e pos => rfl

theorem eq_of_toBits {y : Float} (h : x.toBits = y.toBits) : x = y := by
  obtain ⟨⟨xbits, hx⟩⟩ := x
  obtain ⟨⟨ybits, hy⟩⟩ := y
  obtain rfl : xbits = ybits := h
  rfl

theorem negative_iff : negative x = true ↔ 2 ^ 63 ≤ x.toBits.toNat := decide_eq_true_iff

/-- The pattern and the sign are all there is to a double. -/
theorem toNat_toBits (x : Float) :
    x.toBits.toNat = (if negative x then 2 ^ 63 else 0) + magnitude x := by
  have hlt := toNat_toBits_lt x
  have hmagnitude : magnitude x = x.toBits.toNat % 2 ^ 63 := rfl
  rw [hmagnitude]
  split
  · next h =>
    have hge := negative_iff.1 h
    omega
  · next h =>
    have hlt' := mt negative_iff.2 h
    omega

/-- The sign of a double, read off its bits. -/
theorem signOf_toBits (x : Float) :
    signOf x.toBits.toBitVec = if negative x then .negative else .positive := by
  have hsign : (signOf x.toBits.toBitVec).toBitVec.toNat = x.toBits.toNat / 2 ^ 63 % 2 := by
    rw [signOf, toBitVec_ofBitVec, toNat_unpackSign]
    rfl
  have hlt := toNat_toBits_lt x
  cases hs : signOf x.toBits.toBitVec with
  | negative =>
    have hone : UnpackedFloat.Sign.negative.toBitVec.toNat = 1 := rfl
    rw [hs, hone] at hsign
    rw [if_pos (negative_iff.2 (by omega))]
  | positive =>
    have hzero : UnpackedFloat.Sign.positive.toBitVec.toNat = 0 := rfl
    rw [hs, hzero] at hsign
    rw [if_neg (mt negative_iff.1 (by omega))]

theorem finite_congr {s s' : UnpackedFloat.Sign} {m m' : Nat} {e e' : Int} {pos : 0 < m}
    {pos' : 0 < m'} (hs : s = s') (hm : m = m') (he : e = e') :
    UnpackedFloat.finite s m e pos = .finite s' m' e' pos' := by
  subst hs hm he
  rfl

/-- Doubles that differ in the sign alone are each the opposite of the other. -/
theorem unpack_eq_neg {b c : BitVec 64} (hexponent : exponent b = exponent c)
    (hmantissa : mantissa b = mantissa c) (hsign : signOf b = -signOf c) :
    UnpackedFloat.unpack Format.binary64 b = (UnpackedFloat.unpack Format.binary64 c).neg := by
  have he : @UnpackedFloat.unpackExponent Format.binary64 b
      = @UnpackedFloat.unpackExponent Format.binary64 c := by
    apply BitVec.eq_of_toNat_eq
    rw [toNat_unpackExponent, toNat_unpackExponent, hexponent]
  have hm : @UnpackedFloat.unpackMantissa Format.binary64 b
      = @UnpackedFloat.unpackMantissa Format.binary64 c := by
    apply BitVec.eq_of_toNat_eq
    rw [toNat_unpackMantissa, toNat_unpackMantissa, hmantissa]
  unfold signOf at hsign
  unfold UnpackedFloat.unpack
  dsimp only
  rw [hsign, he]
  by_cases hones : @UnpackedFloat.unpackExponent Format.binary64 c = -1#_
  · rw [if_pos hones, if_pos hones, hm]
    by_cases hzero : @UnpackedFloat.unpackMantissa Format.binary64 c = 0#_
    · rw [if_pos hzero, if_pos hzero]
      rfl
    · rw [if_neg hzero, if_neg hzero]
      rfl
  · rw [if_neg hones, if_neg hones]
    by_cases hnone : @UnpackedFloat.unpackExponent Format.binary64 c = 0#_
    · rw [if_pos hnone, if_pos hnone]
      by_cases hzero : @UnpackedFloat.unpackMantissa Format.binary64 c = 0#_
      · rw [dif_pos (hm.trans hzero), dif_pos hzero]
        rfl
      · rw [dif_neg (hm ▸ hzero), dif_neg hzero]
        exact finite_congr rfl (congrArg BitVec.toNat hm) rfl
    · rw [if_neg hnone, if_neg hnone]
      exact finite_congr rfl (congrArg (fun m => (1#1 ++ m).toNat) hm) rfl

/-- The opposite of a finite double whose sign is clear. -/
theorem neg_eq {y : Float} (hfinite : x.isFinite = true) (hx : negative x = true)
    (hy : negative y = false) (h : magnitude y = magnitude x) : -y = x := by
  have hexponent : exponent x.toBits.toBitVec = exponent y.toBits.toBitVec := by
    rw [← exponentField_magnitude, ← exponentField_magnitude, h]
  have hmantissa : mantissa x.toBits.toBitVec = mantissa y.toBits.toBitVec := by
    rw [← fractionField_magnitude, ← fractionField_magnitude, h]
  have hsign : signOf x.toBits.toBitVec = -signOf y.toBits.toBitVec := by
    rw [signOf_toBits, signOf_toBits, hx, hy]
    rfl
  have hneg : -y = ofUnpacked y.toModel.unpack.neg := rfl
  have hunpack : x.toModel.unpack = y.toModel.unpack.neg :=
    unpack_eq_neg hexponent hmantissa hsign
  rw [hneg, ← hunpack, ofUnpacked_unpack hfinite]

/-- A pattern with the sign clear is that of the double with these bits. -/
theorem toBits_ofBits {bits : Nat} (h : bits < Binary64.infinity) :
    (Float.ofBits (UInt64.ofNat bits)).toBits.toNat = bits := by
  have hinfinity : Binary64.infinity = 2047 * 2 ^ 52 := by decide
  have hbits : (UInt64.ofNat bits).toBitVec.toNat = bits := by
    have hsize : UInt64.size = 2 ^ 64 := rfl
    rw [UInt64.toNat_toBitVec]
    exact UInt64.toNat_ofNat_of_lt' (by omega)
  have hexponent : exponent (UInt64.ofNat bits).toBitVec ≠ 2047 := by
    unfold exponent
    omega
  have hpack : (Float.ofBits (UInt64.ofNat bits)).toBits.toNat = (UnpackedFloat.pack Format.binary64
      (UnpackedFloat.unpack Format.binary64 (UInt64.ofNat bits).toBitVec)).toNat := rfl
  rw [hpack, pack_unpack hexponent, hbits]

/-- There is one double that is not a number. -/
theorem toBits_of_isNaN (h : x.isNaN = true) : x.toBits = 0x7FF8000000000000 := by
  have hunpack : (UnpackedFloat.unpack Format.binary64 x.toBits.toBitVec).isNaN = true := h
  unfold UnpackedFloat.unpack at hunpack
  dsimp only at hunpack
  by_cases hones : @UnpackedFloat.unpackExponent Format.binary64 x.toBits.toBitVec = -1#_
  · rw [if_pos hones] at hunpack
    by_cases hzero : @UnpackedFloat.unpackMantissa Format.binary64 x.toBits.toBitVec = 0#_
    · rw [if_pos hzero] at hunpack
      cases hunpack
    · exact UInt64.toBitVec_inj.1 (x.toModel.valid.eq_packedNaN hones hzero)
  · rw [if_neg hones] at hunpack
    by_cases hnone : @UnpackedFloat.unpackExponent Format.binary64 x.toBits.toBitVec = 0#_
    · rw [if_pos hnone] at hunpack
      by_cases hzero : @UnpackedFloat.unpackMantissa Format.binary64 x.toBits.toBitVec = 0#_
      · rw [dif_pos hzero] at hunpack
        cases hunpack
      · rw [dif_neg hzero] at hunpack
        cases hunpack
    · rw [if_neg hnone] at hunpack
      cases hunpack

/-- Reading the bits of a double gives it back. -/
theorem ofBits_toBits_self (x : Float) : Float.ofBits x.toBits = x := by
  by_cases hfinite : x.isFinite = true
  · exact ofBits_toBits (exponent_of_isFinite hfinite)
  · apply eq_of_toBits
    cases hnan : x.isNaN with
    | true =>
      rw [toBits_of_isNaN hnan]
      decide
    | false =>
      have hbits := toNat_toBits x
      rw [(magnitude_of_not_finite hnan hfinite).1] at hbits
      split at hbits
      · rw [show x.toBits = 0xFFF0000000000000 from UInt64.toNat_inj.1 hbits]
        decide
      · rw [show x.toBits = 0x7FF0000000000000 from UInt64.toNat_inj.1 hbits]
        decide
end Patterns

end Double

-- ============================================================================
-- The numbers that doubles are
-- ============================================================================

namespace Binary64

open Float.Model
open Double (exponent mantissa exponentField_magnitude fractionField_magnitude)

/-- A number with its sign. -/
def signed (minus : Bool) (r : ℚ) : ℚ := if minus then -r else r

theorem signed_zero (minus : Bool) : signed minus 0 = 0 := by
  rw [signed, neg_zero, ite_self]

/-- The number that the parts of a double stand for, if they stand for one. -/
def numberOf : UnpackedFloat → ℚ
  | .finite .positive m e _ => m * 2 ^ e
  | .finite .negative m e _ => -(m * 2 ^ e)
  | _ => 0

/-- The number that a finite double is. -/
def number (x : Float) : ℚ := numberOf x.toModel.unpack

theorem numberOf_finite {minus : Bool} {m : Nat} {e : Int} {pos : 0 < m} :
    numberOf (.finite (if minus then .negative else .positive) m e pos)
      = signed minus (m * 2 ^ e) := by
  cases minus <;> rfl

theorem units_magnitude (x : Float) :
    units (magnitude x) = if exponent x.toBits.toBitVec = 0 then mantissa x.toBits.toBitVec
      else (2 ^ 52 + mantissa x.toBits.toBitVec) * 2 ^ (exponent x.toBits.toBitVec - 1) := by
  rw [← exponentField_magnitude, ← fractionField_magnitude]
  rfl

/-- The number is that of the pattern, with the sign. -/
theorem number_eq {x : Float} (h : x.isFinite = true) :
    number x = signed (negative x) (value (magnitude x)) := by
  have hsign := Double.signOf_toBits x
  have hreads := Double.reads_unpack x.toBits.toBitVec
  have hnone := fun s m e pos => @Double.eq_mantissa_of_unpack x.toBits.toBitVec s m e pos
  have hfinite : (UnpackedFloat.unpack Format.binary64 x.toBits.toBitVec).isFinite = true := h
  unfold value
  rw [units_magnitude]
  show numberOf (UnpackedFloat.unpack Format.binary64 x.toBits.toBitVec) = _
  generalize UnpackedFloat.unpack Format.binary64 x.toBits.toBitVec = u at hreads hnone hfinite
  cases hreads with
  | infinity => cases hfinite
  | notANumber => cases hfinite
  | zero _ hexponent hmantissa =>
    rw [if_pos hexponent, hmantissa, Nat.cast_zero, zero_div, signed_zero]
    rfl
  | subnormal hs hexponent hvalue hunit =>
    subst hs hvalue hunit
    have hpow : (2 : ℚ) ^ (-1074 : Int) = (2 ^ unitBits)⁻¹ := by
      rw [show (-1074 : Int) = -(unitBits : Int) from rfl, zpow_neg, zpow_natCast]
    rw [if_pos hexponent, hsign, numberOf_finite, hpow, div_eq_mul_inv]
  | @normal s m e pos hs hvalue hunit =>
    -- The value of a normal has the implicit bit, so its exponent is not zero.
    have hexponent : exponent x.toBits.toBitVec ≠ 0 := fun hzero => by
      have hm := hnone _ _ _ pos rfl hzero
      have hlt : mantissa x.toBits.toBitVec < 2 ^ 52 := Nat.mod_lt _ (by decide)
      omega
    subst hs hvalue hunit
    obtain ⟨k, hk⟩ := Nat.exists_eq_succ_of_ne_zero hexponent
    have hpow : (2 : ℚ) ^ (((k + 1 : Nat) : Int) - 1075) = 2 ^ k / 2 ^ unitBits := by
      have hdiff : ((k + 1 : Nat) : Int) - 1075 = (k : Int) - (unitBits : Int) := by
        have hunit : (unitBits : Int) = 1074 := rfl
        omega
      rw [hdiff, zpow_sub₀ two_ne_zero, zpow_natCast, zpow_natCast]
    rw [if_neg hexponent, hk, hsign, numberOf_finite, hpow, Nat.succ_sub_one, Nat.cast_mul,
      Nat.cast_pow, Nat.cast_ofNat, mul_div_assoc]

-- ============================================================================
-- Nearest doubles
-- ============================================================================

/-- A number is rounded to a finite double if it is below the bound from which on numbers are
    rounded to infinity, and every other number that is a double is further away from it, or as
    far away and the last bit of the double is clear. -/
def Nearest (r : ℚ) (x : Float) : Prop :=
  |r| < 2 ^ 1024 - 2 ^ 970 ∧
    ∀ y : Float, y.isFinite = true → number y ≠ number x →
      |r - number x| < |r - number y| ∨
        |r - number x| = |r - number y| ∧ x.toBits.toNat % 2 = 0

variable {r : ℚ} {bits : Nat}

/-- The last finite double is half a step below the bound, and infinity half a step above. -/
theorem value_last : value (infinity - 1) + value infinity = 2 * (2 ^ 1024 - 2 ^ 970) := by
  have hpattern : infinity - 1 = 2045 * 2 ^ 52 + (2 ^ 53 - 1) := by decide
  have hspacing : spacing (infinity - 1) = 2 ^ 2045 := by
    rw [hpattern]
    exact (units_pattern (by decide) (.inr (by decide))).2
  have hunits : units infinity = units (infinity - 1) + 2 ^ 2045 := by
    rw [← hspacing]
    exact units_succ (infinity - 1)
  have hpow : (2 : ℚ) ^ 2045 / 2 ^ unitBits = 2 * 2 ^ 970 := by
    rw [div_eq_iff (by positivity), ← pow_succ', ← pow_add]
    rfl
  have hstep : value infinity = value (infinity - 1) + 2 * 2 ^ 970 := by
    rw [value, hunits, Nat.cast_add, Nat.cast_pow, Nat.cast_ofNat, add_div, hpow]
    rfl
  rw [value_infinity] at hstep ⊢
  generalize (2 : ℚ) ^ 1024 = top at hstep ⊢
  generalize (2 : ℚ) ^ 970 = half at hstep ⊢
  linarith

/-- What rounds to a finite double is below the point halfway to infinity. -/
theorem RoundsTo.lt_bound (h : RoundsTo r bits) (hbits : bits < infinity) :
    r < 2 ^ 1024 - 2 ^ 970 := by
  have hvalue := value_strictMono hbits
  have hlast := value_last
  have hinfinity := h infinity (Nat.le_refl _) (Nat.ne_of_gt hbits)
  rw [abs_sub_lt_iff_of_lt hvalue, abs_sub_eq_iff_of_ne hvalue.ne] at hinfinity
  generalize (2 : ℚ) ^ 1024 - 2 ^ 970 = bound at hlast ⊢
  rcases Nat.lt_or_eq_of_le (Nat.le_sub_one_of_lt hbits) with hlt | rfl
  · have hless := value_strictMono hlt
    rcases hinfinity with h | ⟨h, -⟩
    · linarith
    · linarith
  · rcases hinfinity with h | ⟨-, heven⟩
    · linarith
    · exact absurd heven (by decide)

theorem RoundsTo.pos (h : RoundsTo r bits) (hr : 0 ≤ r) (hbits : bits < infinity)
    (hne : bits ≠ 0) : 0 < r := by
  refine lt_of_le_of_ne hr fun hzero => hne ?_
  rw [← hzero, ← value_zero] at h
  exact h.eq (roundsTo_value 0) (Nat.le_of_lt hbits) (Nat.zero_le _)

/-- The distance of two numbers of one sign is that of their sizes. -/
theorem abs_signed_sub_signed (minus : Bool) (r s : ℚ) :
    |signed minus r - signed minus s| = |r - s| := by
  cases minus with
  | false => rfl
  | true =>
    show |-r - -s| = |r - s|
    rw [neg_sub_neg, abs_sub_comm]

/-- The distance of two numbers of different signs is the sum of their sizes. -/
theorem abs_signed_sub_not {minus : Bool} {r s : ℚ} (hr : 0 ≤ r) (hs : 0 ≤ s) :
    |signed minus r - signed (!minus) s| = r + s := by
  cases minus with
  | false =>
    show |r - -s| = r + s
    rw [sub_neg_eq_add, abs_of_nonneg (add_nonneg hr hs)]
  | true =>
    show |-r - s| = r + s
    rw [← neg_add', abs_neg, abs_of_nonneg (add_nonneg hr hs)]

theorem abs_signed (minus : Bool) (r : ℚ) : |signed minus r| = |r| := by
  cases minus with
  | false => rfl
  | true => exact abs_neg r

theorem value_nonneg (bits : Nat) : 0 ≤ value bits := by
  unfold value
  positivity

/-- Rounding without the sign is rounding with it: a double of the other sign is no nearer than the
    one that differs from it in the sign alone. -/
theorem nearest_of_roundsTo {x : Float} (hr : 0 ≤ r) (hx : x.isFinite = true)
    (h : RoundsTo r (magnitude x)) : Nearest (signed (negative x) r) x := by
  have hbits := Double.isFinite_iff.1 hx
  have hparity : x.toBits.toNat % 2 = magnitude x % 2 := by
    have htoBits := Double.toNat_toBits x
    split at htoBits <;> omega
  refine ⟨?_, fun y hy hne => ?_⟩
  · rw [abs_signed, abs_of_nonneg hr]
    exact h.lt_bound hbits
  · have hbits' := Double.isFinite_iff.1 hy
    have hx0 := value_nonneg (magnitude x)
    have hy0 := value_nonneg (magnitude y)
    rw [number_eq hx, number_eq hy] at hne ⊢
    rw [abs_signed_sub_signed, hparity]
    by_cases hsign : negative y = negative x
    · rw [hsign] at hne ⊢
      rw [abs_signed_sub_signed]
      exact h (magnitude y) (Nat.le_of_lt hbits') fun hsame => hne (by rw [hsame])
    · rw [Bool.eq_not.2 hsign] at hne ⊢
      rw [abs_signed_sub_not hr hy0]
      by_cases hsame : magnitude y = magnitude x
      -- The mirror image of `x` is further off, as it is not zero.
      · have hnonzero : magnitude x ≠ 0 := by
          intro hzero
          rw [hsame, hzero, value_zero, signed_zero, signed_zero] at hne
          exact hne rfl
        have hpos := h.pos hr hbits hnonzero
        have hvalue : value 0 < value (magnitude x) :=
          value_strictMono (Nat.pos_of_ne_zero hnonzero)
        rw [value_zero] at hvalue
        rw [hsame]
        exact .inl (abs_lt.2 ⟨by linarith, by linarith⟩)
      -- Any other number of the opposite sign is further off than its own mirror image.
      · have hfurther : |r - value (magnitude y)| ≤ r + value (magnitude y) :=
          abs_le.2 ⟨by linarith, by linarith⟩
        rcases h (magnitude y) (Nat.le_of_lt hbits') hsame with hlt | ⟨heq, heven⟩
        · exact .inl (lt_of_lt_of_le hlt hfurther)
        · rcases lt_or_eq_of_le (heq.trans_le hfurther) with hlt | heq'
          · exact .inl hlt
          · exact .inr ⟨heq', heven⟩

end Binary64

end LineBasic
