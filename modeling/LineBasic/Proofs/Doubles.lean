/-
  LineBasic.Proofs.Doubles

  Doubles and their bits.  The 64 bits of a double are a sign, eleven bits of exponent
  and 52 bits of mantissa; what a double is can be read off these fields, and apart
  from the two zeros and what is not a number, doubles that are equal have the same
  bits.
-/

import Mathlib.Algebra.Group.Nat.Defs

namespace LineBasic.Double

open Float.Model Float.Model.UnpackedFloat

-- ============================================================================
-- Fields
-- ============================================================================

/-- The sign, as a bit. -/
def sign (b : BitVec 64) : Nat := b.toNat / 2 ^ 63 % 2

/-- The exponent, as it is written in the bits. -/
def exponent (b : BitVec 64) : Nat := b.toNat / 2 ^ 52 % 2 ^ 11

/-- The mantissa, as it is written in the bits. -/
def mantissa (b : BitVec 64) : Nat := b.toNat % 2 ^ 52

variable {b c : BitVec 64}

theorem toNat_unpackSign : (@unpackSign Format.binary64 b).toNat = sign b := by
  have hbits : (@unpackSign Format.binary64 b).toNat = (b.extractLsb 63 63).toNat := rfl
  rw [hbits, BitVec.extractLsb_toNat, Nat.shiftRight_eq_div_pow]
  rfl

theorem toNat_unpackExponent : (@unpackExponent Format.binary64 b).toNat = exponent b := by
  have hbits : (@unpackExponent Format.binary64 b).toNat = (b.extractLsb 62 52).toNat := rfl
  rw [hbits, BitVec.extractLsb_toNat, Nat.shiftRight_eq_div_pow]
  rfl

theorem toNat_unpackMantissa : (@unpackMantissa Format.binary64 b).toNat = mantissa b := by
  have hbits : (@unpackMantissa Format.binary64 b).toNat = (b.extractLsb 51 0).toNat := rfl
  rw [hbits, BitVec.extractLsb_toNat]
  rfl

/-- The fields determine the bits. -/
theorem eq_of_fields (hsign : sign b = sign c) (hexponent : exponent b = exponent c)
    (hmantissa : mantissa b = mantissa c) : b = c := by
  have hb := b.isLt
  have hc := c.isLt
  unfold sign at hsign
  unfold exponent at hexponent
  unfold mantissa at hmantissa
  apply BitVec.eq_of_toNat_eq
  omega

-- ============================================================================
-- What a double is
-- ============================================================================

/-- The sign that a bit stands for. -/
def signOf (b : BitVec 64) : UnpackedFloat.Sign :=
  .ofBitVec (@unpackSign Format.binary64 b)

/-- The sign of a double is its first bit. -/
theorem sign_eq_of_signOf (h : signOf b = signOf c) : sign b = sign c := by
  rw [← toNat_unpackSign, ← toNat_unpackSign]
  have hb := (@unpackSign Format.binary64 b).isLt
  have hc := (@unpackSign Format.binary64 c).isLt
  unfold signOf UnpackedFloat.Sign.ofBitVec at h
  split at h
  · next hpos =>
    split at h
    · next hpos' => rw [hpos, hpos']
    · cases h
  · next hneg =>
    split at h
    · cases h
    · next hneg' =>
      rw [← BitVec.toNat_inj] at hneg hneg'
      have hzero : (0#1).toNat = 0 := rfl
      omega

/-- How the fields of a double say what it is. -/
inductive Reads (b : BitVec 64) : UnpackedFloat → Prop
  | infinity {s : UnpackedFloat.Sign} (sign : s = signOf b) (exponent : exponent b = 2047)
      (mantissa : mantissa b = 0) : Reads b (.infinity s)
  | notANumber : Reads b .notANumber
  | zero {s : UnpackedFloat.Sign} (sign : s = signOf b) (exponent : exponent b = 0)
      (mantissa : mantissa b = 0) : Reads b (.zero s)
  | subnormal {s : UnpackedFloat.Sign} {m : Nat} {e : Int} {pos : 0 < m} (sign : s = signOf b)
      (exponent : exponent b = 0) (value : m = mantissa b) (unit : e = -1074) :
      Reads b (.finite s m e pos)
  | normal {s : UnpackedFloat.Sign} {m : Nat} {e : Int} {pos : 0 < m} (sign : s = signOf b)
      (value : m = 2 ^ 52 + mantissa b) (unit : e = exponent b - 1075) :
      Reads b (.finite s m e pos)

theorem toNat_implicit_append :
    (1#1 ++ @unpackMantissa Format.binary64 b).toNat = 2 ^ 52 + mantissa b := by
  rw [BitVec.toNat_append, ← Nat.shiftLeft_add_eq_or_of_lt (BitVec.isLt _),
    toNat_unpackMantissa]
  rfl

/-- Unpacking reads the three fields of a double, one case for each kind of double. -/
theorem reads_unpack (b : BitVec 64) : Reads b (UnpackedFloat.unpack Format.binary64 b) := by
  have hbias : Format.binary64.exponentBias = 1023 := rfl
  unfold UnpackedFloat.unpack
  dsimp only
  rw [hbias]
  -- An exponent of all ones is kept for infinity and for what is not a number.
  by_cases hones : @unpackExponent Format.binary64 b = -1#_
  · have hexponent : exponent b = 2047 := by
      rw [← toNat_unpackExponent, hones]
      rfl
    rw [if_pos hones]
    by_cases hzero : @unpackMantissa Format.binary64 b = 0#_
    · rw [if_pos hzero]
      refine .infinity rfl hexponent ?_
      rw [← toNat_unpackMantissa, hzero]
      rfl
    · rw [if_neg hzero]
      exact .notANumber
  · rw [if_neg hones]
    -- An exponent of zero means that there is no implicit leading bit.
    by_cases hnone : @unpackExponent Format.binary64 b = 0#_
    · have hexponent : exponent b = 0 := by
        rw [← toNat_unpackExponent, hnone]
        rfl
      rw [if_pos hnone]
      by_cases hzero : @unpackMantissa Format.binary64 b = 0#_
      · rw [dif_pos hzero]
        refine .zero rfl hexponent ?_
        rw [← toNat_unpackMantissa, hzero]
        rfl
      · rw [dif_neg hzero]
        refine .subnormal rfl hexponent toNat_unpackMantissa ?_
        rw [toNat_unpackExponent, hexponent]
        rfl
    · rw [if_neg hnone]
      refine .normal rfl toNat_implicit_append ?_
      rw [toNat_unpackExponent]
      rfl

/-- What a double is, determines its bits, unless it is not a number. -/
theorem eq_of_unpack
    (h : UnpackedFloat.unpack Format.binary64 b = UnpackedFloat.unpack Format.binary64 c)
    (hnumber : UnpackedFloat.unpack Format.binary64 c ≠ .notANumber) : b = c := by
  have hb := reads_unpack b
  have hc := reads_unpack c
  have hmb : mantissa b < 2 ^ 52 := Nat.mod_lt _ (by decide)
  have hmc : mantissa c < 2 ^ 52 := Nat.mod_lt _ (by decide)
  rw [h] at hb
  generalize UnpackedFloat.unpack Format.binary64 c = u at hb hc hnumber
  cases hb with
  | notANumber => exact absurd rfl hnumber
  | infinity hsign hexponent hmantissa =>
    cases hc with
    | infinity hsign' hexponent' hmantissa' =>
      exact eq_of_fields (sign_eq_of_signOf (hsign.symm.trans hsign')) (by omega) (by omega)
  | zero hsign hexponent hmantissa =>
    cases hc with
    | zero hsign' hexponent' hmantissa' =>
      exact eq_of_fields (sign_eq_of_signOf (hsign.symm.trans hsign')) (by omega) (by omega)
  | subnormal hsign hexponent hvalue hunit =>
    -- The value of a subnormal is below the implicit bit, that of a normal is not.
    cases hc with
    | subnormal hsign' hexponent' hvalue' hunit' =>
      exact eq_of_fields (sign_eq_of_signOf (hsign.symm.trans hsign')) (by omega) (by omega)
    | normal hsign' hvalue' hunit' => omega
  | normal hsign hvalue hunit =>
    cases hc with
    | subnormal hsign' hexponent' hvalue' hunit' => omega
    | normal hsign' hvalue' hunit' =>
      exact eq_of_fields (sign_eq_of_signOf (hsign.symm.trans hsign')) (by omega) (by omega)

-- ============================================================================
-- Equality
-- ============================================================================

/-- Signs that compare as equal are equal. -/
theorem eq_of_compare_sign {s t : UnpackedFloat.Sign} (h : compare s t = .eq) : s = t := by
  cases s
  · cases t
    · rfl
    · cases h
  · cases t
    · cases h
    · rfl

theorem eq_of_compare_magnitude {m m' : Nat} {e e' : Int}
    (h : (compare e e').then (compare m m') = .eq) : m = m' ∧ e = e' := by
  obtain ⟨he, hm⟩ := Ordering.then_eq_eq.1 h
  exact ⟨Nat.compare_eq_eq.1 hm, Int.compare_eq_eq.1 he⟩

/-- Numbers that compare equal are the same one, unless they are zeros. -/
theorem eq_of_compare {u v : UnpackedFloat} (h : u.compare v = some .eq)
    (hzero : ∀ s, v ≠ .zero s) : u = v ∧ v ≠ .notANumber := by
  cases u with
  | notANumber => cases h
  | infinity s =>
    cases v with
    | notANumber => cases h
    | infinity t =>
      obtain rfl := eq_of_compare_sign (Option.some.inj h)
      exact ⟨rfl, nofun⟩
    | zero t => exact absurd rfl (hzero t)
    | finite t m e pos => cases s <;> cases h
  | zero s =>
    cases v with
    | notANumber => cases h
    | infinity t => cases t <;> cases h
    | zero t => exact absurd rfl (hzero t)
    | finite t m e pos => cases t <;> cases h
  | finite s m e pos =>
    cases v with
    | notANumber => cases s <;> cases h
    | infinity t => cases s <;> cases t <;> cases h
    | zero t => exact absurd rfl (hzero t)
    | finite t m' e' pos' =>
      -- Signs must agree, and two negative numbers compare the other way round.
      cases s with
      | positive =>
        cases t with
        | negative => cases h
        | positive =>
          obtain ⟨rfl, rfl⟩ := eq_of_compare_magnitude (Option.some.inj h)
          exact ⟨rfl, nofun⟩
      | negative =>
        cases t with
        | positive => cases h
        | negative =>
          obtain ⟨rfl, rfl⟩ :=
            eq_of_compare_magnitude (Ordering.swap_eq_eq.1 (Option.some.inj h))
          exact ⟨rfl, nofun⟩

/-- Doubles that are equal are the same, unless they are zeros. -/
theorem eq_of_beq_of_not_zero {x y : Float} (h : (x == y) = true)
    (hzero : ∀ s, y.toModel.unpack ≠ .zero s) : x = y := by
  obtain ⟨⟨xbits, hx⟩⟩ := x
  obtain ⟨⟨ybits, hy⟩⟩ := y
  have hcompare : (UnpackedFloat.unpack Format.binary64 xbits.toBitVec).compare
      (UnpackedFloat.unpack Format.binary64 ybits.toBitVec) = some .eq := eq_of_beq h
  obtain ⟨hsame, hnumber⟩ := eq_of_compare hcompare hzero
  obtain rfl := UInt64.toBitVec_inj.mp (eq_of_unpack hsame hnumber)
  rfl

theorem eq_one_of_beq {x : Float} (h : (x == 1.0) = true) : x = 1.0 :=
  eq_of_beq_of_not_zero h fun _ => nofun

end LineBasic.Double
