/-
  LineBasic.Proofs.ExactDecimals

  Doubles written out in full.  A finite double is a whole number of units of
  `2 ^ -1074`, hence a decimal number with 1074 places; reading that number gives
  the double back, since what is nearest to a double is the double itself.
-/

import LineBasic.Proofs.Doubles
import LineBasic.Proofs.Numerals

namespace LineBasic

-- ============================================================================
-- Bits and doubles
-- ============================================================================

namespace Double

open Float.Model Float.Model.UnpackedFloat

variable {b : BitVec 64}

/-- The fields of a double, packed, as one number. -/
theorem toNat_packComponents (s : UnpackedFloat.Sign) (e : BitVec 11) (m : BitVec 52) :
    (packComponents Format.binary64 s e m).toNat =
      s.toBitVec.toNat * 2 ^ 63 + e.toNat * 2 ^ 52 + m.toNat := by
  have hbits : (packComponents Format.binary64 s e m).toNat = (s.toBitVec ++ e ++ m).toNat := rfl
  rw [hbits, BitVec.toNat_append, BitVec.toNat_append, ← Nat.shiftLeft_add_eq_or_of_lt e.isLt,
    ← Nat.shiftLeft_add_eq_or_of_lt m.isLt, Nat.shiftLeft_eq, Nat.shiftLeft_eq]
  omega

theorem toBitVec_ofBitVec (v : BitVec 1) : (UnpackedFloat.Sign.ofBitVec v).toBitVec = v := by
  revert v
  decide

/-- Three fields make up the bits they are read from. -/
theorem eq_packComponents {s : UnpackedFloat.Sign} {e : BitVec 11} {m : BitVec 52}
    (hsign : s = signOf b) (hexponent : e.toNat = exponent b) (hmantissa : m.toNat = mantissa b) :
    packComponents Format.binary64 s e m = b := by
  have hs : s.toBitVec.toNat = sign b := by
    rw [← toNat_unpackSign, hsign, signOf, toBitVec_ofBitVec]
  have hb := b.isLt
  apply BitVec.eq_of_toNat_eq
  rw [toNat_packComponents, hs, hexponent, hmantissa]
  unfold sign exponent mantissa
  omega

/-- Only a full exponent field unpacks as no number. -/
theorem unpack_ne_notANumber (h : exponent b ≠ 2047) :
    UnpackedFloat.unpack Format.binary64 b ≠ .notANumber := by
  have hones : @unpackExponent Format.binary64 b ≠ -1#_ := by
    intro hones
    rw [← toNat_unpackExponent, hones] at h
    exact h rfl
  unfold UnpackedFloat.unpack
  dsimp only
  rw [if_neg hones]
  by_cases hsubnormal : @unpackExponent Format.binary64 b = 0#_
  · rw [if_pos hsubnormal]
    by_cases hzero : @unpackMantissa Format.binary64 b = 0#_
    · rw [dif_pos hzero]
      exact UnpackedFloat.noConfusion
    · rw [dif_neg hzero]
      exact UnpackedFloat.noConfusion
  · rw [if_neg hsubnormal]
    exact UnpackedFloat.noConfusion

/-- Unpacking a finite double loses nothing. -/
theorem pack_unpack (h : exponent b ≠ 2047) :
    UnpackedFloat.pack Format.binary64 (UnpackedFloat.unpack Format.binary64 b) = b := by
  have hreads := reads_unpack b
  have hnumber := unpack_ne_notANumber h
  have hm : mantissa b < 2 ^ 52 := Nat.mod_lt _ (by decide)
  have he : exponent b < 2 ^ 11 := Nat.mod_lt _ (by decide)
  generalize UnpackedFloat.unpack Format.binary64 b = u at hreads hnumber
  cases hreads with
  | infinity _ hexponent _ => exact absurd hexponent h
  | notANumber => exact absurd rfl hnumber
  | zero hsign hexponent hmantissa => exact eq_packComponents hsign hexponent.symm hmantissa.symm
  | @subnormal s m e pos hsign hexponent hvalue hunit =>
    -- A subnormal has fewer than 53 bits, which is how packing tells it from a normal.
    have hlog : m.log2 < 52 := (Nat.log2_lt (by omega)).2 (by omega)
    have hbiased : (e + Format.binary64.exponentBias +
        Format.binary64.mantissaBitsWithoutImplicit).toNat = 1 := by
      rw [hunit]
      rfl
    have hwidth : m.log2 + 1 ≠ Format.binary64.mantissaBits := by
      have hbits : Format.binary64.mantissaBits = 53 := rfl
      omega
    unfold UnpackedFloat.pack
    dsimp only
    rw [hbiased, if_neg (by decide), if_neg hwidth]
    exact eq_packComponents hsign hexponent.symm (by simp; omega)
  | @normal s m e pos hsign hvalue hunit =>
    have hlog : m.log2 = 52 := (Nat.log2_eq_iff (by omega)).2 ⟨by omega, by omega⟩
    have hbiased : (e + Format.binary64.exponentBias +
        Format.binary64.mantissaBitsWithoutImplicit).toNat = exponent b := by
      have hbias : (Format.binary64.exponentBias : Int) +
        Format.binary64.mantissaBitsWithoutImplicit = 1075 := rfl
      omega
    unfold UnpackedFloat.pack
    dsimp only
    have hwidth : m.log2 + 1 = Format.binary64.mantissaBits := by
      rw [hlog]
      rfl
    rw [hbiased, if_neg (by simpa using by omega), if_pos hwidth]
    exact eq_packComponents hsign (by simp; omega) (by simp; omega)

/-- The bits of a number are read back as that number. -/
theorem ofBits_toBits {x : Float} (h : exponent x.toBits.toBitVec ≠ 2047) :
    Float.ofBits x.toBits = x := by
  obtain ⟨⟨bits, hbits⟩⟩ := x
  have hpack : UInt64.ofBitVec (UnpackedFloat.pack Format.binary64
      (UnpackedFloat.unpack Format.binary64 bits.toBitVec)) = bits :=
    congrArg UInt64.ofBitVec (pack_unpack h)
  have hsame : ∀ {bits'} {hbits'}, bits' = bits →
      (⟨⟨bits', hbits'⟩⟩ : Float) = ⟨⟨bits, hbits⟩⟩ := by
    rintro _ _ rfl
    rfl
  exact hsame hpack

end Double

-- ============================================================================
-- The double nearest to a double
-- ============================================================================

namespace Binary64

theorem roundHalfEven_mul {q d : Nat} (hd : 0 < d) : roundHalfEven (q * d) d = q := by
  unfold roundHalfEven
  dsimp only
  rw [Nat.mul_mod_left, Nat.mul_div_cancel q hd, if_pos (by omega)]

/-- A finite double is a significand of at most 53 bits, shifted so that the pattern is the
    shift and the significand side by side. -/
theorem exists_significand {bits : Nat} (h : units bits ≠ 0) :
    ∃ q, units bits = q * 2 ^ ((units bits).log2 - 52) ∧
      ((units bits).log2 - 52) * 2 ^ 52 + q = bits := by
  have hfraction : fractionField bits < 2 ^ 52 := Nat.mod_lt _ (by decide)
  have hfields : exponentField bits * 2 ^ 52 + fractionField bits = bits :=
    Nat.div_add_mod' bits (2 ^ 52)
  by_cases hexponent : exponentField bits = 0
  -- Without the implicit bit the units are the fraction, and there is nothing to shift.
  · have hunits : units bits = fractionField bits := if_pos hexponent
    have hlog : (units bits).log2 < 52 := (Nat.log2_lt h).2 (by omega)
    have hshift : (units bits).log2 - 52 = 0 := by omega
    rw [hshift, Nat.pow_zero, Nat.zero_mul]
    rw [hexponent, Nat.zero_mul] at hfields
    exact ⟨fractionField bits, by rw [hunits, Nat.mul_one], hfields⟩
  · have hunits : units bits = (2 ^ 52 + fractionField bits) * 2 ^ (exponentField bits - 1) :=
      if_neg hexponent
    have hlog : (units bits).log2 = 52 + (exponentField bits - 1) := by
      rw [Nat.log2_eq_iff h, hunits, Nat.pow_add, Nat.add_right_comm, Nat.pow_add]
      constructor
      · exact Nat.mul_le_mul_right _ (by omega)
      · exact Nat.mul_lt_mul_of_pos_right (by omega) (Nat.two_pow_pos _)
    have hshift : (units bits).log2 - 52 = exponentField bits - 1 := by omega
    obtain ⟨s, hs⟩ := Nat.exists_eq_succ_of_ne_zero hexponent
    rw [hshift]
    rw [hs, Nat.succ_mul, Nat.add_assoc] at hfields
    rw [hs] at hunits ⊢
    exact ⟨2 ^ 52 + fractionField bits, hunits, hfields⟩

/-- Only the bits of zero stand for nothing. -/
theorem eq_zero_of_units {bits : Nat} (h : units bits = 0) : bits = 0 := by
  have hfields : exponentField bits * 2 ^ 52 + fractionField bits = bits :=
    Nat.div_add_mod' bits (2 ^ 52)
  unfold units at h
  split at h
  · next hexponent => rw [hexponent, Nat.zero_mul, h] at hfields; exact hfields.symm
  · have hpos : 0 < (Nat.pow 2 fractionBits + fractionField bits) * spacing bits :=
      Nat.mul_pos (Nat.add_pos_left (Nat.two_pow_pos _) _) (Nat.two_pow_pos _)
    omega

/-- What is nearest to the value of a double is the double. -/
theorem nearest_units {bits n d : Nat} (hbits : bits < infinity) (hd : 0 < d)
    (hne : units bits ≠ 0) (h : n * Nat.pow 2 unitBits = units bits * d) :
    nearest n d = bits := by
  obtain ⟨q, hq, hpattern⟩ := exists_significand hne
  have hfactor : units bits * d = q * (d * 2 ^ ((units bits).log2 - 52)) := by
    rw [Nat.mul_comm d, ← Nat.mul_assoc, ← hq]
  have hround : roundHalfEven (units bits * d) (d * 2 ^ ((units bits).log2 - 52)) = q := by
    rw [hfactor]
    exact roundHalfEven_mul (Nat.mul_pos hd (Nat.two_pow_pos _))
  unfold nearest fractionBits
  dsimp only
  rw [h, Nat.mul_div_cancel _ hd, Nat.pow_eq, Nat.pow_eq, hround, hpattern]
  exact Nat.min_eq_right (Nat.le_of_lt hbits)

end Binary64

-- ============================================================================
-- Digits
-- ============================================================================

namespace Decimal

theorem ofDigits_digits (n : Nat) : ofDigits (digits n) = n := Nat.ofDigitChars_ten_toDigits

theorem allDigits_digits (n : Nat) : AllDigits (digits n) :=
  fun _ => Nat.isDigit_of_mem_toDigits (by decide) (by decide)

theorem digits_ne_nil (n : Nat) : digits n ≠ [] := Nat.toDigits_ne_nil

/-- The last `k` digits of `n`, zeros in front of it included. -/
def places : Nat → Nat → List Char
  | 0, _ => []
  | k + 1, n => places k (n / 10) ++ [(n % 10).digitChar]

theorem length_places (k n : Nat) : (places k n).length = k := by
  induction k generalizing n with
  | zero => rfl
  | succ k ih => rw [places, List.length_append, ih, List.length_singleton]

/-- Decimal places are digits. -/
theorem allDigits_places (k n : Nat) : AllDigits (places k n) := by
  induction k generalizing n with
  | zero => exact nofun
  | succ k ih =>
    intro c hc
    rcases List.mem_append.1 hc with hc | hc
    · exact ih (n / 10) c hc
    · rw [List.mem_singleton.1 hc, Nat.isDigit_digitChar]
      exact decide_eq_true (Nat.mod_lt n (by decide))

theorem ofDigits_concat (cs : List Char) {n : Nat} (hn : n < 10) :
    ofDigits (cs ++ [n.digitChar]) = 10 * ofDigits cs + n := by
  unfold ofDigits digitValue
  rw [List.foldl_append]
  exact congrArg (10 * _ + ·) (Nat.toNat_digitChar_sub_48_of_lt_ten hn)

/-- Places behind digits, read as one number. -/
theorem ofDigits_append_places (cs : List Char) (k n : Nat) :
    ofDigits (cs ++ places k n) = ofDigits cs * 10 ^ k + n % 10 ^ k := by
  induction k generalizing n with
  | zero => simp [places, Nat.mod_one]
  | succ k ih =>
    have hlast : n % 10 < 10 := Nat.mod_lt n (by decide)
    have hsplit : n % 10 ^ (k + 1) = n % 10 + 10 * (n / 10 % 10 ^ k) := by
      rw [Nat.pow_succ, Nat.mul_comm, Nat.mod_mul]
    rw [places, ← List.append_assoc, ofDigits_concat _ hlast, ih, hsplit, Nat.pow_succ',
      Nat.mul_add, Nat.mul_left_comm 10]
    omega

theorem ratio_of_places {n k : Nat} (hk : 0 < k) :
    (⟨n, -(k : Int)⟩ : Decimal).ratio = (n, Nat.pow 10 k) := by
  have hneg : ¬ 0 ≤ -(k : Int) := by omega
  unfold ratio
  rw [if_neg hneg, Int.neg_neg, Int.toNat_natCast]

end Decimal

-- ============================================================================
-- Doubles in full
-- ============================================================================

namespace Numeral

/-- A finite double whose sign bit is clear. -/
def Unsigned (x : Float) : Prop := x.toBits.toNat < Binary64.infinity

instance (x : Float) : Decidable (Unsigned x) :=
  inferInstanceAs (Decidable (x.toBits.toNat < Binary64.infinity))

/-- The coefficient of a double as a decimal number with 1074 places. -/
def coefficient (x : Float) : Nat :=
  Binary64.units x.toBits.toNat * Nat.pow 5 Binary64.unitBits

/-- A double written out in full. -/
def expansion (x : Float) : List Char :=
  Decimal.digits (coefficient x / Nat.pow 10 Binary64.unitBits) ++
    '.' :: Decimal.places Binary64.unitBits (coefficient x)

/-- Digits, a point and places write a decimal with as many places. -/
theorem writes_places (n k : Nat) :
    Writes (Decimal.digits (n / Nat.pow 10 k) ++ '.' :: Decimal.places k n) ⟨n, -(k : Int)⟩ := by
  have hwrites := Writes.dotted (Decimal.allDigits_digits (n / Nat.pow 10 k))
    (Decimal.digits_ne_nil _) (Decimal.allDigits_places k n)
  rw [Decimal.ofDigits_append_places, Decimal.ofDigits_digits, Decimal.length_places,
    Nat.pow_eq, Nat.div_add_mod'] at hwrites
  exact hwrites

theorem mul_pow_ne_zero {u k : Nat} (hu : u ≠ 0) : u * Nat.pow 5 k ≠ 0 :=
  Nat.mul_ne_zero hu (Nat.ne_of_gt (Nat.pow_pos (by decide)))

theorem pow_ten_pos (k : Nat) : 0 < Nat.pow 10 k := Nat.pow_pos (by decide)

theorem mul_pow_mul_pow (u k : Nat) : u * Nat.pow 5 k * Nat.pow 2 k = u * Nat.pow 10 k := by
  rw [Nat.mul_assoc]
  exact congrArg (u * ·) (Nat.mul_pow 5 2 k).symm

/-- Powers of five make a number long enough. -/
theorem le_log2_mul_pow {u j k : Nat} (hu : u ≠ 0) (hj : j ≤ k) : j ≤ (u * Nat.pow 5 k).log2 := by
  have hpow : 2 ^ j ≤ 5 ^ k :=
    Nat.le_trans (Nat.pow_le_pow_left (by decide) j) (Nat.pow_le_pow_right (by decide) hj)
  have hle : 2 ^ j ≤ u * Nat.pow 5 k :=
    Nat.le_trans hpow (Nat.le_mul_of_pos_left _ (Nat.pos_of_ne_zero hu))
  exact (Nat.le_log2 (mul_pow_ne_zero hu)).2 hle

/-- The decimal that a double is, exactly, is nearest to that double. -/
theorem nearestBits_coefficient {x : Float} (h : Unsigned x) :
    (⟨coefficient x, -(Binary64.unitBits : Int)⟩ : Decimal).nearestBits = x.toBits.toNat := by
  unfold Decimal.nearestBits
  by_cases hunits : Binary64.units x.toBits.toNat = 0
  · have hzero : coefficient x = 0 := by rw [coefficient, hunits, Nat.zero_mul]
    rw [if_pos hzero, Binary64.eq_zero_of_units hunits]
  · have hne : coefficient x ≠ 0 := mul_pow_ne_zero hunits
    -- The coefficient is so large that its length alone settles nothing.
    have hlog : Binary64.unitBits ≤ (coefficient x).log2 := le_log2_mul_pow hunits (Nat.le_refl _)
    have hunit : (0 : Int) < Binary64.unitBits := by decide
    have hlarge : ¬ Decimal.exponentBound < -(Binary64.unitBits : Int) := by decide
    have hsmall : ¬ -(Binary64.unitBits : Int) <
        -(Decimal.exponentBound + (coefficient x).log2) := by
      unfold Decimal.exponentBound
      omega
    have hvalue := mul_pow_mul_pow (Binary64.units x.toBits.toNat) Binary64.unitBits
    rw [if_neg hne, if_neg hlarge, if_neg hsmall, Decimal.ratio_of_places (by decide)]
    dsimp only
    exact Binary64.nearest_units h (pow_ten_pos Binary64.unitBits) hunits hvalue

theorem Unsigned.ofBits_toBits {x : Float} (h : Unsigned x) : Float.ofBits x.toBits = x := by
  refine Double.ofBits_toBits fun hexponent => ?_
  have hbits : x.toBits.toBitVec.toNat < 0x7FF0000000000000 := h
  unfold Double.exponent at hexponent
  omega

/-- A double written out in full is read back. -/
theorem denotes_expansion {x : Float} (h : Unsigned x) : Denotes (expansion x) x := by
  refine ⟨_, writes_places (coefficient x) Binary64.unitBits, ?_⟩
  rw [Decimal.toFloat, nearestBits_coefficient h, UInt64.ofNat_toNat, h.ofBits_toBits]

/-- A way to write numbers that can be read back. -/
structure Spelling where
  text : Float → List Char
  denotes : ∀ x, Unsigned x → Denotes (text x) x

/-- Every number in full. -/
def Spelling.inFull : Spelling := ⟨expansion, fun _ => denotes_expansion⟩

end Numeral

end LineBasic
