/-
  LineBasic.Proofs.DoubleArithmetic

  What simplification takes for granted of doubles.  Zero is neutral in a sum and makes
  a product zero, one is neutral in a product and a quotient, and an operator does not
  look at the sign of a zero that it is given.  All of this is up to the sign of a zero
  that comes out, and holds of finite doubles only: the product of zero and an infinity
  is undefined.

  One is neutral because rounding leaves a double alone, however far its mantissa has
  been shifted to the left.
-/

import LineBasic.Proofs.ConstantCode
import LineBasic.Proofs.ExactDecimals

namespace LineBasic

namespace Double

open Float.Model Float.Model.UnpackedFloat

-- ============================================================================
-- Finite doubles
-- ============================================================================

/-- The double that is packed from its parts. -/
def ofUnpacked (u : UnpackedFloat) : Float := .ofModel (.pack u)

variable {x y z : Float} {b : BitVec 64} {s : UnpackedFloat.Sign} {m : Nat} {e : Int}

/-- A finite double has an exponent field that is not full. -/
theorem exponent_of_isFinite (h : (UnpackedFloat.unpack Format.binary64 b).isFinite = true) :
    exponent b ≠ 2047 := by
  intro hexponent
  have hones : @unpackExponent Format.binary64 b = -1#_ := by
    apply BitVec.eq_of_toNat_eq
    rw [toNat_unpackExponent, hexponent]
    rfl
  unfold UnpackedFloat.unpack at h
  dsimp only at h
  rw [if_pos hones] at h
  by_cases hzero : @unpackMantissa Format.binary64 b = 0#_
  · rw [if_pos hzero] at h
    cases h
  · rw [if_neg hzero] at h
    cases h

/-- Packing the parts of a finite double gives it back. -/
theorem ofUnpacked_unpack (h : x.isFinite = true) : ofUnpacked x.toModel.unpack = x :=
  ofBits_toBits (exponent_of_isFinite h)

/-- A finite double is a zero, or a mantissa and an exponent. -/
theorem unpack_of_isFinite (h : x.isFinite = true) :
    (∃ s, x.toModel.unpack = .zero s) ∨ ∃ s m e pos, x.toModel.unpack = .finite s m e pos := by
  have hunpack : x.toModel.unpack.isFinite = true := h
  cases hu : x.toModel.unpack with
  | zero s => exact .inl ⟨s, rfl⟩
  | finite s m e pos => exact .inr ⟨s, m, e, pos, rfl⟩
  | notANumber =>
    rw [hu] at hunpack
    cases hunpack
  | infinity s =>
    rw [hu] at hunpack
    cases hunpack

/-- Equal to zero are the two zeros. -/
theorem beq_zero_iff : (x == 0.0) = true ↔ ∃ s, x.toModel.unpack = .zero s := by
  have hcompare : (x == 0.0) = (x.toModel.unpack.compare (.zero .positive) == some .eq) := rfl
  rw [hcompare]
  constructor
  · intro h
    cases hu : x.toModel.unpack with
    | zero s => exact ⟨s, rfl⟩
    | notANumber =>
      rw [hu] at h
      cases h
    | infinity s =>
      rw [hu] at h
      cases s <;> cases h
    | finite s m e pos =>
      rw [hu] at h
      cases s <;> cases h
  · rintro ⟨s, hs⟩
    rw [hs]
    rfl

theorem beq_zero_ofUnpacked (s : UnpackedFloat.Sign) : (ofUnpacked (.zero s) == 0.0) = true := by
  cases s <;> decide +kernel

theorem beq_zero_zero : ((0.0 : Float) == 0.0) = true := by decide +kernel

/-- A zero is finite. -/
theorem isFinite_of_beq_zero (h : (x == 0.0) = true) : x.isFinite = true := by
  obtain ⟨s, hs⟩ := beq_zero_iff.1 h
  show x.toModel.unpack.isFinite = true
  rw [hs]
  rfl

/-- There are two zeros. -/
theorem eq_of_beq_zero (h : (x == 0.0) = true) : x = 0.0 ∨ x = -0.0 := by
  obtain ⟨s, hs⟩ := beq_zero_iff.1 h
  rw [← ofUnpacked_unpack (isFinite_of_beq_zero h), hs]
  cases s with
  | positive => exact .inl (by decide +kernel)
  | negative => exact .inr (by decide +kernel)

-- ============================================================================
-- Rounding
-- ============================================================================

/-- A mantissa and an exponent as a double has them: 53 bits, or fewer at the least
    exponent. -/
def Canonical (m : Nat) (e : Int) : Prop := m.log2 = 52 ∧ -1074 ≤ e ∨ m.log2 < 52 ∧ e = -1074

/-- With no exponent in the bits, the mantissa is that in the bits. -/
theorem eq_mantissa_of_unpack {pos : 0 < m}
    (h : UnpackedFloat.unpack Format.binary64 b = .finite s m e pos) (hnone : exponent b = 0) :
    m = mantissa b := by
  have hzeros : @unpackExponent Format.binary64 b = 0#_ := by
    apply BitVec.eq_of_toNat_eq
    rw [toNat_unpackExponent, hnone]
    rfl
  unfold UnpackedFloat.unpack at h
  dsimp only at h
  rw [hzeros, if_neg (by decide), if_pos rfl] at h
  by_cases hzero : @unpackMantissa Format.binary64 b = 0#_
  · rw [dif_pos hzero] at h
    cases h
  · rw [dif_neg hzero] at h
    injection h with _ hm
    rw [← hm, toNat_unpackMantissa]

/-- What a double unpacks to fits the format as it is. -/
theorem canonical_unpack {pos : 0 < m}
    (h : UnpackedFloat.unpack Format.binary64 b = .finite s m e pos) : Canonical m e := by
  have hm : mantissa b < 2 ^ 52 := Nat.mod_lt _ (by decide)
  have hnone := eq_mantissa_of_unpack h
  have hreads := reads_unpack b
  rw [h] at hreads
  cases hreads with
  | subnormal _ _ hvalue hunit =>
    exact .inr ⟨(Nat.log2_lt (by omega)).2 (by omega), hunit⟩
  | normal _ hvalue hunit =>
    have hexponent : exponent b ≠ 0 := fun hzero => by
      have hm' := hnone hzero
      omega
    exact .inl ⟨(Nat.log2_eq_iff (by omega)).2 ⟨by omega, by omega⟩, by omega⟩

theorem targetExponent_eq (t : Int) : Format.binary64.targetExponent t = max (t - 53) (-1074) := rfl

/-- What fits the format is not shifted when it is rounded. -/
theorem Canonical.targetExponent (h : Canonical m e) :
    Format.binary64.targetExponent (totalExponent m e) = e := by
  rw [targetExponent_eq, totalExponent]
  rcases h with ⟨hlog, he⟩ | ⟨hlog, he⟩
  · omega
  · omega

/-- Zeros at the end of a mantissa are shifted out without a loss. -/
theorem shiftRight_mul_pow (m k : Nat) :
    (⟨m * 2 ^ k, false, false⟩ : ExtendedMantissa) >>> k = ⟨m, false, false⟩ := by
  induction k generalizing m with
  | zero => rw [Nat.pow_zero, Nat.mul_one]; rfl
  | succ k ih =>
    have hshift : (⟨m * 2 ^ (k + 1), false, false⟩ : ExtendedMantissa) >>> (k + 1)
        = ((⟨m * 2 * 2 ^ k, false, false⟩ : ExtendedMantissa) >>> k).shiftRightOne := by
      rw [Nat.pow_succ', ← Nat.mul_assoc]
      rfl
    rw [hshift, ih, ExtendedMantissa.shiftRightOne]
    simp

theorem totalExponent_mul_pow (hm : 0 < m) (k : Nat) :
    totalExponent (m * 2 ^ k) (e - k) = totalExponent m e := by
  have hlog : (m * 2 ^ k).log2 = m.log2 + k := by
    induction k with
    | zero => rw [Nat.pow_zero, Nat.mul_one, Nat.add_zero]
    | succ k ih =>
      have hne : m * 2 ^ k ≠ 0 := (Nat.mul_pos hm (Nat.two_pow_pos k)).ne'
      rw [Nat.pow_succ', Nat.mul_left_comm, Nat.log2_two_mul hne, ih, Nat.add_assoc]
  rw [totalExponent, totalExponent, hlog]
  omega

theorem Canonical.shift (h : Canonical m e) (hm : 0 < m) (k : Nat) :
    shiftToTargetExponent Format.binary64 (m * 2 ^ k) (e - k) .exact = (⟨m, false, false⟩, e) := by
  have hamount : (e - (e - k)).toNat = k := by omega
  rw [shiftToTargetExponent, totalExponent_mul_pow hm, h.targetExponent, shiftToExponent, hamount]
  exact Prod.ext (shiftRight_mul_pow m k) (Int.sub_add_cancel e k)

/-- Rounding leaves a double alone, however far its mantissa has been shifted. -/
theorem Canonical.round (h : Canonical m e) (pos : 0 < m) (k : Nat) (s : UnpackedFloat.Sign) :
    roundWithAccuracy Format.binary64 s (m * 2 ^ k) (e - k) .exact = .finite s m e pos := by
  have hagain : shiftToTargetExponent Format.binary64 m e .exact = (⟨m, false, false⟩, e) := by
    simpa using h.shift pos 0
  unfold roundWithAccuracy
  rw [h.shift pos k]
  dsimp only [ExtendedMantissa.roundedMantissa, ExtendedMantissa.accuracy,
    Accuracy.roundToNearestEven]
  rw [hagain]
  exact dif_neg pos.ne'

-- ============================================================================
-- One
-- ============================================================================

/-- Dividing by one shifts a mantissa to the left, and leaves no rest. -/
theorem Canonical.divCore (h : Canonical m e) :
    ∃ k : Nat, divCore Format.binary64 m e (2 ^ 52) (-52) = (m * 2 ^ k, e - k, .exact) := by
  have hone : totalExponent (2 ^ 52) (-52) = 1 := by decide
  have hlog : (m.log2 : Int) ≤ 52 ∧ -1074 ≤ e := by
    rcases h with ⟨hlog, he⟩ | ⟨hlog, he⟩ <;> omega
  have htarget : min (e - -52) (Format.binary64.targetExponent (totalExponent m e - 1))
      = max (m.log2 + e - 53) (-1074) := by
    rw [targetExponent_eq, totalExponent]
    omega
  obtain ⟨k, hk⟩ : ∃ k : Nat, max (m.log2 + e - 53) (-1074) = e - k :=
    ⟨(e - max (m.log2 + e - 53) (-1074)).toNat, by omega⟩
  have hamount : (e - -52 - (e - k)).toNat = k + 52 := by omega
  refine ⟨k, ?_⟩
  unfold UnpackedFloat.divCore
  dsimp only
  rw [hone, htarget, hk, hamount, Nat.shiftLeft_eq, Nat.pow_add, ← Nat.mul_assoc,
    Nat.mul_div_cancel _ (by decide), Nat.mul_mod_left]
  rfl

/-- What comes out as the parts of a finite double, with the mantissa shifted and yet to
    be rounded, is that double. -/
theorem eq_of_parts (h : x.isFinite = true) {u : UnpackedFloat}
    (hzero : ∀ s, x.toModel.unpack = .zero s → u = .zero s)
    (hfinite : ∀ s m e pos, x.toModel.unpack = .finite s m e pos → ∃ k : Nat,
      u = roundWithAccuracy Format.binary64 s (m * 2 ^ k) (e - k) .exact) : ofUnpacked u = x := by
  have hparts : u = x.toModel.unpack := by
    rcases unpack_of_isFinite h with ⟨s, hs⟩ | ⟨s, m, e, pos, hu⟩
    · rw [hzero s hs, hs]
    · obtain ⟨k, hk⟩ := hfinite s m e pos hu
      rw [hk, (canonical_unpack hu).round pos k s, hu]
  rw [hparts, ofUnpacked_unpack h]

/-- A finite double times one is that double, bits and all. -/
theorem mul_one (h : x.isFinite = true) : x * 1.0 = x := by
  refine eq_of_parts h (fun s hs => ?_) fun s m e pos hu => ⟨52, ?_⟩
  · show UnpackedFloat.mul Format.binary64 x.toModel.unpack _ = _
    rw [hs]
    cases s <;> rfl
  · show UnpackedFloat.mul Format.binary64 x.toModel.unpack _ = _
    rw [hu]
    cases s <;> rfl

/-- One times a finite double is that double. -/
theorem one_mul (h : x.isFinite = true) : 1.0 * x = x := by
  refine eq_of_parts h (fun s hs => ?_) fun s m e pos hu => ⟨52, ?_⟩
  · show UnpackedFloat.mul Format.binary64 _ x.toModel.unpack = _
    rw [hs]
    cases s <;> rfl
  · have hmul : UnpackedFloat.mul Format.binary64 (1.0 : Float).toModel.unpack x.toModel.unpack
        = roundWithAccuracy Format.binary64 (.positive * s) (2 ^ 52 * m) (-52 + e) .exact := by
      rw [hu]
      rfl
    rw [Nat.mul_comm m, Int.sub_eq_add_neg, Int.add_comm]
    refine hmul.trans ?_
    cases s <;> rfl

/-- A finite double divided by one is that double. -/
theorem div_one (h : x.isFinite = true) : x / 1.0 = x := by
  refine eq_of_parts h (fun s hs => ?_) fun s m e pos hu => ?_
  · show UnpackedFloat.div Format.binary64 x.toModel.unpack _ = _
    rw [hs]
    cases s <;> rfl
  · obtain ⟨k, hk⟩ := (canonical_unpack hu).divCore
    have hdiv : UnpackedFloat.div Format.binary64 x.toModel.unpack (1.0 : Float).toModel.unpack
        = roundWithAccuracy Format.binary64 (s / .positive)
            (UnpackedFloat.divCore Format.binary64 m e (2 ^ 52) (-52)).1
            (UnpackedFloat.divCore Format.binary64 m e (2 ^ 52) (-52)).2.1
            (UnpackedFloat.divCore Format.binary64 m e (2 ^ 52) (-52)).2.2 := by
      rw [hu]
      rfl
    refine ⟨k, hdiv.trans ?_⟩
    rw [hk]
    cases s <;> rfl

-- ============================================================================
-- Zero
-- ============================================================================

/-- Doubles that are the same up to the sign of zero. -/
def Alike (x y : Float) : Prop := x = y ∨ (x == 0.0) = true ∧ (y == 0.0) = true

theorem Alike.refl (x : Float) : Alike x x := .inl rfl

theorem Alike.symm (h : Alike x y) : Alike y x := by
  rcases h with rfl | ⟨hx, hy⟩
  · exact .refl x
  · exact .inr ⟨hy, hx⟩

/-- Doubles that are alike up to the sign of zero, taken in a row. -/
theorem Alike.trans (h : Alike x y) (h' : Alike y z) : Alike x z := by
  rcases h with rfl | ⟨hx, hy⟩
  · exact h'
  · rcases h' with rfl | ⟨-, hz⟩
    · exact .inr ⟨hx, hy⟩
    · exact .inr ⟨hx, hz⟩

theorem Alike.isFinite (h : Alike x y) (hy : y.isFinite = true) : x.isFinite = true := by
  rcases h with rfl | ⟨hx, -⟩
  · exact hy
  · exact isFinite_of_beq_zero hx

theorem Alike.beq_zero (h : Alike x y) : (x == 0.0) = (y == 0.0) := by
  rcases h with rfl | ⟨hx, hy⟩
  · rfl
  · rw [hx, hy]

section Operations

variable (f : UnpackedFloat → UnpackedFloat → UnpackedFloat) (hz : (z == 0.0) = true)
  (hx : x.isFinite = true)

include hz hx

/-- An operation of a zero and a finite double that comes to the same as `g` of the double,
    zeros apart. -/
theorem alike_of_zero (g : UnpackedFloat → UnpackedFloat)
    (hzero : ∀ s t, ∃ r r', f (.zero s) (.zero t) = .zero r ∧ g (.zero t) = .zero r')
    (hfinite : ∀ s t m e pos, f (.zero s) (.finite t m e pos) = g (.finite t m e pos)) :
    Alike (ofUnpacked (f z.toModel.unpack x.toModel.unpack)) (ofUnpacked (g x.toModel.unpack)) := by
  obtain ⟨s, hs⟩ := beq_zero_iff.1 hz
  rcases unpack_of_isFinite hx with ⟨t, ht⟩ | ⟨t, m, e, pos, hu⟩
  · obtain ⟨r, r', hf, hg⟩ := hzero s t
    rw [hs, ht, hf, hg]
    exact .inr ⟨beq_zero_ofUnpacked r, beq_zero_ofUnpacked r'⟩
  · rw [hs, hu, hfinite]
    exact .refl _

/-- An operation that makes a zero of a zero and a finite double. -/
theorem beq_zero_of_zero (hzero : ∀ s t, ∃ r, f (.zero s) (.zero t) = .zero r)
    (hfinite : ∀ s t m e pos, ∃ r, f (.zero s) (.finite t m e pos) = .zero r) :
    (ofUnpacked (f z.toModel.unpack x.toModel.unpack) == 0.0) = true := by
  obtain ⟨s, hs⟩ := beq_zero_iff.1 hz
  rcases unpack_of_isFinite hx with ⟨t, ht⟩ | ⟨t, m, e, pos, hu⟩
  · obtain ⟨r, hr⟩ := hzero s t
    rw [hs, ht, hr, beq_zero_ofUnpacked]
  · obtain ⟨r, hr⟩ := hfinite s t m e pos
    rw [hs, hu, hr, beq_zero_ofUnpacked]

end Operations

section Neutral

variable (hz : (z == 0.0) = true) (hx : x.isFinite = true)

include hz hx

/-- Adding a zero changes at most the sign of a zero. -/
theorem zero_add : Alike (z + x) x := by
  have hsame := alike_of_zero (.add Format.binary64) hz hx id
    (fun s t => by cases s <;> cases t <;> exact ⟨_, _, rfl, rfl⟩) fun _ _ _ _ _ => rfl
  rwa [id, ofUnpacked_unpack hx] at hsame

theorem add_zero : Alike (x + z) x := by
  have hsame := alike_of_zero (fun u v => .add Format.binary64 v u) hz hx id
    (fun s t => by cases s <;> cases t <;> exact ⟨_, _, rfl, rfl⟩) fun _ _ _ _ _ => rfl
  rwa [id, ofUnpacked_unpack hx] at hsame

theorem sub_zero : Alike (x - z) x := by
  have hsame := alike_of_zero (fun u v => .sub Format.binary64 v u) hz hx id
    (fun s t => by cases s <;> cases t <;> exact ⟨_, _, rfl, rfl⟩) fun _ _ _ _ _ => rfl
  rwa [id, ofUnpacked_unpack hx] at hsame

theorem sub_of_zero : Alike (z - x) (-x) :=
  alike_of_zero (.sub Format.binary64) hz hx UnpackedFloat.neg
    (fun s t => by cases s <;> cases t <;> exact ⟨_, _, rfl, rfl⟩) fun _ _ _ _ _ => rfl

theorem zero_mul : (z * x == 0.0) = true :=
  beq_zero_of_zero (.mul Format.binary64) hz hx (fun _ _ => ⟨_, rfl⟩) fun _ _ _ _ _ => ⟨_, rfl⟩

theorem mul_zero : (x * z == 0.0) = true :=
  beq_zero_of_zero (fun u v => .mul Format.binary64 v u) hz hx (fun _ _ => ⟨_, rfl⟩)
    fun _ _ _ _ _ => ⟨_, rfl⟩

/-- A zero divided by anything else is a zero. -/
theorem zero_div (hne : (x == 0.0) = false) : (z / x == 0.0) = true := by
  obtain ⟨s, hs⟩ := beq_zero_iff.1 hz
  rcases unpack_of_isFinite hx with ⟨t, ht⟩ | ⟨t, m, e, pos, hu⟩
  · rw [beq_zero_iff.2 ⟨t, ht⟩] at hne
    cases hne
  · show (ofUnpacked (.div Format.binary64 z.toModel.unpack x.toModel.unpack) == 0.0) = true
    rw [hs, hu]
    exact beq_zero_ofUnpacked _

/-- Nothing finite comes of dividing by zero. -/
theorem isFinite_div_zero : (x / z).isFinite = false := by
  have hinfinity : ∀ s, (ofUnpacked (.infinity s)).isFinite = false := by
    intro s
    cases s <;> decide +kernel
  have hundefined : (ofUnpacked .notANumber).isFinite = false := by decide +kernel
  obtain ⟨s, hs⟩ := beq_zero_iff.1 hz
  show (ofUnpacked (.div Format.binary64 x.toModel.unpack z.toModel.unpack)).isFinite = false
  rcases unpack_of_isFinite hx with ⟨t, ht⟩ | ⟨t, m, e, pos, hu⟩
  · rw [hs, ht]
    exact hundefined
  · rw [hs, hu]
    exact hinfinity _

end Neutral

-- ============================================================================
-- Comparing
-- ============================================================================

/-- The two zeros compare alike with everything. -/
theorem compare_zero_left (s t : UnpackedFloat.Sign) (u : UnpackedFloat) :
    (UnpackedFloat.zero s).compare u = (UnpackedFloat.zero t).compare u := by
  cases u with
  | infinity r => cases r <;> rfl
  | finite r m e pos => cases r <;> rfl
  | notANumber => rfl
  | zero r => rfl

theorem compare_zero_right (s t : UnpackedFloat.Sign) (u : UnpackedFloat) :
    u.compare (.zero s) = u.compare (.zero t) := by
  cases u with
  | infinity r => cases r <;> rfl
  | finite r m e pos => cases r <;> rfl
  | notANumber => rfl
  | zero r => rfl

variable {x' y' : Float}

/-- Comparing does not look at the sign of zero. -/
theorem Alike.compare (hx : Alike x' x) (hy : Alike y' y) :
    x'.toModel.unpack.compare y'.toModel.unpack = x.toModel.unpack.compare y.toModel.unpack := by
  have hleft : x'.toModel.unpack.compare y'.toModel.unpack
      = x.toModel.unpack.compare y'.toModel.unpack := by
    rcases hx with rfl | ⟨hx', hx⟩
    · rfl
    · obtain ⟨s, hs⟩ := beq_zero_iff.1 hx'
      obtain ⟨t, ht⟩ := beq_zero_iff.1 hx
      rw [hs, ht, compare_zero_left]
  rw [hleft]
  rcases hy with rfl | ⟨hy', hy⟩
  · rfl
  · obtain ⟨s, hs⟩ := beq_zero_iff.1 hy'
    obtain ⟨t, ht⟩ := beq_zero_iff.1 hy
    rw [hs, ht, compare_zero_right]

/-- One double is below another if they compare that way. -/
theorem lt_iff_compare :
    x < y ↔ x.toModel.unpack.compare y.toModel.unpack = some .lt := by
  have hmodel : x < y ↔ x.toModel < y.toModel := ⟨of_decide_eq_true, decide_eq_true⟩
  rw [hmodel]
  show (x.toModel.unpack.compare y.toModel.unpack == some .lt) = true ↔ _
  exact beq_iff_eq

theorem le_iff_compare :
    x ≤ y ↔ (x.toModel.unpack.compare y.toModel.unpack).any (·.isLE) = true :=
  ⟨of_decide_eq_true, decide_eq_true⟩

/-- Alike doubles are numbers together. -/
theorem Alike.isNaN (h : Alike x' x) : x'.isNaN = x.isNaN := by
  rcases h with rfl | ⟨hx', hx⟩
  · rfl
  · obtain ⟨s, hs⟩ := beq_zero_iff.1 hx'
    obtain ⟨t, ht⟩ := beq_zero_iff.1 hx
    show x'.toModel.unpack.isNaN = x.toModel.unpack.isNaN
    rw [hs, ht]
    rfl

theorem isNaN_of_isFinite (h : x.isFinite = true) : x.isNaN = false := by
  show x.toModel.unpack.isNaN = false
  rcases unpack_of_isFinite h with ⟨s, hs⟩ | ⟨s, m, e, pos, hu⟩
  · rw [hs]
    rfl
  · rw [hu]
    rfl

end Double

-- ============================================================================
-- Operators
-- ============================================================================

open Double

variable {x y x' y' : Float}

/-- Comparisons do not heed the sign of a zero. -/
theorem Relation.holds_alike (rel : Relation) (hx : Alike x' x) (hy : Alike y' y) :
    rel.holds x' y' = rel.holds x y := by
  have hxy := hx.compare hy
  have hyx := hy.compare hx
  cases rel with
  | eq => exact congrArg (· == some .eq) hxy
  | ne => exact congrArg (fun c => !(c == some .eq)) hxy
  | lt => exact decide_eq_decide.2 (by rw [lt_iff_compare, lt_iff_compare, hxy])
  | le => exact decide_eq_decide.2 (by rw [le_iff_compare, le_iff_compare, hxy])
  | gt => exact decide_eq_decide.2 (by rw [lt_iff_compare, lt_iff_compare, hyx])
  | ge => exact decide_eq_decide.2 (by rw [le_iff_compare, le_iff_compare, hyx])

theorem Relation.ordered_alike (rel : Relation) (hx : Alike x' x) (hy : Alike y' y) :
    rel.ordered x' y' = rel.ordered x y := by
  rw [ordered, ordered, hx.isNaN, hy.isNaN, rel.holds_alike hx hy]

/-- Next to finite doubles, an ordered comparison is a comparison. -/
theorem Relation.ordered_of_isFinite (rel : Relation) (hx : x.isFinite = true)
    (hy : y.isFinite = true) : rel.ordered x y = rel.holds x y := by
  rw [Relation.ordered, isNaN_of_isFinite hx, isNaN_of_isFinite hy]
  rfl

namespace Arith

/-- Operators do not heed the sign of a zero on the left, up to the sign of a zero. -/
theorem apply_alike_left (op : Arith) (hx : Alike x' x) (hy : y.isFinite = true)
    (hdiv : op = .div → (y == 0.0) = false) : Alike (op.apply x' y) (op.apply x y) := by
  rcases hx with rfl | ⟨hx', hx⟩
  · exact .refl _
  · cases op with
    | add => exact (zero_add hx' hy).trans (zero_add hx hy).symm
    | sub => exact (sub_of_zero hx' hy).trans (sub_of_zero hx hy).symm
    | mul => exact .inr ⟨zero_mul hx' hy, zero_mul hx hy⟩
    | div => exact .inr ⟨zero_div hx' hy (hdiv rfl), zero_div hx hy (hdiv rfl)⟩

/-- Operators do not heed the sign of a zero on the right, unless they divide by it. -/
theorem apply_alike_right (op : Arith) (hx : x.isFinite = true) (hy : Alike y' y)
    (hdiv : op = .div → (y == 0.0) = false) : Alike (op.apply x y') (op.apply x y) := by
  rcases hy with rfl | ⟨hy', hy⟩
  · exact .refl _
  · cases op with
    | add => exact (add_zero hy' hx).trans (add_zero hy hx).symm
    | sub => exact (sub_zero hy' hx).trans (sub_zero hy hx).symm
    | mul => exact .inr ⟨mul_zero hy' hx, mul_zero hy hx⟩
    | div =>
      rw [hdiv rfl] at hy
      cases hy

/-- An operation of finite doubles that comes to a finite one does not look at the signs
    of zeros. -/
theorem apply_alike (op : Arith) (hx : Alike x' x) (hy : Alike y' y) (hfx : x.isFinite = true)
    (hfy : y.isFinite = true) (hfinite : (op.apply x y).isFinite = true) :
    Alike (op.apply x' y') (op.apply x y) := by
  have hdiv : op = .div → (y == 0.0) = false := by
    rintro rfl
    cases hzero : y == 0.0 with
    | false => rfl
    | true => exact hfinite.symm.trans (isFinite_div_zero hzero hfx)
  have hdiv' : op = .div → (y' == 0.0) = false := fun hop => hy.beq_zero.trans (hdiv hop)
  exact (op.apply_alike_left hx (hy.isFinite hfy) hdiv').trans (op.apply_alike_right hfx hy hdiv)

end Arith

end LineBasic
