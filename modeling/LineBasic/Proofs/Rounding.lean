/-
  LineBasic.Proofs.Rounding

  Rounding to doubles.  Patterns in ascending order are doubles in ascending order, each
  one spacing above the last (`Binary64.units_succ`), so a number is rounded correctly
  as soon as it is on the right side of the midpoints to the two neighbours.  Reading
  a decimal number rounds it correctly, whatever its size (`Decimal.roundsTo_nearestBits`),
  and so does every number of the interval in which the shortest decimal number is
  looked for (`Decimal.roundsTo_shortest`).
-/

import LineBasic.Decimal.Shortest
import LineBasic.Proofs.ExactDecimals
import Mathlib.Algebra.Order.Field.Basic
import Mathlib.Data.Rat.Cast.Order
import Mathlib.Tactic.FieldSimp
import Mathlib.Tactic.Linarith
import Mathlib.Tactic.NormNum
import Mathlib.Tactic.Positivity
import Mathlib.Tactic.Ring

namespace LineBasic

-- ============================================================================
-- Patterns in ascending order
-- ============================================================================

namespace Binary64

variable {bits : Nat}

/-- A pattern is a shift and a significand side by side. -/
theorem exists_pattern (bits : Nat) :
    ∃ s q, bits = s * 2 ^ 52 + q ∧ q < 2 ^ 53 ∧ (s = 0 ∨ 2 ^ 52 ≤ q) :=
  ⟨bits / 2 ^ 52 - 1, bits - (bits / 2 ^ 52 - 1) * 2 ^ 52, by omega, by omega, by omega⟩

/-- A pattern made of an exponent and a mantissa stands for the mantissa, shifted, and its
    spacing is the shift. -/
theorem units_pattern {s q : Nat} (hq : q < 2 ^ 53) (hs : s = 0 ∨ 2 ^ 52 ≤ q) :
    units (s * 2 ^ 52 + q) = q * 2 ^ s ∧ spacing (s * 2 ^ 52 + q) = 2 ^ s := by
  have hexponent : exponentField (s * 2 ^ 52 + q) = s + q / 2 ^ 52 := by
    show (s * 2 ^ 52 + q) / 2 ^ 52 = _
    omega
  have hfraction : fractionField (s * 2 ^ 52 + q) = q % 2 ^ 52 := by
    show (s * 2 ^ 52 + q) % 2 ^ 52 = _
    omega
  unfold units spacing
  rw [hexponent, hfraction]
  by_cases hsmall : q < 2 ^ 52
  · obtain rfl : s = 0 := by omega
    rw [Nat.div_eq_of_lt hsmall, Nat.mod_eq_of_lt hsmall]
    simp
  · have hone : q / 2 ^ 52 = 1 := by omega
    have hrest : Nat.pow 2 fractionBits + q % 2 ^ 52 = q := by
      show 2 ^ 52 + q % 2 ^ 52 = q
      omega
    rw [hone, hrest, if_neg (by omega)]
    exact ⟨rfl, rfl⟩

/-- The next pattern is one spacing larger. -/
theorem units_succ (bits : Nat) : units (bits + 1) = units bits + spacing bits := by
  obtain ⟨s, q, rfl, hq, hs⟩ := exists_pattern bits
  obtain ⟨hunits, hspacing⟩ := units_pattern hq hs
  rw [hunits, hspacing]
  by_cases hlast : q + 1 < 2 ^ 53
  · rw [Nat.add_assoc, (units_pattern hlast (by omega)).1, Nat.succ_mul]
  · -- The significand overflows into the next shift.
    have hnext : s * 2 ^ 52 + q + 1 = (s + 1) * 2 ^ 52 + 2 ^ 52 := by omega
    rw [hnext, (units_pattern (by decide) (.inr (Nat.le_refl _))).1, Nat.pow_succ]
    obtain rfl : q = 2 ^ 53 - 1 := by omega
    omega

theorem spacing_pos (bits : Nat) : 0 < spacing bits := Nat.two_pow_pos _

/-- Patterns are ordered as what they stand for. -/
theorem units_strictMono : StrictMono units :=
  strictMono_nat_of_lt_succ fun bits => by
    have hpos := spacing_pos bits
    rw [units_succ]
    omega

/-- The magnitude behind a pattern.  That of infinity is the power of two that would come next. -/
def value (bits : Nat) : ℚ := units bits / 2 ^ unitBits

theorem value_strictMono : StrictMono value := fun _ _ h =>
  div_lt_div_of_pos_right (Nat.cast_lt.2 (units_strictMono h)) (by positivity)

-- ============================================================================
-- Correct rounding
-- ============================================================================

/-- A number is rounded to a pattern if every other pattern is further away from it, or as far away
    and the pattern is even.  Infinity counts as a pattern like the others. -/
def RoundsTo (r : ℚ) (bits : Nat) : Prop :=
  ∀ c ≤ infinity, c ≠ bits →
    |r - value bits| < |r - value c| ∨ |r - value bits| = |r - value c| ∧ bits % 2 = 0

/-- Nearer to the smaller of two numbers is what is below their middle. -/
theorem abs_sub_lt_iff_of_lt {r x y : ℚ} (h : x < y) : |r - x| < |r - y| ↔ 2 * r < x + y := by
  rw [← sq_lt_sq]
  constructor
  · intro hsq
    nlinarith
  · intro hr
    nlinarith

/-- Nearer to the larger of two numbers is what is above their middle. -/
theorem abs_sub_lt_iff_of_gt {r x y : ℚ} (h : y < x) : |r - x| < |r - y| ↔ x + y < 2 * r := by
  rw [← sq_lt_sq]
  constructor
  · intro hsq
    nlinarith
  · intro hr
    nlinarith

/-- As near to one number as to another is their middle alone. -/
theorem abs_sub_eq_iff_of_ne {r x y : ℚ} (h : x ≠ y) : |r - x| = |r - y| ↔ 2 * r = x + y := by
  rw [abs_eq_abs]
  constructor
  · rintro (heq | heq)
    · exact absurd (by linarith) h
    · linarith
  · intro hr
    exact .inr (by linarith)

/-- It is enough to compare a pattern with its two neighbours. -/
theorem roundsTo_of_neighbours {r : ℚ}
    (hbelow : ∀ c, c + 1 = bits →
      value c + value bits < 2 * r ∨ value c + value bits = 2 * r ∧ bits % 2 = 0)
    (habove : bits < infinity → 2 * r < value bits + value (bits + 1) ∨
      2 * r = value bits + value (bits + 1) ∧ bits % 2 = 0) : RoundsTo r bits := by
  intro c hc hne
  -- Only the neighbours matter: any other value is further off than the one on its side.
  rcases Nat.lt_or_gt_of_ne hne with hlt | hgt
  · obtain ⟨p, rfl⟩ : ∃ p, bits = p + 1 := ⟨bits - 1, by omega⟩
    have hvalue := value_strictMono hlt
    rcases Nat.lt_succ_iff_lt_or_eq.1 hlt with hfar | rfl
    · have hnearer := value_strictMono hfar
      refine .inl ((abs_sub_lt_iff_of_gt hvalue).2 ?_)
      rcases hbelow p rfl with h | ⟨h, -⟩
      · linarith
      · linarith
    · rcases hbelow c rfl with h | ⟨h, heven⟩
      · exact .inl ((abs_sub_lt_iff_of_gt hvalue).2 (by linarith))
      · exact .inr ⟨(abs_sub_eq_iff_of_ne hvalue.ne').2 (by linarith), heven⟩
  · have hvalue := value_strictMono hgt
    rcases Nat.lt_or_eq_of_le (Nat.succ_le_of_lt hgt) with hfar | rfl
    · have hnearer : value (bits + 1) < value c := value_strictMono hfar
      refine .inl ((abs_sub_lt_iff_of_lt hvalue).2 ?_)
      rcases habove (by omega) with h | ⟨h, -⟩
      · linarith
      · linarith
    · rcases habove (by omega) with h | ⟨h, heven⟩
      · exact .inl ((abs_sub_lt_iff_of_lt hvalue).2 h)
      · exact .inr ⟨(abs_sub_eq_iff_of_ne hvalue.ne).2 h, heven⟩

/-- Of two patterns that a number is rounded to, the even one is not next to the other, and what is
    between them would be nearer. -/
theorem RoundsTo.eq_of_le {r : ℚ} {b c : Nat} (hb : RoundsTo r b) (hc : RoundsTo r c)
    (hle : b ≤ c) (hinfinity : c ≤ infinity) : b = c := by
  by_contra hne
  have hlt : b < c := Nat.lt_of_le_of_ne hle hne
  have hvalue := value_strictMono hlt
  have hfromb := hb c hinfinity (Ne.symm hne)
  have hfromc := hc b (by omega) hne
  rw [abs_sub_lt_iff_of_lt hvalue, abs_sub_eq_iff_of_ne hvalue.ne] at hfromb
  rw [abs_sub_lt_iff_of_gt hvalue, abs_sub_eq_iff_of_ne hvalue.ne'] at hfromc
  -- Both are nearest, so the number is halfway between them and both are even.
  obtain ⟨hmiddle, heven⟩ : 2 * r = value b + value c ∧ b % 2 = 0 := by
    rcases hfromb with h | h
    · rcases hfromc with h' | ⟨h', -⟩
      · exact absurd h (by linarith)
      · exact absurd h (by linarith)
    · exact h
  have heven' : c % 2 = 0 := by
    rcases hfromc with h | ⟨-, h⟩
    · exact absurd h (by linarith)
    · exact h
  -- Two even patterns have one between them, and that would be nearer.
  have hbetween : value (b + 1) < value c := value_strictMono (by omega)
  have hnext := hb (b + 1) (by omega) (by omega)
  have hstep : value b < value (b + 1) := value_strictMono (Nat.lt_succ_self b)
  rw [abs_sub_lt_iff_of_lt hstep, abs_sub_eq_iff_of_ne hstep.ne] at hnext
  rcases hnext with h | ⟨h, -⟩
  · linarith
  · linarith

/-- A number rounds to one double. -/
theorem RoundsTo.eq {r : ℚ} {b c : Nat} (hb : RoundsTo r b) (hc : RoundsTo r c)
    (hbinf : b ≤ infinity) (hcinf : c ≤ infinity) : b = c := by
  rcases Nat.le_total b c with h | h
  · exact hb.eq_of_le hc h hcinf
  · exact (hc.eq_of_le hb h hbinf).symm

/-- A double is rounded to itself. -/
theorem roundsTo_value (bits : Nat) : RoundsTo (value bits) bits := by
  intro c _ hne
  left
  rw [sub_self, abs_zero]
  exact abs_pos.2 (sub_ne_zero.2 (value_strictMono.injective.ne hne.symm))

theorem roundsTo_infinity {r : ℚ} (h : value infinity ≤ r) : RoundsTo r infinity := by
  refine roundsTo_of_neighbours (fun c hc => .inl ?_) fun h => absurd h (Nat.lt_irrefl _)
  have hlt : value c < value infinity := value_strictMono (by omega)
  linarith

theorem value_zero : value 0 = 0 := by
  have hunits : units 0 = 0 := rfl
  rw [value, hunits, Nat.cast_zero, zero_div]

theorem roundsTo_zero {r : ℚ} (h : 2 * r < value 1) : RoundsTo r 0 := by
  refine roundsTo_of_neighbours (fun c hc => absurd hc (Nat.succ_ne_zero c)) fun _ => .inl ?_
  rw [value_zero, zero_add]
  exact h

theorem value_one : value 1 = 1 / 2 ^ unitBits := by
  have hunits : units 1 = 1 := rfl
  rw [value, hunits, Nat.cast_one]

/-- The pattern of infinity stands for the first power of two that is too large. -/
theorem value_infinity : value infinity = 2 ^ 1024 := by
  have hpattern : infinity = 2046 * 2 ^ 52 + 2 ^ 52 := by decide
  have hunits : units infinity = 2 ^ 52 * 2 ^ 2046 := by
    rw [hpattern]
    exact (units_pattern (by decide) (.inr (Nat.le_refl _))).1
  have hpow : (2 : ℚ) ^ 52 * 2 ^ 2046 = 2 ^ 1024 * 2 ^ 1074 := by rw [← pow_add, ← pow_add]
  rw [value, hunits, div_eq_iff (by positivity)]
  rw [Nat.cast_mul, Nat.cast_pow, Nat.cast_pow, Nat.cast_ofNat]
  exact hpow

-- ============================================================================
-- Quotients
-- ============================================================================

variable {n d : Nat}

theorem two_mul_ratio_lt_iff (hd : 0 < d) {b c : Nat} :
    2 * ((n : ℚ) / d) < value b + value c ↔
      2 * (n * 2 ^ unitBits) < (units b + units c) * d := by
  have hd' : (0 : ℚ) < d := Nat.cast_pos.2 hd
  rw [value, value, ← add_div, mul_div_assoc', div_lt_div_iff₀ hd' (by positivity), mul_assoc]
  exact_mod_cast Iff.rfl

theorem lt_two_mul_ratio_iff (hd : 0 < d) {b c : Nat} :
    value b + value c < 2 * ((n : ℚ) / d) ↔
      (units b + units c) * d < 2 * (n * 2 ^ unitBits) := by
  have hd' : (0 : ℚ) < d := Nat.cast_pos.2 hd
  rw [value, value, ← add_div, mul_div_assoc', div_lt_div_iff₀ (by positivity) hd', mul_assoc 2]
  exact_mod_cast Iff.rfl

theorem two_mul_ratio_eq_iff (hd : 0 < d) {b c : Nat} :
    2 * ((n : ℚ) / d) = value b + value c ↔
      2 * (n * 2 ^ unitBits) = (units b + units c) * d := by
  rw [eq_iff_le_not_lt, ← not_lt, two_mul_ratio_lt_iff hd, lt_two_mul_ratio_iff hd]
  omega

/-- The comparison with the two neighbours, in whole numbers. -/
theorem roundsTo_ratio (hd : 0 < d)
    (hbelow : ∀ c, c + 1 = bits → (units c + units bits) * d < 2 * (n * 2 ^ unitBits) ∨
      2 * (n * 2 ^ unitBits) = (units c + units bits) * d ∧ bits % 2 = 0)
    (habove : bits < infinity → 2 * (n * 2 ^ unitBits) < (units bits + units (bits + 1)) * d ∨
      2 * (n * 2 ^ unitBits) = (units bits + units (bits + 1)) * d ∧ bits % 2 = 0) :
    RoundsTo ((n : ℚ) / d) bits := by
  refine roundsTo_of_neighbours (fun c hc => ?_) fun hbits => ?_
  · rw [lt_two_mul_ratio_iff hd, eq_comm, two_mul_ratio_eq_iff hd]
    exact hbelow c hc
  · rw [two_mul_ratio_lt_iff hd, two_mul_ratio_eq_iff hd]
    exact habove hbits

theorem value_le_ratio (hd : 0 < d) (h : units bits * d ≤ n * 2 ^ unitBits) :
    value bits ≤ (n : ℚ) / d := by
  have hd' : (0 : ℚ) < d := Nat.cast_pos.2 hd
  rw [value, div_le_div_iff₀ (by positivity) hd']
  exact_mod_cast h

/-- A quotient that is not below a double is rounded to it if the next one is not nearer. -/
theorem roundsTo_lower (hd : 0 < d) (hfloor : units bits * d ≤ n * 2 ^ unitBits)
    (h : 2 * (n * 2 ^ unitBits) < (units bits + units (bits + 1)) * d ∨
      2 * (n * 2 ^ unitBits) = (units bits + units (bits + 1)) * d ∧ bits % 2 = 0) :
    RoundsTo ((n : ℚ) / d) bits := by
  refine roundsTo_ratio hd (fun c hc => .inl ?_) fun _ => h
  have hlt : units c * d < units bits * d :=
    Nat.mul_lt_mul_of_pos_right (units_strictMono (by omega)) hd
  rw [Nat.add_mul]
  omega

/-- A quotient that is not above a double is rounded to it if the last one is not nearer. -/
theorem roundsTo_upper (hd : 0 < d) (hceil : n * 2 ^ unitBits ≤ units (bits + 1) * d)
    (h : (units bits + units (bits + 1)) * d < 2 * (n * 2 ^ unitBits) ∨
      2 * (n * 2 ^ unitBits) = (units bits + units (bits + 1)) * d ∧ (bits + 1) % 2 = 0) :
    RoundsTo ((n : ℚ) / d) (bits + 1) := by
  refine roundsTo_ratio hd (fun c hc => ?_) fun _ => .inl ?_
  · obtain rfl := Nat.succ.inj hc
    exact h
  · have hlt : units (bits + 1) * d < units (bits + 1 + 1) * d :=
      Nat.mul_lt_mul_of_pos_right (units_strictMono (Nat.lt_succ_self _)) hd
    rw [Nat.add_mul]
    omega

/-- The significand that a quotient is cut to has 53 bits, or fewer if there is no shift. -/
theorem shifted_bounds (t : Nat) :
    t / 2 ^ (t.log2 - 52) < 2 ^ 53 ∧ (t.log2 - 52 = 0 ∨ 2 ^ 52 ≤ t / 2 ^ (t.log2 - 52)) := by
  have hpos : 0 < 2 ^ (t.log2 - 52) := Nat.two_pow_pos _
  refine ⟨?_, ?_⟩
  · rw [Nat.div_lt_iff_lt_mul hpos, ← Nat.pow_add]
    exact Nat.lt_of_lt_of_le Nat.lt_log2_self (Nat.pow_le_pow_right (by decide) (by omega))
  · by_cases hshift : t.log2 - 52 = 0
    · exact .inl hshift
    · right
      have hne : t ≠ 0 := by
        rintro rfl
        exact hshift rfl
      rw [Nat.le_div_iff_mul_le hpos, ← Nat.pow_add]
      exact Nat.le_trans (Nat.pow_le_pow_right (by decide) (by omega)) (Nat.log2_self_le hne)

/-- A quotient that lies between a pattern and the next: the remainder tells which of them is
    nearer. -/
theorem roundsTo_cut {s q m : Nat} (hd : 0 < d) (hq : q < 2 ^ 53) (hs : s = 0 ∨ 2 ^ 52 ≤ q)
    (hm : m < d * 2 ^ s) (hn : q * (d * 2 ^ s) + m = n * 2 ^ unitBits) :
    RoundsTo ((n : ℚ) / d) (min infinity (s * 2 ^ 52 +
      if 2 * m < d * 2 ^ s then q else if d * 2 ^ s < 2 * m then q + 1 else q + q % 2)) := by
  obtain ⟨hunits, hspacing⟩ := units_pattern hq hs
  have hlower : units (s * 2 ^ 52 + q) * d = q * (d * 2 ^ s) := by
    rw [hunits]
    ring
  have hupper : units (s * 2 ^ 52 + q + 1) * d = q * (d * 2 ^ s) + d * 2 ^ s := by
    rw [units_succ, Nat.add_mul, hlower, hspacing, Nat.mul_comm (2 ^ s)]
  have hsum : (units (s * 2 ^ 52 + q) + units (s * 2 ^ 52 + q + 1)) * d
      = 2 * (q * (d * 2 ^ s)) + d * 2 ^ s := by
    rw [Nat.add_mul, hlower, hupper]
    omega
  have hparity : (s * 2 ^ 52 + q) % 2 = q % 2 := by omega
  -- Past the greatest finite pattern the result is held at infinity.
  by_cases hfinite : s * 2 ^ 52 + q < infinity
  · rw [Nat.min_eq_right (by split_ifs <;> omega)]
    split_ifs with hbelow habove
    · exact roundsTo_lower hd (by omega) (.inl (by omega))
    · rw [← Nat.add_assoc]
      exact roundsTo_upper hd (by omega) (.inl (by omega))
    -- Halfway between two patterns the even one is taken.
    · rw [← Nat.add_assoc, ← hparity]
      rcases Nat.mod_two_eq_zero_or_one (s * 2 ^ 52 + q) with heven | hodd
      · rw [heven, Nat.add_zero]
        exact roundsTo_lower hd (by omega) (.inr ⟨by omega, heven⟩)
      · rw [hodd]
        exact roundsTo_upper hd (by omega) (.inr ⟨by omega, Nat.succ_mod_two_eq_zero_iff.2 hodd⟩)
  · have hfloor : value (s * 2 ^ 52 + q) ≤ (n : ℚ) / d := value_le_ratio hd (by omega)
    rw [Nat.min_eq_left (by split_ifs <;> omega)]
    exact roundsTo_infinity (le_trans (value_strictMono.monotone (Nat.not_lt.1 hfinite)) hfloor)

/-- The double that is computed for a quotient is the one it is rounded to. -/
theorem roundsTo_nearest (n : Nat) (hd : 0 < d) : RoundsTo ((n : ℚ) / d) (nearest n d) := by
  unfold nearest roundHalfEven fractionBits
  simp only [Nat.pow_eq]
  generalize hscaled : n * 2 ^ unitBits = scaled
  obtain ⟨hq, hs⟩ := shifted_bounds (scaled / d)
  rw [Nat.div_div_eq_div_mul] at hq hs
  have hstep : 0 < d * 2 ^ ((scaled / d).log2 - 52) := Nat.mul_pos hd (Nat.two_pow_pos _)
  have hsplit := (Nat.div_add_mod' scaled (d * 2 ^ ((scaled / d).log2 - 52))).trans hscaled.symm
  exact roundsTo_cut hd hq hs (Nat.mod_lt scaled hstep) hsplit

theorem nearest_le_infinity (n d : Nat) : nearest n d ≤ infinity := Nat.min_le_left _ _

end Binary64

-- ============================================================================
-- Decimal numbers
-- ============================================================================

namespace Decimal

open Binary64

/-- The number itself. -/
def value (d : Decimal) : ℚ := d.coefficient * (10 : ℚ) ^ d.exponent

/-- The value of a decimal as a fraction. -/
theorem value_eq_ratio (d : Decimal) : d.value = (d.ratio.1 : ℚ) / d.ratio.2 := by
  obtain ⟨c, e⟩ := d
  unfold value ratio
  dsimp only
  split
  · next h =>
    obtain ⟨k, rfl⟩ := Int.eq_ofNat_of_zero_le h
    simp
  · next h =>
    obtain ⟨k, rfl⟩ : ∃ k : Nat, e = -(k : Int) := ⟨(-e).toNat, by omega⟩
    simp [zpow_neg, div_eq_mul_inv]

theorem ratio_pos (d : Decimal) : 0 < d.ratio.2 := by
  unfold ratio
  split
  · exact Nat.one_pos
  · exact Nat.pow_pos (by decide)

theorem two_pow_le_ten_pow {k : Nat} (h : k ≤ 1200) : (2 : ℚ) ^ k ≤ 10 ^ 400 :=
  calc (2 : ℚ) ^ k ≤ 2 ^ (3 * 400) := pow_le_pow_right₀ (by norm_num) h
    _ = (2 ^ 3) ^ 400 := pow_mul 2 3 400
    _ ≤ 10 ^ 400 := pow_le_pow_left₀ (by norm_num) (by norm_num) 400

/-- A number with so large an exponent is above every double. -/
theorem value_infinity_le {d : Decimal} (hzero : d.coefficient ≠ 0)
    (hlarge : exponentBound < d.exponent) : Binary64.value infinity ≤ d.value := by
  have hone : (1 : ℚ) ≤ d.coefficient := Nat.one_le_cast.2 (Nat.pos_of_ne_zero hzero)
  have hpow : (10 : ℚ) ^ 400 ≤ 10 ^ d.exponent := by
    rw [← zpow_natCast]
    exact zpow_le_zpow_right₀ (by norm_num) (le_of_lt hlarge)
  calc Binary64.value infinity = 2 ^ 1024 := value_infinity
    _ ≤ 10 ^ 400 := two_pow_le_ten_pow (by decide)
    _ ≤ 10 ^ d.exponent := hpow
    _ ≤ d.value := le_mul_of_one_le_left (zpow_nonneg (by norm_num) _) hone

/-- A number with so small an exponent is below half of the smallest double. -/
theorem two_mul_value_lt {d : Decimal}
    (hsmall : d.exponent < -(exponentBound + d.coefficient.log2)) :
    2 * d.value < Binary64.value 1 := by
  have hcoefficient : (d.coefficient : ℚ) < 10 ^ (d.coefficient.log2 + 1) := by
    have hlog : d.coefficient < 10 ^ (d.coefficient.log2 + 1) :=
      Nat.lt_of_lt_of_le Nat.lt_log2_self (Nat.pow_le_pow_left (by decide) _)
    exact_mod_cast hlog
  have hexponent : d.exponent ≤ -400 + -((d.coefficient.log2 + 1 : Nat) : Int) := by
    unfold exponentBound at hsmall
    omega
  have hvalue : d.value < 10 ^ (-400 : Int) :=
    calc d.value ≤ d.coefficient * 10 ^ (-400 + -((d.coefficient.log2 + 1 : Nat) : Int)) :=
          mul_le_mul_of_nonneg_left (zpow_le_zpow_right₀ (by norm_num) hexponent) (by positivity)
      _ < 10 ^ (d.coefficient.log2 + 1) *
            10 ^ (-400 + -((d.coefficient.log2 + 1 : Nat) : Int)) :=
          mul_lt_mul_of_pos_right hcoefficient (zpow_pos (by norm_num) _)
      _ = 10 ^ (-400 : Int) := by
          rw [← zpow_natCast, ← zpow_add₀ (by norm_num)]
          congr 1
          omega
  have hscaled : (2 : ℚ) * 2 ^ unitBits ≤ 10 ^ 400 := by
    rw [← pow_succ']
    exact two_pow_le_ten_pow (by decide)
  calc 2 * d.value < 2 * 10 ^ (-400 : Int) := mul_lt_mul_of_pos_left hvalue two_pos
    _ = 2 / 10 ^ 400 := by rw [zpow_neg, div_eq_mul_inv]; rfl
    _ ≤ 1 / 2 ^ unitBits := by
        rw [div_le_div_iff₀ (by positivity) (by positivity), one_mul]
        exact hscaled
    _ = Binary64.value 1 := value_one.symm

/-- A decimal number is read as the double it is rounded to. -/
theorem roundsTo_nearestBits (d : Decimal) : RoundsTo d.value d.nearestBits := by
  unfold nearestBits
  split_ifs with hzero hlarge hsmall
  · have hvalue : d.value = 0 := by rw [value, hzero, Nat.cast_zero, zero_mul]
    rw [hvalue, ← value_zero]
    exact roundsTo_value 0
  · exact roundsTo_infinity (value_infinity_le hzero hlarge)
  · exact roundsTo_zero (two_mul_value_lt hsmall)
  · rw [value_eq_ratio]
    exact roundsTo_nearest _ d.ratio_pos

/-- Rounding ends at infinity at the latest. -/
theorem nearestBits_le_infinity (d : Decimal) : d.nearestBits ≤ infinity := by
  unfold nearestBits
  split_ifs
  · exact Nat.zero_le _
  · exact Nat.le_refl _
  · exact Nat.zero_le _
  · exact nearest_le_infinity _ _

-- ============================================================================
-- The shortest decimal number
-- ============================================================================

namespace Interval

/-- Below a power of two, and only there, doubles are half as far apart as above it. -/
theorem two_mul_spacing (c : Nat) :
    2 * spacing c = if fractionField (c + 1) = 0 ∧ 1 < exponentField (c + 1) then spacing (c + 1)
      else 2 * spacing (c + 1) := by
  have hfraction : fractionField (c + 1) = (c + 1) % 2 ^ 52 := rfl
  have hexponent : exponentField (c + 1) = (c + 1) / 2 ^ 52 := rfl
  have hspacing : ∀ b, spacing b = 2 ^ (b / 2 ^ 52 - 1) := fun _ => rfl
  rw [hfraction, hexponent, hspacing, hspacing]
  split
  · next h =>
    have hstep : (c + 1) / 2 ^ 52 - 1 = c / 2 ^ 52 - 1 + 1 := by omega
    rw [hstep]
    exact (Nat.pow_succ' ..).symm
  · next h =>
    have hsame : (c + 1) / 2 ^ 52 - 1 = c / 2 ^ 52 - 1 := by omega
    rw [hsame]

/-- The lower end of what rounds to a pattern is halfway to the one before. -/
theorem low_ofBits (c : Nat) :
    (ofBits (c + 1)).low = 2 * ((units c + units (c + 1)) * 10 ^ gridPlaces) := by
  have hgap : (if fractionField (c + 1) = 0 ∧ 1 < exponentField (c + 1)
      then spacing (c + 1) * 10 ^ gridPlaces else 2 * (spacing (c + 1) * 10 ^ gridPlaces))
        = 2 * spacing c * 10 ^ gridPlaces := by
    rw [two_mul_spacing]
    split
    · rfl
    · rw [Nat.mul_assoc]
  unfold ofBits
  simp only [Nat.pow_eq]
  rw [hgap, units_succ]
  apply Nat.sub_eq_of_eq_add
  ring

/-- The upper end is halfway to the next one. -/
theorem high_ofBits (bits : Nat) :
    (ofBits bits).high = 2 * ((units bits + units (bits + 1)) * 10 ^ gridPlaces) := by
  unfold ofBits
  simp only [Nat.pow_eq]
  rw [units_succ]
  ring

/-- The scale of intervals: how often the unit of their bounds goes into one. -/
def scale : Nat := 4 * (2 ^ unitBits * 10 ^ gridPlaces)

theorem scale_pos : 0 < scale :=
  Nat.mul_pos (by decide) (Nat.mul_pos (Nat.two_pow_pos _) (Nat.pow_pos (by decide)))

/-- An interval holds its ends if it is closed. -/
theorem contains_iff {i : Interval} {n : Nat} : i.contains n = true ↔
    (i.low < n ∨ n = i.low ∧ i.closed = true) ∧ (n < i.high ∨ n = i.high ∧ i.closed = true) := by
  unfold contains
  cases i.closed with
  | true =>
    simp only [if_true, Bool.and_eq_true, decide_eq_true_eq, and_true]
    omega
  | false => simp

/-- Every number of the interval is rounded to the double. -/
theorem roundsTo_of_contains {bits n : Nat} (h : (ofBits bits).contains n = true) :
    RoundsTo ((n : ℚ) / scale) bits := by
  have hclosed : (ofBits bits).closed = true ↔ bits % 2 = 0 := decide_eq_true_iff
  obtain ⟨hlow, hhigh⟩ := contains_iff.1 h
  rw [hclosed] at hlow hhigh
  have hone : 0 < 2 ^ unitBits := Nat.two_pow_pos _
  have hscale : ∀ u, u * scale = 2 * (2 * (u * 10 ^ gridPlaces) * 2 ^ unitBits) := by
    intro u
    unfold scale
    ring
  refine roundsTo_ratio scale_pos (fun c hc => ?_) fun _ => ?_
  · subst hc
    rw [hscale, ← low_ofBits]
    rcases hlow with hlt | ⟨heq, heven⟩
    · exact .inl (Nat.mul_lt_mul_of_pos_left (Nat.mul_lt_mul_of_pos_right hlt hone) two_pos)
    · exact .inr ⟨by rw [heq], heven⟩
  · rw [hscale, ← high_ofBits]
    rcases hhigh with hlt | ⟨heq, heven⟩
    · exact .inl (Nat.mul_lt_mul_of_pos_left (Nat.mul_lt_mul_of_pos_right hlt hone) two_pos)
    · exact .inr ⟨by rw [heq], heven⟩

/-- What is found on a grid lies in the interval. -/
theorem contains_of_onGrid? {i : Interval} {grid n : Nat} (h : i.onGrid? grid = some n) :
    i.contains (n * grid) = true := by
  unfold onGrid? at h
  dsimp only at h
  split at h
  · next hbelow habove =>
    split at h
    · cases h; exact hbelow
    · cases h; exact habove
  · next hbelow _ => cases h; exact hbelow
  · next _ habove => cases h; exact habove
  · cases h

end Interval

/-- The whole expansion of a pattern is its value. -/
theorem value_exact (bits : Nat) : (exact bits).value = Binary64.value bits := by
  have hten : (10 : ℚ) ^ unitBits = 5 ^ unitBits * 2 ^ unitBits := by
    rw [← mul_pow]
    norm_num
  have hfive : (5 : ℚ) ^ unitBits ≠ 0 := by positivity
  unfold exact value Binary64.value
  rw [Nat.cast_mul, Nat.pow_eq, Nat.cast_pow, Nat.cast_ofNat, zpow_neg, zpow_natCast, hten,
    mul_inv, mul_assoc, mul_inv_cancel_left₀ hfive, div_eq_mul_inv]

/-- A multiple of a grid, as a decimal number. -/
theorem value_grid (n power : Nat) :
    (⟨n, (power : Int) - gridPlaces⟩ : Decimal).value
      = ((n * (4 * Nat.pow 2 unitBits * Nat.pow 10 power) : Nat) : ℚ) / Interval.scale := by
  unfold value Interval.scale
  rw [Nat.pow_eq, Nat.pow_eq, zpow_sub₀ (by norm_num), zpow_natCast, zpow_natCast]
  push_cast
  field_simp

/-- The shortest decimal number that is found for a double is rounded to it. -/
theorem roundsTo_shortest (bits : Nat) : RoundsTo (shortest bits).value bits := by
  unfold shortest
  dsimp only
  generalize htried : (List.range 17).findSome? _ = tried
  cases tried with
  | none =>
    rw [Option.getD_none, value_exact]
    exact roundsTo_value bits
  | some d =>
    obtain ⟨k, -, hk⟩ := List.exists_of_findSome?_eq_some htried
    obtain ⟨n, hn, rfl⟩ := Option.map_eq_some_iff.1 hk
    rw [Option.getD_some, value_grid]
    exact Interval.roundsTo_of_contains (Interval.contains_of_onGrid? hn)

end Decimal

end LineBasic
