/-
  LineBasic.Proofs.Literals

  The literals of doubles in the generated code.  A finite double is written as a
  decimal number with a point between digits (`Numeral.Pointed`), of which the double
  is the nearest one; an infinite one is written by its bits.  Either way the literal
  can be read back, so that doubles with the same literal are the same.
-/

import LineBasic.Numeral.Layout
import LineBasic.Proofs.NearestDoubles

namespace LineBasic

-- ============================================================================
-- Digits
-- ============================================================================

theorem allDigits_zeros (k : Nat) : AllDigits (List.replicate k '0') := by
  intro c hc
  rw [List.eq_of_mem_replicate hc]
  rfl

theorem AllDigits.append {as bs : List Char} (ha : AllDigits as) (hb : AllDigits bs) :
    AllDigits (as ++ bs) := by
  intro c hc
  rcases List.mem_append.1 hc with h | h
  · exact ha c h
  · exact hb c h

namespace Decimal

/-- Digits are read from the left, each new one moving the others up by one place. -/
theorem foldl_digits (n : Nat) (cs : List Char) :
    cs.foldl (fun n c => 10 * n + digitValue c) n = n * 10 ^ cs.length + ofDigits cs := by
  induction cs generalizing n with
  | nil => simp [ofDigits]
  | cons c cs ih =>
    have hfirst : ofDigits (c :: cs) = digitValue c * 10 ^ cs.length + ofDigits cs := by
      rw [ofDigits, List.foldl_cons, ih, Nat.mul_zero, Nat.zero_add]
    rw [List.foldl_cons, ih, hfirst, List.length_cons, Nat.pow_succ]
    ring

theorem ofDigits_append (as bs : List Char) :
    ofDigits (as ++ bs) = ofDigits as * 10 ^ bs.length + ofDigits bs := by
  rw [ofDigits, List.foldl_append]
  exact foldl_digits _ bs

/-- Zeros are worth nothing. -/
theorem ofDigits_zeros (k : Nat) : ofDigits (List.replicate k '0') = 0 := by
  induction k with
  | zero => rfl
  | succ k ih =>
    rw [List.replicate_succ, ← List.singleton_append, ofDigits_append, ih]
    exact Nat.zero_mul _

theorem ofDigits_zeros_append (k : Nat) (cs : List Char) :
    ofDigits (List.replicate k '0' ++ cs) = ofDigits cs := by
  rw [ofDigits_append, ofDigits_zeros, Nat.zero_mul, Nat.zero_add]

theorem ofDigits_append_zeros (cs : List Char) (k : Nat) :
    ofDigits (cs ++ List.replicate k '0') = ofDigits cs * 10 ^ k := by
  rw [ofDigits_append, ofDigits_zeros, List.length_replicate, Nat.add_zero]

theorem value_mul_pow (c k : Nat) (e : Int) :
    (⟨c * 10 ^ k, e⟩ : Decimal).value = (⟨c, k + e⟩ : Decimal).value := by
  unfold value
  rw [Nat.cast_mul, Nat.cast_pow, Nat.cast_ofNat, zpow_add₀ (by norm_num), zpow_natCast, mul_assoc]

theorem value_nonneg (d : Decimal) : 0 ≤ d.value :=
  mul_nonneg (Nat.cast_nonneg _) (zpow_nonneg (by norm_num) _)

end Decimal

namespace Numeral

/-- The decimal number that digits with a point write. -/
def Digits.number (d : Digits) : Decimal := ⟨Decimal.ofDigits d.digits, d.point - d.digits.length⟩

/-- What is cut off at the end is zeros. -/
theorem exists_zeros (cs : List Char) :
    ∃ k, cs = (cs.reverse.dropWhile (· = '0')).reverse ++ List.replicate k '0' := by
  have hzeros : ∀ c ∈ cs.reverse.takeWhile (· = '0'), c = '0' := by
    intro c hc
    simpa using List.mem_takeWhile_imp hc
  have hsplit := @List.takeWhile_append_dropWhile _ (· = '0') cs.reverse
  rw [List.eq_replicate_length.2 hzeros] at hsplit
  have hreverse := congrArg List.reverse hsplit
  rw [List.reverse_append, List.reverse_replicate, List.reverse_reverse] at hreverse
  exact ⟨_, hreverse.symm⟩

namespace Digits

theorem allDigits_of (d : Decimal) : AllDigits (Digits.of d).digits := by
  intro c hc
  have hdrop := (List.dropWhile_sublist _).subset (List.mem_reverse.1 hc)
  exact Decimal.allDigits_digits _ c (List.mem_reverse.1 hdrop)

/-- Cutting off zeros and moving the point changes nothing. -/
theorem value_of (d : Decimal) : (Digits.of d).number.value = d.value := by
  obtain ⟨k, hk⟩ : ∃ k, Decimal.digits d.coefficient
      = (Digits.of d).digits ++ List.replicate k '0' := exists_zeros _
  have hpoint : (Digits.of d).point = (Decimal.digits d.coefficient).length + d.exponent := rfl
  have hcoefficient : Decimal.ofDigits (Digits.of d).digits * 10 ^ k = d.coefficient := by
    rw [← Decimal.ofDigits_append_zeros, ← hk, Decimal.ofDigits_digits]
  have hexponent : (Digits.of d).point - (Digits.of d).digits.length = k + d.exponent := by
    rw [hpoint, hk, List.length_append, List.length_replicate]
    omega
  rw [number, hexponent, ← Decimal.value_mul_pow, hcoefficient]

/-- A decimal other than zero has a digit. -/
theorem digits_ne_nil {d : Decimal} (h : d.value ≠ 0) : (Digits.of d).digits ≠ [] := by
  intro hnil
  have hzero : Decimal.ofDigits (Digits.of d).digits = 0 := by
    rw [hnil]
    rfl
  rw [← value_of, Decimal.value, number, hzero, Nat.cast_zero, zero_mul] at h
  exact h rfl

end Digits

-- ============================================================================
-- Decimal numbers with a point
-- ============================================================================

/-- A decimal number without a sign, as it stands in the generated code: digits on either side of
    a point, and perhaps a power of ten. -/
structure Pointed where
  whole : List Char
  fraction : List Char
  power : Option (Bool × List Char)
  whole_digits : AllDigits whole
  whole_ne_nil : whole ≠ []
  fraction_digits : AllDigits fraction
  fraction_ne_nil : fraction ≠ []
  power_digits : ∀ p ∈ power, AllDigits p.2 ∧ p.2 ≠ []

/-- A minus sign, if there is one. -/
def signChars (minus : Bool) : List Char := if minus then ['-'] else []

namespace Pointed

/-- A power of ten, if there is one. -/
def powerChars : Option (Bool × List Char) → List Char
  | none => []
  | some (minus, ds) => 'e' :: (signChars minus ++ ds)

/-- The exponent of a power of ten; none is the power zero. -/
def powerValue : Option (Bool × List Char) → Int
  | none => 0
  | some (minus, ds) => if minus then -(Decimal.ofDigits ds : Int) else Decimal.ofDigits ds

/-- The text of the number. -/
def chars (t : Pointed) : List Char := t.whole ++ '.' :: (t.fraction ++ powerChars t.power)

/-- The number. -/
def number (t : Pointed) : Decimal :=
  ⟨Decimal.ofDigits (t.whole ++ t.fraction), powerValue t.power - t.fraction.length⟩

variable (t : Pointed)

/-- A power does not start with a digit, so the digits in front of it end there. -/
theorem not_isDigit_head_powerChars (p : Option (Bool × List Char)) :
    ∀ c ∈ (powerChars p).head?, c.isDigit = false := by
  cases p with
  | none => exact nofun
  | some p =>
    intro c hc
    obtain rfl : 'e' = c := Option.some.inj hc
    rfl

theorem takeSign_signChars {minus : Bool} {c : Char} {cs : List Char} (h : c.isDigit = true) :
    takeSign (signChars minus ++ c :: cs) = (minus, c :: cs) := by
  cases minus with
  | true => rfl
  | false => exact takeSign_of_isDigit h

/-- A power is read back as the exponent it writes. -/
theorem exponent?_powerChars : exponent? (powerChars t.power) = some (powerValue t.power) := by
  have hdigits := t.power_digits
  cases hp : t.power with
  | none => rfl
  | some p =>
    obtain ⟨minus, ds⟩ := p
    obtain ⟨hall, hne⟩ := hdigits _ hp
    obtain ⟨c, cs, rfl⟩ := List.exists_cons_of_ne_nil hne
    have hc : c.isDigit = true := hall c (List.mem_cons_self ..)
    rw [powerChars, exponent?, takeSign_signChars hc]
    exact if_pos ⟨rfl, hne, List.all_eq_true.2 hall⟩

/-- The text is read as the number. -/
theorem decimal?_chars : decimal? t.chars = some t.number := by
  have hpoint : ∀ c ∈ ('.' :: (t.fraction ++ powerChars t.power)).head?, c.isDigit = false := by
    intro c hc
    obtain rfl : '.' = c := Option.some.inj hc
    rfl
  have hpower := not_isDigit_head_powerChars t.power
  have hne : t.whole ++ t.fraction ≠ [] := List.append_ne_nil_of_left_ne_nil t.whole_ne_nil _
  unfold decimal? chars
  rw [takeWhile_run t.whole_digits hpoint, dropWhile_run t.whole_digits hpoint]
  simp only [takeWhile_run t.fraction_digits hpower, dropWhile_run t.fraction_digits hpower,
    if_neg hne, t.exponent?_powerChars, Option.map_some]
  rfl

/-- With a sign in front, the text is read as the double nearest to the number, with the sign. -/
theorem double?_chars (minus : Bool) :
    double? (String.ofList (signChars minus ++ t.chars))
      = some (if minus then -t.number.toFloat else t.number.toFloat) := by
  obtain ⟨c, cs, hwhole⟩ := List.exists_cons_of_ne_nil t.whole_ne_nil
  have hc : c.isDigit = true := t.whole_digits c (hwhole ▸ List.mem_cons_self ..)
  have hchars : ∃ rest, t.chars = c :: rest := ⟨_, by rw [chars, hwhole]; rfl⟩
  obtain ⟨rest, hrest⟩ := hchars
  have hdecimal := t.decimal?_chars
  rw [hrest] at hdecimal ⊢
  unfold double?
  rw [String.toList_ofList, takeSign_signChars hc]
  dsimp only
  rw [magnitude?_of_isDigit hc, hdecimal]
  rfl

theorem not_mem_of_isDigit {cs : List Char} (h : AllDigits cs) {c : Char} (hc : c.isDigit = false) :
    c ∉ cs := by
  intro hmem
  rw [h c hmem] at hc
  cases hc

theorem not_mem_signChars (minus : Bool) : 'x' ∉ signChars minus := by
  cases minus with
  | false => exact List.not_mem_nil
  | true => exact List.not_mem_cons_of_ne_of_not_mem (by decide) List.not_mem_nil

/-- No power has the letter that hexadecimal literals have. -/
theorem not_mem_powerChars : 'x' ∉ powerChars t.power := by
  cases hp : t.power with
  | none => exact List.not_mem_nil
  | some p =>
    have hdigits := not_mem_of_isDigit (t.power_digits p hp).1 (c := 'x') rfl
    obtain ⟨minus, ds⟩ := p
    rw [powerChars, List.mem_cons, List.mem_append, not_or, not_or]
    exact ⟨by decide, not_mem_signChars minus, hdigits⟩

/-- No decimal number looks like a literal by its bits. -/
theorem not_mem_chars (minus : Bool) : 'x' ∉ signChars minus ++ t.chars := by
  rw [chars, List.mem_append, List.mem_append, List.mem_cons, List.mem_append, not_or, not_or,
    not_or, not_or]
  exact ⟨not_mem_signChars minus, not_mem_of_isDigit t.whole_digits rfl, by decide,
    not_mem_of_isDigit t.fraction_digits rfl, t.not_mem_powerChars⟩

end Pointed

-- ============================================================================
-- Layouts
-- ============================================================================

/-- A text that writes a number with a point. -/
def Spells (cs : List Char) (r : ℚ) : Prop := ∃ t : Pointed, t.chars = cs ∧ t.number.value = r

variable {d : Digits}

/-- A number below one: zeros behind the point, and the digits behind them. -/
theorem spells_small (hdigits : AllDigits d.digits) (hne : d.digits ≠ []) (h : d.point ≤ 0) :
    Spells ('0' :: '.' :: (List.replicate (-d.point).toNat '0' ++ d.digits)) d.number.value := by
  have hvalue : Decimal.ofDigits (['0'] ++ (List.replicate (-d.point).toNat '0' ++ d.digits))
      = Decimal.ofDigits d.digits := by
    rw [← List.append_assoc]
    exact Decimal.ofDigits_zeros_append ((-d.point).toNat + 1) d.digits
  refine ⟨⟨['0'], List.replicate (-d.point).toNat '0' ++ d.digits, none, allDigits_zeros 1,
    List.cons_ne_nil _ _, (allDigits_zeros _).append hdigits,
    List.append_ne_nil_of_right_ne_nil _ hne, nofun⟩, ?_, ?_⟩
  · rw [Pointed.chars, Pointed.powerChars, List.append_nil]
    rfl
  · have hexponent : (0 : Int) - (List.replicate (-d.point).toNat '0' ++ d.digits).length
        = d.point - d.digits.length := by
      rw [List.length_append, List.length_replicate]
      omega
    rw [Pointed.number, Pointed.powerValue, hvalue, hexponent]
    rfl

/-- A whole number: zeros behind the digits, and a zero behind the point. -/
theorem spells_whole (hdigits : AllDigits d.digits) (hne : d.digits ≠ [])
    (h : d.digits.length ≤ d.point.toNat) :
    Spells (d.digits ++ List.replicate (d.point.toNat - d.digits.length) '0' ++ ['.', '0'])
      d.number.value := by
  refine ⟨⟨d.digits ++ List.replicate (d.point.toNat - d.digits.length) '0', ['0'], none,
    hdigits.append (allDigits_zeros _), List.append_ne_nil_of_left_ne_nil hne _,
    allDigits_zeros 1, List.cons_ne_nil _ _, nofun⟩, rfl, ?_⟩
  have hvalue : Decimal.ofDigits
      (d.digits ++ List.replicate (d.point.toNat - d.digits.length) '0' ++ ['0'])
      = Decimal.ofDigits d.digits * 10 ^ (d.point.toNat - d.digits.length + 1) := by
    rw [List.append_assoc, show ['0'] = List.replicate 1 '0' from rfl,
      List.replicate_append_replicate, Decimal.ofDigits_append_zeros]
  have hpoint : d.digits.length ≠ 0 := fun hzero => hne (List.length_eq_zero_iff.1 hzero)
  have hexponent : ((d.point.toNat - d.digits.length + 1 : Nat) : Int) + (0 - (['0'].length : Nat))
      = d.point - d.digits.length := by
    rw [List.length_singleton]
    omega
  rw [Pointed.number, Pointed.powerValue, hvalue, Decimal.value_mul_pow, hexponent]
  rfl

/-- The point among the digits. -/
theorem spells_mixed (hdigits : AllDigits d.digits) (hpos : 0 < d.point)
    (h : d.point.toNat < d.digits.length) :
    Spells (d.digits.take d.point.toNat ++ '.' :: d.digits.drop d.point.toNat) d.number.value := by
  have htake : d.digits.take d.point.toNat ≠ [] := by
    rw [ne_eq, ← List.length_eq_zero_iff, List.length_take]
    omega
  have hdrop : d.digits.drop d.point.toNat ≠ [] := by
    rw [ne_eq, ← List.length_eq_zero_iff, List.length_drop]
    omega
  refine ⟨⟨d.digits.take d.point.toNat, d.digits.drop d.point.toNat, none,
    fun c hc => hdigits c (List.mem_of_mem_take hc), htake,
    fun c hc => hdigits c (List.mem_of_mem_drop hc), hdrop, nofun⟩, ?_, ?_⟩
  · rw [Pointed.chars, Pointed.powerChars, List.append_nil]
  · have hexponent : (0 : Int) - (d.digits.drop d.point.toNat).length
        = d.point - d.digits.length := by
      rw [List.length_drop]
      omega
    rw [Pointed.number, Pointed.powerValue, List.take_append_drop, hexponent]
    rfl

/-- The digits of an exponent, with its sign, write that exponent. -/
theorem powerValue_digits (e : Int) :
    Pointed.powerValue (some (decide (e < 0), Decimal.digits e.natAbs)) = e := by
  rw [Pointed.powerValue, Decimal.ofDigits_digits]
  split
  · next h => have := of_decide_eq_true h; omega
  · next h => have := mt decide_eq_true h; omega

/-- A power of ten behind the digits. -/
theorem spells_scientific (hdigits : AllDigits d.digits) (hne : d.digits ≠ []) :
    Spells (Layout.literal.scientific d) d.number.value := by
  have hpower : ∀ p ∈ some (decide (d.point - 1 < 0), Decimal.digits (d.point - 1).natAbs),
      AllDigits p.2 ∧ p.2 ≠ [] := by
    rintro p ⟨⟩
    exact ⟨Decimal.allDigits_digits _, Decimal.digits_ne_nil _⟩
  have hchars : Pointed.powerChars
        (some (decide (d.point - 1 < 0), Decimal.digits (d.point - 1).natAbs))
      = 'e' :: ((if d.point - 1 < 0 then ['-'] else [])
        ++ Decimal.digits (d.point - 1).natAbs) := by
    rw [Pointed.powerChars, signChars]
    simp only [decide_eq_true_eq]
  obtain ⟨c, cs, hcs⟩ := List.exists_cons_of_ne_nil hne
  have hnumber : d.number = ⟨Decimal.ofDigits (c :: cs), d.point - 1 - cs.length⟩ := by
    rw [Digits.number, hcs, List.length_cons, Nat.cast_succ, Int.sub_sub, Int.add_comm 1]
  rw [hnumber]
  rw [hcs] at hdigits
  have hfirst : AllDigits [c] := List.forall_mem_singleton.2 (hdigits c (List.mem_cons_self ..))
  unfold Layout.scientific
  rw [hcs]
  cases cs with
  | nil =>
    -- A single digit is written with a zero behind the point, which shifts its value by one
    -- place.
    refine ⟨⟨[c], ['0'], _, hfirst, List.cons_ne_nil _ _, allDigits_zeros 1, List.cons_ne_nil _ _,
      hpower⟩, ?_, ?_⟩
    · rw [Pointed.chars, hchars]
      rfl
    · have hvalue : Decimal.ofDigits ([c] ++ ['0']) = Decimal.ofDigits [c] * 10 ^ 1 :=
        Decimal.ofDigits_append_zeros [c] 1
      have hexponent : ((1 : Nat) : Int) + (d.point - 1 - (['0'].length : Nat))
          = d.point - 1 - (([] : List Char).length : Nat) := by
        rw [List.length_singleton, List.length_nil]
        omega
      rw [Pointed.number, powerValue_digits, hvalue, Decimal.value_mul_pow, hexponent]
  | cons c' cs =>
    refine ⟨⟨[c], c' :: cs, _, hfirst, List.cons_ne_nil _ _,
      fun x hx => hdigits x (List.mem_cons_of_mem _ hx), List.cons_ne_nil _ _, hpower⟩, ?_, ?_⟩
    · rw [Pointed.chars, hchars]
      exact congrArg (c :: '.' :: c' :: ·) (List.append_assoc cs (_ :: _) _).symm
    · rw [Pointed.number, powerValue_digits]
      rfl

/-- A number with its point in place spells the decimal it was made from. -/
theorem spells_placed (hdigits : AllDigits d.digits) (hne : d.digits ≠ []) :
    Spells (Layout.literal.placed d) d.number.value := by
  unfold Layout.placed
  split_ifs with hsmall hwhole
  · exact spells_small hdigits hne hsmall
  · exact spells_whole hdigits hne hwhole
  · exact spells_mixed hdigits (by omega) (by omega)

/-- The magnitude of a finite double is written as a number that is rounded to it. -/
theorem exists_chars_eq_magnitude {bits : Nat} (hbits : bits < Binary64.infinity) :
    ∃ t : Pointed, t.chars = Layout.literal.magnitude bits ∧
      Binary64.RoundsTo t.number.value bits := by
  unfold Layout.magnitude
  split
  · next hzero =>
    refine ⟨⟨['0'], ['0'], none, allDigits_zeros 1, List.cons_ne_nil _ _, allDigits_zeros 1,
      List.cons_ne_nil _ _, nofun⟩, rfl, ?_⟩
    have hvalue : Decimal.value ⟨0, -1⟩ = Binary64.value 0 := by
      rw [Decimal.value, Nat.cast_zero, zero_mul, Binary64.value_zero]
    rw [hzero]
    exact hvalue ▸ Binary64.roundsTo_value 0
  · next hnonzero =>
    -- What is written is the shortest decimal that rounds to these bits.
    have hrounds := Decimal.roundsTo_shortest bits
    have hpos := hrounds.pos (Decimal.value_nonneg _) hbits hnonzero
    have hdigits := Digits.allDigits_of (Decimal.shortest bits)
    have hne := Digits.digits_ne_nil hpos.ne'
    have hspells : Spells (if Layout.literal.positional (Digits.of (Decimal.shortest bits)).point
        then Layout.literal.placed (Digits.of (Decimal.shortest bits))
        else Layout.literal.scientific (Digits.of (Decimal.shortest bits)))
        (Digits.of (Decimal.shortest bits)).number.value := by
      split
      · exact spells_placed hdigits hne
      · exact spells_scientific hdigits hne
    obtain ⟨t, hchars, hvalue⟩ := hspells
    rw [Digits.value_of] at hvalue
    exact ⟨t, hchars, hvalue ▸ hrounds⟩

-- ============================================================================
-- Literals by bits
-- ============================================================================

/-- The upper-case hexadecimal digits, each at the place of its value. -/
def hexDigits : List Char := "0123456789ABCDEF".toList

/-- The number that hexadecimal digits write. -/
def hexValue (cs : List Char) : Nat := cs.foldl (fun n c => 16 * n + hexDigits.idxOf c) 0

/-- A text that gives bits by sixteen hexadecimal digits. -/
def ByBits (text : String) (bits : UInt64) : Prop :=
  ∃ ds, text = String.ofList ('0' :: 'x' :: ds) ∧ ds.length = 16 ∧ (∀ c ∈ ds, c ∈ hexDigits) ∧
    hexValue ds = bits.toNat

theorem hexValue_concat (cs : List Char) (c : Char) :
    hexValue (cs ++ [c]) = 16 * hexValue cs + hexDigits.idxOf c := by
  rw [hexValue, List.foldl_append]
  rfl

theorem hexValue_zeros_append (k : Nat) (cs : List Char) :
    hexValue (List.replicate k '0' ++ cs) = hexValue cs := by
  induction k with
  | zero => rfl
  | succ k ih => exact ih

theorem hexDigits_toUpper_digitChar : ∀ d < 16,
    d.digitChar.toUpper ∈ hexDigits ∧ hexDigits.idxOf d.digitChar.toUpper = d := by decide

/-- The digits of a number, in upper case. -/
theorem hexValue_toDigits (n : Nat) :
    (∀ c ∈ (Nat.toDigits 16 n).map Char.toUpper, c ∈ hexDigits) ∧
      hexValue ((Nat.toDigits 16 n).map Char.toUpper) = n := by
  induction n using Nat.strongRecOn with
  | ind n ih =>
    rw [Nat.toDigits_eq_if (by decide)]
    split
    · next hn =>
      obtain ⟨hmem, hvalue⟩ := hexDigits_toUpper_digitChar n hn
      exact ⟨List.forall_mem_singleton.2 hmem, by simp [hexValue, hvalue]⟩
    · next hn =>
      obtain ⟨hmem, hvalue⟩ := hexDigits_toUpper_digitChar (n % 16) (Nat.mod_lt n (by decide))
      obtain ⟨hfront, hfrontValue⟩ := ih (n / 16) (by omega)
      rw [List.map_append, List.map_singleton]
      refine ⟨fun c hc => ?_, ?_⟩
      · rcases List.mem_append.1 hc with hc | hc
        · exact hfront c hc
        · rwa [List.mem_singleton.1 hc]
      · rw [hexValue_concat, hfrontValue, hvalue]
        omega

/-- What is not finite is written by its bits. -/
theorem byBits_hexWord (bits : UInt64) : ByBits ("0x" ++ hexWord bits.toNat) bits := by
  obtain ⟨hmem, hvalue⟩ := hexValue_toDigits bits.toNat
  have hlength : ((Nat.toDigits 16 bits.toNat).map Char.toUpper).length ≤ 16 := by
    rw [List.length_map, Nat.length_toDigits_le_iff (by decide) (by decide)]
    exact bits.toNat_lt
  unfold hexWord
  dsimp only
  generalize (Nat.toDigits 16 bits.toNat).map Char.toUpper = ds at hmem hvalue hlength
  refine ⟨List.replicate (16 - ds.length) '0' ++ ds, ?_, ?_, ?_, ?_⟩
  · exact (String.ofList_append ..).symm
  · rw [List.length_append, List.length_replicate]
    omega
  · intro c hc
    rcases List.mem_append.1 hc with hc | hc
    · rw [List.eq_of_mem_replicate hc]
      decide
    · exact hmem c hc
  · rw [hexValue_zeros_append, hvalue]

-- ============================================================================
-- Literals
-- ============================================================================

/-- A text that gives a double by a decimal number: the number is rounded to the double, and there
    is a minus sign in front of it exactly if the sign of the double is set. -/
def ByDecimal (text : String) (x : Float) : Prop :=
  ∃ t : Pointed, text = String.ofList (signChars (Binary64.negative x) ++ t.chars) ∧
    Binary64.Nearest (Binary64.signed (Binary64.negative x) t.number.value) x

/-- Reads a literal of the generated code. -/
def ofLiteral? (text : String) : Option Float :=
  match text.toList with
  | '0' :: 'x' :: ds => some (Float.ofBits (UInt64.ofNat (hexValue ds)))
  | _ => double? text

/-- A literal with a point is read back as the double nearest to what it writes, sign apart. -/
theorem ofLiteral?_pointed (minus : Bool) (t : Pointed) :
    ofLiteral? (String.ofList (signChars minus ++ t.chars))
      = some (if minus then -t.number.toFloat else t.number.toFloat) := by
  rw [← t.double?_chars minus]
  unfold ofLiteral?
  split
  · next ds hds =>
    rw [String.toList_ofList] at hds
    refine absurd ?_ (t.not_mem_chars minus)
    rw [hds]
    exact List.mem_cons_of_mem _ (List.mem_cons_self ..)
  · rfl

variable {x : Float}

/-- A finite double is written with a point, by a decimal that is nearest to that double. -/
theorem exists_literal_eq (h : x.isFinite = true) :
    ∃ t : Pointed, literal x = String.ofList (signChars (Binary64.negative x) ++ t.chars) ∧
      Binary64.RoundsTo t.number.value (Binary64.magnitude x) := by
  obtain ⟨t, hchars, hrounds⟩ := exists_chars_eq_magnitude (Double.isFinite_iff.1 h)
  refine ⟨t, ?_, hrounds⟩
  rw [literal, if_pos h, hchars]
  rfl

/-- A number that is rounded to the pattern of a finite double is read as the double. -/
theorem toFloat_eq_of_roundsTo {d : Decimal} (h : x.isFinite = true)
    (hd : Binary64.RoundsTo d.value (Binary64.magnitude x)) :
    (if Binary64.negative x then -d.toFloat else d.toFloat) = x := by
  have hbits := Double.isFinite_iff.1 h
  have hnearest : d.nearestBits = Binary64.magnitude x :=
    d.roundsTo_nearestBits.eq hd d.nearestBits_le_infinity (Nat.le_of_lt hbits)
  have htoBits : d.toFloat.toBits.toNat = Binary64.magnitude x := by
    rw [Decimal.toFloat, hnearest, Double.toBits_ofBits hbits]
  have hinfinity : Binary64.infinity ≤ 2 ^ 63 := by decide
  have hpositive : Binary64.negative d.toFloat = false :=
    Bool.eq_false_iff.2 (mt Double.negative_iff.1 (by omega))
  have hmagnitude : Binary64.magnitude d.toFloat = Binary64.magnitude x := by
    rw [← htoBits]
    exact Nat.mod_eq_of_lt (show d.toFloat.toBits.toNat < 2 ^ 63 by omega)
  split
  · next hnegative => exact Double.neg_eq h hnegative hpositive hmagnitude
  · next hnegative =>
    apply Double.eq_of_toBits
    rw [← UInt64.toNat_inj, htoBits, Double.toNat_toBits x, if_neg hnegative, Nat.zero_add]

/-- Every literal is read back as the double it was written for. -/
theorem ofLiteral?_literal (x : Float) : ofLiteral? (literal x) = some x := by
  by_cases hfinite : x.isFinite = true
  · obtain ⟨t, ht, hrounds⟩ := exists_literal_eq hfinite
    rw [ht, ofLiteral?_pointed, toFloat_eq_of_roundsTo hfinite hrounds]
  · rw [literal, if_neg hfinite]
    obtain ⟨ds, htext, -, -, hvalue⟩ := byBits_hexWord x.toBits
    rw [htext, ofLiteral?, String.toList_ofList]
    show some (Float.ofBits (UInt64.ofNat (hexValue ds))) = some x
    rw [hvalue, UInt64.ofNat_toNat, Double.ofBits_toBits_self]

/-- No text gives a double both ways. -/
theorem not_byBits {text : String} (h : ByDecimal text x) (bits : UInt64) : ¬ ByBits text bits := by
  rintro ⟨ds, htext, -⟩
  obtain ⟨t, htext', -⟩ := h
  refine t.not_mem_chars (Binary64.negative x) ?_
  rw [← String.ofList_injective (htext.symm.trans htext')]
  exact List.mem_cons_of_mem _ (List.mem_cons_self ..)

/-- The literal of a double that is a number means the double: an infinite one is given by its bits
    and a finite one by a decimal number that is rounded to it, the literal is read back as the
    double, and no other double has the same literal. -/
theorem literal_faithful (x : Float) (h : x.isNaN = false) :
    (ByBits (literal x) x.toBits ↔ x.isInf = true) ∧
      (ByDecimal (literal x) x ↔ x.isInf = false) ∧
      ofLiteral? (literal x) = some x ∧
      ∀ y : Float, y.isNaN = false → literal y = literal x → y = x := by
  have hread := ofLiteral?_literal x
  have hunique : ∀ y : Float, y.isNaN = false → literal y = literal x → y = x := by
    intro y _ hsame
    have hready := ofLiteral?_literal y
    rw [hsame, hread] at hready
    exact (Option.some.inj hready).symm
  by_cases hfinite : x.isFinite = true
  · obtain ⟨t, ht, hrounds⟩ := exists_literal_eq hfinite
    have hdecimal : ByDecimal (literal x) x :=
      ⟨t, ht, Binary64.nearest_of_roundsTo t.number.value_nonneg hfinite hrounds⟩
    have hinf := Double.isInf_of_isFinite hfinite
    exact ⟨iff_of_false (not_byBits hdecimal _) (by rw [hinf]; decide), iff_of_true hdecimal hinf,
      hread, hunique⟩
  · have hinf := (Double.magnitude_of_not_finite h hfinite).2
    have hbits : ByBits (literal x) x.toBits := by
      rw [literal, if_neg hfinite]
      exact byBits_hexWord x.toBits
    exact ⟨iff_of_true hbits hinf,
      iff_of_false (fun hdecimal => not_byBits hdecimal _ hbits) (by rw [hinf]; decide),
      hread, hunique⟩

/-- The double next to zero on the negative side has one digit and a large power of ten. -/
theorem literal_faithful_least :
    (Float.ofBits 0x8000000000000001).isNaN = false ∧
      literal (Float.ofBits 0x8000000000000001) = "-5.0e-324" ∧
      ByDecimal "-5.0e-324" (Float.ofBits 0x8000000000000001) ∧
      ofLiteral? "-5.0e-324" = some (Float.ofBits 0x8000000000000001) := by
  have hnumber : (Float.ofBits 0x8000000000000001).isNaN = false := by decide
  have htext : literal (Float.ofBits 0x8000000000000001) = "-5.0e-324" := by decide +kernel
  obtain ⟨-, hdecimal, hread, -⟩ := literal_faithful (Float.ofBits 0x8000000000000001) hnumber
  rw [htext] at hdecimal hread
  exact ⟨hnumber, htext, hdecimal.2 (by decide), hread⟩

end Numeral

end LineBasic
