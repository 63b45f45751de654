/-
  LineBasic.Decimal.Shortest

  The decimal number with the fewest digits that reads back as a given double.
  Every number strictly between the midpoints to the two neighbouring doubles
  reads back as the double, and so do the midpoints themselves when its pattern
  is even.  Numbers with one digit are tried first, then with two, and so on;
  with `k` digits the only candidates are the two nearest to the double from
  below and from above.  Of two that read back the nearer is taken, and the
  larger one when both are equally near.
-/

import LineBasic.Decimal.Binary64

namespace LineBasic.Decimal

/-- Powers of ten by which everything is scaled, so that no grid of decimals is
    finer than one. -/
def gridPlaces : Nat := 400

/-- The double behind a pattern, its interval of numbers that read back as it,
    and the scale, all in quarters of `2 ^ -1074 * 10 ^ -400`. -/
structure Interval where
  value : Nat
  low : Nat
  high : Nat
  closed : Bool

namespace Interval

/-- The interval of a finite pattern other than zero.  Below a power of two the
    neighbour is only half as far away. -/
def ofBits (bits : Nat) : Interval :=
  let space := Binary64.spacing bits * Nat.pow 10 gridPlaces
  let value := 4 * (Binary64.units bits * Nat.pow 10 gridPlaces)
  let narrow := Binary64.fractionField bits = 0 ∧ 1 < Binary64.exponentField bits
  { value
    low := value - (if narrow then space else 2 * space)
    high := value + 2 * space
    closed := bits % 2 = 0 }

/-- Whether a number reads back as the double. -/
def contains (i : Interval) (n : Nat) : Bool :=
  if i.closed then i.low ≤ n && n ≤ i.high else i.low < n && n < i.high

/-- The multiple of `grid` that reads back as the double, chosen from the two
    multiples around the double; `none` when neither does. -/
def onGrid? (i : Interval) (grid : Nat) : Option Nat :=
  let below := i.value / grid
  let above := below + 1
  match i.contains (below * grid), i.contains (above * grid) with
  | true, true => some (if i.value - below * grid < above * grid - i.value then below else above)
  | true, false => some below
  | false, true => some above
  | false, false => none

end Interval

/-- The whole expansion of a finite pattern. -/
def exact (bits : Nat) : Decimal :=
  ⟨Binary64.units bits * Nat.pow 5 Binary64.unitBits, -(Binary64.unitBits : Int)⟩

/-- The shortest decimal number that reads back as a finite pattern. -/
def shortest (bits : Nat) : Decimal :=
  let interval := Interval.ofBits bits
  let one := 4 * Nat.pow 2 Binary64.unitBits
  let places := (digits (interval.value / one)).length
  let tried := (List.range 17).findSome? fun k =>
    let power := places - (k + 1)
    (interval.onGrid? (one * Nat.pow 10 power)).map fun n =>
      (⟨n, (power : Int) - gridPlaces⟩ : Decimal)
  tried.getD (exact bits)

end LineBasic.Decimal
