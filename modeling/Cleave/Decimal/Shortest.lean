/-!
# The fewest digits that read back

A finite double `m · 2 ^ q` is the nearest double of every real number in an
interval around it: half way to its neighbours, the ends included if `m` is
even. `shortest` finds a decimal in that interval with as few digits as
possible and, of those, the one nearest to the double; of two equally near
ones the larger. It tries one digit, then two, and so on: on each decimal
grid only the two neighbours of the double have to be tested, because if any
point of the grid lies in the interval, one of them does. Seventeen digits
always suffice.

Everything is computed with natural numbers. The double and its interval are
measured in units of `2 ^ (q - 2)`, in which the double is `4 m`.
-/

namespace Cleave.Decimal

/-- A magnitude `digits · 10 ^ exponent`. -/
structure Digits where
  /-- The digits, read as one number. -/
  digits : Nat
  /-- The power of ten of the last digit. -/
  exponent : Int

/-- The interval of a double in units of a quarter of its last place, as a
fraction of the grid `10 ^ k`: a value `x` of the grid is the point
`x · grid`, and the double is the point `value`. -/
structure Window where
  /-- The double. -/
  value : Nat
  /-- The lower end of the interval. -/
  low : Nat
  /-- The upper end of the interval. -/
  high : Nat
  /-- Whether the ends belong to the interval. -/
  closed : Bool
  /-- The distance of two neighbours on the grid. -/
  grid : Nat

/-- Whether the grid point `x` lies in the interval. -/
def Window.holds (w : Window) (x : Nat) : Bool :=
  let p := x * w.grid
  if w.closed then w.low ≤ p && p ≤ w.high else w.low < p && p < w.high

/-- The grid point in the interval that is nearest to the double, the larger
one if both neighbours are equally near. -/
def Window.nearest? (w : Window) : Option Nat :=
  let down := w.value / w.grid
  let up := down + 1
  match w.holds down, w.holds up with
  | true, true =>
    if w.value - down * w.grid < up * w.grid - w.value then some down else some up
  | true, false => some down
  | false, true => some up
  | false, false => none

/-- The interval of `m · 2 ^ q` on the grid `10 ^ k`. Below a power of two
the doubles lie twice as close, so the interval is narrower there. -/
def window (m : Nat) (q k : Int) : Window :=
  let lowGap := if m = Nat.pow 2 52 && -1074 < q then 1 else 2
  -- multiply everything by the powers that keep it whole
  let two := Nat.pow 2 (q - 2).toNat
  let grid := Nat.pow 10 k.toNat * Nat.pow 2 (2 - q).toNat
  let ten := Nat.pow 10 (-k).toNat
  let unit := two * ten
  { value := 4 * m * unit
    low := (4 * m - lowGap) * unit
    high := (4 * m + 2) * unit
    closed := m % 2 = 0
    grid := grid }

/-- Tries the grids from `k` downwards, at most `tries` of them. -/
def shortestFrom (m : Nat) (q : Int) : Nat → Int → Digits
  | 0, k => ⟨(window m q k).value / (window m q k).grid, k⟩
  | tries + 1, k =>
    match (window m q k).nearest? with
    | some digits => ⟨digits, k⟩
    | none => shortestFrom m q tries (k - 1)

/-- The position of the first digit of `m · 2 ^ q`: the largest `k` with
`10 ^ k` not above it. -/
def leadingPlace (m : Nat) (q : Int) : Int :=
  let num := m * Nat.pow 2 q.toNat
  let den := Nat.pow 2 (-q).toNat
  if den ≤ num then (toString (num / den)).length - 1
  else
    -- `den / num` is above 1: count the zeros after the point
    0 - (toString ((den - 1) / num)).length

/-- The fewest digits that read back as the positive double `m · 2 ^ q`. -/
def shortest (m : Nat) (q : Int) : Digits :=
  shortestFrom m q 18 (leadingPlace m q + 1)

end Cleave.Decimal
