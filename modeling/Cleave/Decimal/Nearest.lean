/-!
# The double nearest to a fraction

A positive double is `m · 2 ^ q` with `m < 2 ^ 53` and `q ≥ -1074`, and its
bit pattern is `(q + 1074) · 2 ^ 52 + m` whenever `2 ^ 52 ≤ m` or `q = -1074`.
Rounding a fraction to the nearest double, a half to the even neighbour, is
therefore one division with the right `q`: if the rounded `m` reaches
`2 ^ 53`, the pattern carries into the exponent by itself.
-/

namespace Cleave.Decimal

/-- The bit pattern of positive infinity. -/
def infinityBits : Nat := 0x7ff0000000000000

/-- The quotient rounded to the nearest whole number, a half to the even
one. -/
def roundHalfEven (num den : Nat) : Nat :=
  let q := num / den
  let twice := 2 * (num % den)
  if den < twice || (twice = den && q % 2 = 1) then q + 1 else q

/-- `num / (den · 2 ^ q)` as a fraction. -/
def scaled (num den : Nat) (q : Int) : Nat × Nat :=
  if 0 ≤ q then (num, den * Nat.pow 2 q.toNat) else (num * Nat.pow 2 (-q).toNat, den)

/-- The bit pattern of the double nearest to `num / den`. -/
def nearestBits (num den : Nat) : Nat :=
  if num = 0 || den = 0 then 0
  else
    -- the fraction lies strictly between `2 ^ (e - 1)` and `2 ^ (e + 1)`
    let e : Int := num.log2 - den.log2
    let below := let (n, d) := scaled num den e; n < d
    let e := if below then e - 1 else e
    let q := max (e - 52) (-1074)
    let (n, d) := scaled num den q
    min infinityBits ((q + 1074).toNat * Nat.pow 2 52 + roundHalfEven n d)

/-- The bit pattern of the double nearest to `digits · 10 ^ exponent`.
Exponents far beyond the range are settled without computing the power. -/
def nearestBitsOfDecimal (digits : Nat) (exponent : Int) : Nat :=
  let size : Int := (toString digits).length
  if digits = 0 then 0
  else if 310 < exponent + size then infinityBits
  else if exponent + size < -330 then 0
  else if 0 ≤ exponent then nearestBits (digits * Nat.pow 10 exponent.toNat) 1
  else nearestBits digits (Nat.pow 10 (-exponent).toNat)

/-- The double with a sign and the bit pattern of its magnitude. -/
def signed (negative : Bool) (bits : Nat) : Float :=
  Float.ofBits ((if negative then 0x8000000000000000 else 0) ||| bits.toUInt64)

/-- The double nearest to `± digits · 10 ^ exponent`. -/
def nearest (negative : Bool) (digits : Nat) (exponent : Int) : Float :=
  signed negative (nearestBitsOfDecimal digits exponent)

end Cleave.Decimal
