import Cleave.Decimal.Nearest
import Cleave.Decimal.Shortest

/-!
# Doubles as text

A double is written with the fewest digits that read back, always
positionally and never with an exponent; a whole number has no point. The
sign of zero is written. Reading accepts an optional sign, digits with an
optional point and an optional exponent, and the names of infinity and of the
undefined value in any case; the result is the nearest double.
-/

namespace Cleave.Decimal

/-- Digits in positional notation. -/
def positional (d : Digits) : String :=
  let digits := toString d.digits
  if 0 ≤ d.exponent then digits ++ String.ofList (List.replicate d.exponent.toNat '0')
  else
    let places := (-d.exponent).toNat
    let whole := digits.length - places
    let filled := List.replicate (places - digits.length) '0' ++ digits.toList.drop whole
    (if whole = 0 then "0" else String.ofList (digits.toList.take whole)) ++ "."
      ++ String.ofList filled

/-- Drops zeros at the end of the digits. -/
def Digits.strip (d : Digits) : Digits :=
  go d.digits d.exponent (toString d.digits).length
where
  /-- Drops at most `fuel` zeros. -/
  go (digits : Nat) (exponent : Int) : Nat → Digits
    | 0 => ⟨digits, exponent⟩
    | fuel + 1 =>
      if digits % 10 = 0 && digits ≠ 0 then go (digits / 10) (exponent + 1) fuel
      else ⟨digits, exponent⟩

/-- The text of a double. -/
def text (x : Float) : String :=
  if x.isNaN then "NaN"
  else
    let bits := x.toBits.toNat
    let magnitude := bits % Nat.pow 2 63
    let sign := if bits < Nat.pow 2 63 then "" else "-"
    let place : Nat := magnitude / Nat.pow 2 52
    let fraction : Nat := magnitude % Nat.pow 2 52
    if magnitude = infinityBits then sign ++ "inf"
    else if magnitude = 0 then sign ++ "0"
    else if place = 0 then sign ++ positional (shortest fraction (-1074)).strip
    else sign ++ positional (shortest (Nat.pow 2 52 + fraction) ((place : Int) - 1075)).strip

/-! ## Reading -/

/-- Splits a leading sign off; true for a minus sign. -/
def splitSign : List Char → Bool × List Char
  | '+' :: rest => (false, rest)
  | '-' :: rest => (true, rest)
  | cs => (false, cs)

/-- The value of a run of digits, which may be empty. -/
def digitsValue (cs : List Char) : Nat :=
  cs.foldl (fun n c => 10 * n + (c.toNat - '0'.toNat)) 0

/-- The exponent after a mantissa: none, or `e` with a signed nonempty run
of digits up to the end. -/
def readExponent? : List Char → Option Int
  | [] => some 0
  | c :: rest =>
    if c = 'e' || c = 'E' then
      let (negative, digits) := splitSign rest
      if digits.isEmpty || !digits.all Char.isDigit then none
      else some (if negative then -(digitsValue digits : Int) else digitsValue digits)
    else none

/-- The digits after a point, if there is one, and what follows. -/
def splitFraction : List Char → List Char × List Char
  | '.' :: rest => (rest.takeWhile Char.isDigit, rest.dropWhile Char.isDigit)
  | cs => ([], cs)

/-- Reads a double. -/
def read? (cs : List Char) : Option Float :=
  let (negative, body) := splitSign cs
  let lower := body.map Char.toLower
  if lower = "inf".toList || lower = "infinity".toList then some (signed negative infinityBits)
  else if lower = "nan".toList then some (0.0 / 0.0)
  else
    let whole := body.takeWhile Char.isDigit
    let (fraction, rest) := splitFraction (body.dropWhile Char.isDigit)
    if whole.isEmpty && fraction.isEmpty then none
    else
      (readExponent? rest).map fun exponent =>
        nearest negative (digitsValue (whole ++ fraction)) (exponent - fraction.length)

end Cleave.Decimal
