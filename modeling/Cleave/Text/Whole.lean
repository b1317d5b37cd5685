/-!
# Whole numbers in text

Three grammars of whole numbers: counts with an optional plus sign, signed
integers, and counts of any size in which digits may be grouped by
underscores. A number outside its range is refused like a malformed one.
-/

namespace Cleave.Text

/-- The value of a nonempty run of decimal digits. -/
def digits? (cs : List Char) : Option Nat :=
  if cs.isEmpty || !cs.all Char.isDigit then none
  else some (cs.foldl (fun n c => 10 * n + (c.toNat - '0'.toNat)) 0)

/-- A count below `2 ^ 64`, with an optional plus sign. -/
def count? (cs : List Char) : Option Nat :=
  let value := match cs with
    | '+' :: rest => digits? rest
    | _ => digits? cs
  value.filter (· < Nat.pow 2 64)

/-- An integer in the signed 64-bit range, with an optional sign. -/
def integer? (cs : List Char) : Option Int :=
  let value : Option Int := match cs with
    | '+' :: rest => (digits? rest).map Int.ofNat
    | '-' :: rest => (digits? rest).map fun n => -(n : Int)
    | _ => (digits? cs).map Int.ofNat
  value.filter fun n => decide (-(Nat.pow 2 63 : Int) ≤ n ∧ n < (Nat.pow 2 63 : Int))

/-- A count of any size, with an optional plus sign. Underscores between and
after the digits are skipped, but the first character is a digit. -/
def groupedCount? (cs : List Char) : Option Nat :=
  let body := match cs with
    | '+' :: rest => rest
    | _ => cs
  match body with
  | '_' :: _ => none
  | _ => digits? (body.filter (· != '_'))

end Cleave.Text
