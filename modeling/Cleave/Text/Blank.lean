/-!
# Blanks, words and lines

Text written by other programs is taken apart at blanks and line ends. A
blank is a character with the property `White_Space`. A line ends with a line
feed, and a carriage return right before the line feed belongs to the line
end; what follows the last line feed is a line only if it is not empty.
-/

namespace Cleave.Text

/-- Characters with the property `White_Space`. -/
def isBlank (c : Char) : Bool :=
  let n := c.toNat
  (9 ≤ n && n ≤ 13) || n = 0x20 || n = 0x85 || n = 0xa0 || n = 0x1680
    || (0x2000 ≤ n && n ≤ 0x200a) || n = 0x2028 || n = 0x2029 || n = 0x202f
    || n = 0x205f || n = 0x3000

/-- The text without blanks at its ends. -/
def trim (cs : List Char) : List Char :=
  ((cs.dropWhile isBlank).reverse.dropWhile isBlank).reverse

/-- The text without blanks at its right end. -/
def trimRight (cs : List Char) : List Char :=
  (cs.reverse.dropWhile isBlank).reverse

/-- The maximal runs of characters that `p` does not separate. -/
def runs {α : Type} (p : α → Bool) (cs : List α) : List (List α) :=
  go cs []
where
  /-- Collects the current run backwards. -/
  go : List α → List α → List (List α)
    | [], [] => []
    | [], run => [run.reverse]
    | c :: rest, run =>
      if p c then
        match run with
        | [] => go rest []
        | run => run.reverse :: go rest []
      else go rest (c :: run)

/-- The words of a text: its maximal runs without blanks. -/
def words (cs : List Char) : List (List Char) := runs isBlank cs

/-- Drops a carriage return at the end of a line, given backwards. -/
def finishLine : List Char → List Char
  | '\r' :: line => line.reverse
  | line => line.reverse

/-- The lines of a text. -/
def lines (cs : List Char) : List (List Char) :=
  go cs []
where
  /-- Collects the current line backwards. -/
  go : List Char → List Char → List (List Char)
    | [], [] => []
    | [], line => [line.reverse]
    | '\n' :: rest, line => finishLine line :: go rest []
    | c :: rest, line => go rest (c :: line)

end Cleave.Text
