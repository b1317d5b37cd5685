/-!
# Variables and literals

A variable is known by its index, counted from zero; people and files number
variables from one. A literal is a variable with a polarity. Literals are
ordered by variable first and polarity second, the positive literal before
the negative one, so that the two literals of a variable are neighbours in
every sorted list.

The largest variable is the one whose number still fits a signed 32-bit
integer; `Var.ofIndex?`, `Var.ofNumber?` and `Lit.ofNumber?` refuse
everything beyond it, and zero, which ends a clause and names no literal.
-/

namespace Cleave

/-- A propositional variable, known by its index. -/
structure Var where
  /-- The position of the variable, counted from zero. -/
  index : Nat
deriving DecidableEq, Inhabited

/-- A literal: a variable together with the value that makes it true. -/
structure Lit where
  /-- The variable of the literal. -/
  var : Var
  /-- Whether the literal is true when its variable is. -/
  positive : Bool
deriving DecidableEq, Inhabited

namespace Var

/-- The index of the largest variable. -/
def maxIndex : Nat := 2147483646

/-- The variable at an index, unless the index is too large. -/
def ofIndex? (index : Nat) : Option Var :=
  if index ≤ maxIndex then some ⟨index⟩ else none

/-- The variable with a number as files write it, counted from one. -/
def ofNumber? (number : Int) : Option Var :=
  if 0 < number then ofIndex? (number.toNat - 1) else none

/-- The number of the variable as files write it. -/
def number (v : Var) : Nat := v.index + 1

/-- The literal of this variable that is true under `value`. -/
def lit (v : Var) (value : Bool) : Lit := ⟨v, value⟩

/-- The literal that is true when the variable is. -/
def pos (v : Var) : Lit := ⟨v, true⟩

/-- The literal that is true when the variable is not. -/
def neg (v : Var) : Lit := ⟨v, false⟩

/-- Both literals of the variable, the positive one first. -/
def lits (v : Var) : List Lit := [v.pos, v.neg]

/-- The variables with an index below `count`, in ascending order. -/
def range (count : Nat) : List Var := (List.range count).map Var.mk

/-- The text of a variable is its number. -/
def text (v : Var) : String := toString v.number

/-- Variables are ordered by their index. -/
def ble (v w : Var) : Bool := v.index ≤ w.index

end Var

namespace Lit

/-- The rank of a literal among all literals: variable first, then
polarity, the positive literal before the negative one. -/
def code (l : Lit) : Nat := 2 * l.var.index + if l.positive then 0 else 1

/-- The literal of a rank. -/
def ofCode (code : Nat) : Lit := ⟨⟨code / 2⟩, code % 2 == 0⟩

/-- The opposite literal. -/
def neg (l : Lit) : Lit := ⟨l.var, !l.positive⟩

/-- The literal of a nonzero number as files write it, negative for a
negative literal. -/
def ofNumber? (number : Int) : Option Lit :=
  (Var.ofNumber? (if 0 < number then number else -number)).map
    fun v => v.lit (0 < number)

/-- The number of the literal as files write it. -/
def number (l : Lit) : Int :=
  if l.positive then (l.var.number : Int) else -(l.var.number : Int)

/-- The text of a literal is its number. -/
def text (l : Lit) : String := toString l.number

/-- Literals are ordered by their rank. -/
def ble (l m : Lit) : Bool := l.code ≤ m.code

/-- A strict comparison by rank. -/
def blt (l m : Lit) : Bool := l.code < m.code

@[simp] theorem neg_neg (l : Lit) : l.neg.neg = l := by
  cases l; simp [neg]

@[simp] theorem var_neg (l : Lit) : l.neg.var = l.var := rfl

@[simp] theorem ofCode_code (l : Lit) : ofCode l.code = l := by
  obtain ⟨⟨i⟩, b⟩ := l
  cases b
  · simp [ofCode, code]; omega
  · simp [ofCode, code]

end Lit

/-- The text of a list of literals: in parentheses, separated by blanks. -/
def litsText (lits : List Lit) : String :=
  "(" ++ " ".intercalate (lits.map Lit.text) ++ ")"

/-- Removes repetitions that stand next to each other, so that of a sorted
list every element is left once. -/
def squeeze {α : Type} [DecidableEq α] : List α → List α
  | a :: b :: rest => if a = b then squeeze (b :: rest) else a :: squeeze (b :: rest)
  | short => short

end Cleave
