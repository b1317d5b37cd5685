import Cleave.Clause
import Cleave.Decimal.Text

/-!
# Formulas

A formula in conjunctive normal form as a file gives it: the variable count
of the header, the clauses as written, the variables to project onto, and
weights of literals. `Formula.text` is its file format: header, projection
line, weight lines, clause lines.
-/

namespace Cleave

/-- A formula in conjunctive normal form. -/
structure Formula where
  /-- The variable count of the header, which may exceed the variables used. -/
  varCount : Nat := 0
  /-- The clauses in the order of the file, unchanged. -/
  clauses : List Clause := []
  /-- The variables to project onto, if a projection is given. -/
  projection : Option (List Var) := none
  /-- Weights of literals, in the order of the file. -/
  weights : List (Lit × Float) := []

namespace Formula

instance : Inhabited Formula := ⟨{}⟩

/-- The header count or the largest variable mentioned anywhere, whichever
is larger. -/
def numVariables (f : Formula) : Nat :=
  let mentioned : List Var :=
    f.clauses.flatten.map Lit.var ++ f.projection.getD [] ++ f.weights.map (·.1.var)
  mentioned.foldl (fun bound v => max bound (v.index + 1)) f.varCount

/-- Whether a literal has a weight. -/
def isWeighted (f : Formula) : Bool := !f.weights.isEmpty

/-- The weight of a literal: the last one given, 1 without any. -/
def weightOf (f : Formula) (l : Lit) : Float :=
  match f.weights.reverse.find? fun (weighted, _) => weighted = l with
  | some (_, weight) => weight
  | none => 1.0

/-- The line of a clause: its literals, closed by a zero. -/
def clauseLine (c : Clause) : String :=
  String.join (c.map fun l => l.text ++ " ") ++ "0\n"

/-- The line of a weight. -/
def weightLine (weight : Lit × Float) : String :=
  "c p weight " ++ weight.1.text ++ " " ++ Decimal.text weight.2 ++ " 0\n"

/-- The line of a projection. -/
def projectionLine (vars : List Var) : String :=
  "c p show" ++ String.join (vars.map fun v => " " ++ v.text) ++ " 0\n"

/-- The formula as a file. -/
def text (f : Formula) : String :=
  "p cnf " ++ toString f.numVariables ++ " " ++ toString f.clauses.length ++ "\n"
    ++ (match f.projection with
        | some vars => projectionLine vars
        | none => "")
    ++ String.join (f.weights.map weightLine)
    ++ String.join (f.clauses.map clauseLine)

/-- Two formulas are alike if all their parts are, weights compared as
numbers. -/
def alike (f g : Formula) : Bool :=
  f.varCount = g.varCount && f.clauses = g.clauses && f.projection = g.projection
    && f.weights.length = g.weights.length
    && (f.weights.zip g.weights).all fun ((l, x), (m, y)) => l = m && x == y

end Formula

end Cleave
