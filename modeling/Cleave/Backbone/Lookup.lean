import Cleave.Backbone.Procedure
import Cleave.Table

/-!
# Variables of a SAT procedure by name

A SAT procedure makes its own variables. `LookupSolver` maps variables to them: a
variable gets one the first time a literal of it is looked up. Clauses and assumptions
are translated literal by literal, and a model is read back variable by variable.
-/

namespace Cleave

/-- A SAT procedure with the literals it uses for variables. -/
structure LookupSolver (P : SatProcedure) where
  /-- The state of the procedure. -/
  sat : P.State
  /-- The positive literals of the variables that were looked up. -/
  mapped : VarTable (Option P.Literal)

namespace LookupSolver

variable {P : SatProcedure}

/-- No clauses, for `count` variables. -/
def new (P : SatProcedure) (count : Nat) : LookupSolver P := ⟨P.start, VarTable.sized count⟩

/-- The positive literal of a variable, which is made on first use. -/
def lookupVar (t : LookupSolver P) (v : Var) : P.Literal × LookupSolver P :=
  match t.mapped[v] with
  | some x => (x, t)
  | none =>
    let (x, sat) := P.addVariable t.sat
    (x, ⟨sat, t.mapped.set v (some x)⟩)

/-- The procedure's literal for a literal. -/
def lookup (t : LookupSolver P) (l : Lit) : P.Literal × LookupSolver P :=
  let (x, t) := t.lookupVar l.var
  (if l.positive then x else P.neg x, t)

/-- Looks up several literals, in order. -/
def lookupAll (t : LookupSolver P) : List Lit → List P.Literal × LookupSolver P
  | [] => ([], t)
  | l :: rest =>
    let (x, t) := t.lookup l
    let (xs, t) := t.lookupAll rest
    (x :: xs, t)

/-- Adds a clause. -/
def addClause (t : LookupSolver P) (c : Clause) : LookupSolver P :=
  let (xs, t) := t.lookupAll c
  { t with sat := P.addClause t.sat xs }

/-- Tells whether the clauses have a model in which some literals are true. -/
def solve (t : LookupSolver P) (assumptions : List Lit) :
    Except String (Bool × LookupSolver P) := do
  let (xs, t) := t.lookupAll assumptions
  let (satisfiable, sat) ← P.solve t.sat xs
  return (satisfiable, { t with sat := sat })

/-- The literal of a variable that a model of the procedure has. -/
def valueIn (t : LookupSolver P) (model : List P.Literal) (v : Var) : Option Lit :=
  t.mapped[v].bind fun x =>
    if model.contains x then some v.pos
    else if model.contains (P.neg x) then some v.neg
    else none

/-- A model of the procedure, by variable. A variable that it leaves open is left out. -/
def readBack (t : LookupSolver P) (model : List P.Literal) : List Lit :=
  (Var.range t.mapped.size).filterMap (t.valueIn model)

/-- The model found last. -/
def originalModel (t : LookupSolver P) : Option (List Lit) := (P.model t.sat).map t.readBack

end LookupSolver

end Cleave
