import Cleave.Literal

/-!
# Clauses and their meaning

A clause is a list of literals, read as their disjunction. `Clause.normalize`
sorts a clause, removes repeated literals and recognises tautologies.

The second half says what clauses mean. A `Valuation` gives every variable a
value; a literal, a clause and a list of clauses hold under it or not. On
this rest `Satisfiable` and `Entails`, the two notions every statement about
verdicts, learnt clauses and implied literals compares with.
-/

namespace Cleave

/-- A disjunction of literals. -/
abbrev Clause := List Lit

namespace Clause

/-- Whether two neighbours are opposite literals. In a sorted clause this
finds every tautology, as both literals of a variable stand side by side. -/
def hasOpposite : Clause → Bool
  | a :: b :: rest => a = b.neg || hasOpposite (b :: rest)
  | _ => false

/-- The sorted clause without repeated literals, or nothing for a tautology,
which never constrains anything. -/
def normalize (c : Clause) : Option Clause :=
  let sorted := squeeze (c.mergeSort Lit.ble)
  if hasOpposite sorted then none else some sorted

/-- One more than the largest index of a variable in the clause. -/
def varBound (c : Clause) : Nat :=
  c.foldl (fun bound l => max bound (l.var.index + 1)) 0

end Clause

/-! ## Meaning -/

/-- A value for every variable. -/
abbrev Valuation := Var → Bool

/-- A literal holds if its variable has its polarity. -/
def Lit.holds (ν : Valuation) (l : Lit) : Bool := ν l.var == l.positive

/-- A clause holds if one of its literals does. -/
def Clause.holds (ν : Valuation) (c : Clause) : Bool := c.any (Lit.holds ν)

/-- A list of clauses holds if all of them do. -/
def allHold (ν : Valuation) (cs : List Clause) : Bool := cs.all (Clause.holds ν)

/-- Some valuation makes all clauses true. -/
def Satisfiable (cs : List Clause) : Prop := ∃ ν, allHold ν cs = true

/-- Every valuation that makes all of `cs` true makes `c` true. -/
def Entails (cs : List Clause) (c : Clause) : Prop :=
  ∀ ν, allHold ν cs = true → c.holds ν = true

@[simp] theorem Lit.holds_neg (ν : Valuation) (l : Lit) :
    l.neg.holds ν = !l.holds ν := by
  unfold Lit.holds Lit.neg
  cases ν l.var <;> cases l.positive <;> rfl

end Cleave
