import Cleave.Clause.Store

/-!
# The membership index

For every literal the index lists the given long clauses it occurs in,
apart by size: clauses of three literals, of four, and wider ones. For every
variable it lists the given long clauses with either of its literals.
Learnt clauses are never listed.
-/

namespace Cleave

/-- Which given long clauses a literal or variable occurs in. -/
structure Membership where
  /-- The clauses of three literals. -/
  ternary : LitTable (Array ClauseId)
  /-- The clauses of four literals. -/
  quaternary : LitTable (Array ClauseId)
  /-- The clauses of five or more literals. -/
  wide : LitTable (Array ClauseId)
  /-- The clauses of a variable, whatever its polarity there. -/
  byVar : VarTable (Array ClauseId)
  /-- The number of clauses listed. -/
  indexed : Nat
deriving Inhabited

namespace Membership

/-- The index of no clauses over no variables. -/
def empty : Membership := ⟨default, default, default, default, 0⟩

/-- Makes room for `count` variables. -/
def resize (m : Membership) (count : Nat) : Membership :=
  { m with
    ternary := m.ternary.resize count
    quaternary := m.quaternary.resize count
    wide := m.wide.resize count
    byVar := m.byVar.resize count }

/-- Lists a clause under each of the given literals in one table. -/
def listUnder (t : LitTable (Array ClauseId)) (id : ClauseId) (lits : Clause) :
    LitTable (Array ClauseId) :=
  lits.foldl (fun t l => t.modify l (·.push id)) t

/-- Adds a given long clause. -/
def insert (m : Membership) (id : ClauseId) (lits : Clause) : Membership :=
  let m := { m with
    byVar := lits.foldl (fun t (l : Lit) => t.modify l.var (·.push id)) m.byVar
    indexed := m.indexed + 1 }
  match lits.length with
  | 3 => { m with ternary := listUnder m.ternary id lits }
  | 4 => { m with quaternary := listUnder m.quaternary id lits }
  | _ => { m with wide := listUnder m.wide id lits }

/-- The index of the given long clauses of a store, over `count`
variables. -/
def ofStore (store : ClauseStore) (count : Nat) : Membership :=
  store.givenLong.foldl (fun m (id, c) => m.insert id c.lits) (empty.resize count)

/-- The given long clauses with a literal, the narrow ones first. -/
def ofLit (m : Membership) (l : Lit) : List ClauseId :=
  m.ternary[l].toList ++ m.quaternary[l].toList ++ m.wide[l].toList

/-- The given long clauses with a variable. -/
def ofVar (m : Membership) (v : Var) : List ClauseId := m.byVar[v].toList

end Membership

end Cleave
