import Cleave.Clause.Store

/-!
# Components

A component is a set of variables together with the given long clauses
over them. Given binary clauses between its variables belong to it without
being listed.
-/

namespace Cleave

/-- A set of variables with given long clauses over them. -/
structure Component where
  /-- The variables, ascending. -/
  vars : List Var
  /-- The clauses, ascending. -/
  clauses : List ClauseId
deriving DecidableEq

namespace Component

instance : Inhabited Component := ⟨⟨[], []⟩⟩

/-- The component of some variables and clauses, in any order. -/
def ofLists (vars : List Var) (clauses : List ClauseId) : Component :=
  ⟨squeeze (vars.mergeSort Var.ble), squeeze (clauses.mergeSort (· ≤ ·))⟩

/-- The number of variables. -/
def size (c : Component) : Nat := c.vars.length

/-- Whether there are no variables. -/
def isEmpty (c : Component) : Bool := c.vars.isEmpty

/-- Whether a variable belongs to the component. -/
def contains (c : Component) (v : Var) : Bool := c.vars.contains v

/-- The variables of the component beyond the first `count` ones. -/
def unknownVar? (c : Component) (count : Nat) : Option Var :=
  c.vars.find? fun v => count ≤ v.index

end Component

/-- A component taken apart. -/
structure Decomposition where
  /-- The connected pieces, by ascending number of variables. -/
  components : List Component
  /-- Open variables without any active clause. -/
  free : List Var

end Cleave
