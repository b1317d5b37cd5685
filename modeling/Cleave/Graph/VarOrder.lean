import Cleave.Graph.Basic

/-!
# Static variable orders

A static order gives every variable a rank; smaller ranks are branched on
first. `VarOrder.ofElimination` turns an elimination order around and lets the
variables that were not eliminated follow by decreasing weight.
-/

namespace Cleave

/-- A ranking of the variables. -/
structure VarOrder where
  /-- The rank of every variable. -/
  ranks : VarTable Nat
deriving Inhabited

namespace VarOrder

/-- The order of no variables. -/
def empty : VarOrder := ⟨default⟩

/-- Gives `count` variables a rank; new ones come last, by index. -/
def resize (o : VarOrder) (count : Nat) : VarOrder :=
  let old := o.ranks.size
  ⟨((Var.range count).drop old).foldl (fun t v => t.set v v.index) (o.ranks.resize count)⟩

/-- The rank of a variable, if it has one. -/
def rank? (o : VarOrder) (v : Var) : Option Nat := o.ranks.entries[v.index]?

/-- The variables in branching order. -/
def vars (o : VarOrder) : List Var :=
  (Var.range o.ranks.size).mergeSort fun v w => o.ranks[v] ≤ o.ranks[w]

/-- The order that starts with the variables eliminated last; the others
follow by decreasing weight, equal weights by index. An undefined weight
counts as 0. -/
def ofElimination (elimination : List Var) (weights : VarTable Float) (count : Nat) : VarOrder :=
  let placed := VarTable.marking count elimination
  let weight (v : Var) : Float := let w := weights[v]; if w.isNaN then 0.0 else w
  let rest := ((Var.range count).filter fun v => !placed[v]).mergeSort
    fun v w => weight w ≤ weight v
  let order := elimination.reverse ++ rest
  ⟨order.zipIdx.foldl (fun t (v, rank) => t.set v rank) (VarTable.sized count)⟩

end VarOrder

end Cleave
