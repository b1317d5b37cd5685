import Cleave.Graph.MinFill
import Cleave.Marks
import Cleave.Solver.State

/-!
# The primal graph of a component

The vertices are the open variables of the component. Two of them are
adjacent if they occur together in a given binary clause or in a
given long clause of the component that is not satisfied. Both traversals
give the same neighbours; the uniform one lists them in ascending order, the
other one goes through the clauses table by table and relies on every clause
having the number of literals it is filed under.
-/

namespace Cleave.Solver

/-- The open variables of a component. -/
def openVars (s : Solver) (c : Component) : List Var :=
  c.vars.filter fun v => !s.trail.isAssigned v

/-- The neighbours of a vertex so far, latest first, with marks on them. -/
structure Neighbourhood where
  /-- The neighbours found and the vertex itself. -/
  marks : Marks
  /-- The neighbours found, latest first. -/
  found : List Var

/-- Adds a variable to a neighbourhood, if it is a vertex that was not met
before. -/
def Neighbourhood.add (isVertex : VarTable Bool) (n : Neighbourhood) (v : Var) : Neighbourhood :=
  if isVertex[v] then
    match n.marks.mark v with
    | (true, marks) => ⟨marks, v :: n.found⟩
    | (false, _) => n
  else n

/-- Adds the variables of a long clause to a neighbourhood. -/
def addClauseVars (s : Solver) (isVertex : VarTable Bool) (n : Neighbourhood)
    (filed : Option Nat × ClauseId) : Except Fault Neighbourhood := do
  let lits ← s.filedLits filed
  return lits.foldl (fun n l => n.add isVertex l.var) n

/-- The neighbours of a vertex, found with cleared marks. -/
def neighboursOf (s : Solver) (isVertex : VarTable Bool) (isActive : ClauseId → Bool)
    (traversal : Traversal) (marks : Marks) (v : Var) : Except Fault Neighbourhood :=
  let start : Neighbourhood := ⟨(marks.clear.mark v).2, []⟩
  let partners := v.lits.flatMap s.store.partners
  let viaBinary := partners.foldl (fun n l => n.add isVertex l.var) start
  ((s.filedOf v traversal).filter fun filed => isActive filed.2).foldlM
    (s.addClauseVars isVertex) viaBinary

/-- The primal graph of a component under the current assignment, found with
marks that earlier traversals left behind and later ones may use again. -/
def primalGraphWith (s : Solver) (marks : Marks) (c : Component) (traversal : Traversal) :
    Except Fault (Marks × Graph) := do
  s.requireVars c
  let vertices := s.openVars c
  let isVertex := VarTable.marking s.varCount vertices
  let listed := c.clauses.foldl (fun t id => t.setIfInBounds id true)
    (Array.replicate s.store.long.size false)
  let isActive (id : ClauseId) : Bool := listed.getD id false && !s.isSatisfied id
  let (marks, adjacency) ← vertices.foldlM
    (fun (marks, adjacency) v => do
      let n ← s.neighboursOf isVertex isActive traversal marks v
      let found := n.found.reverse
      let found := match traversal with
        | .uniform => found.mergeSort Var.ble
        | .arityClassed => found
      return (n.marks, adjacency.set v found))
    (marks, (VarTable.sized s.varCount : VarTable (List Var)))
  return (marks, ⟨vertices, adjacency⟩)

/-- The primal graph of a component under the current assignment. It does not
depend on the marks, so fresh ones will do. -/
def primalGraph (s : Solver) (c : Component) (traversal : Traversal) : Except Fault Graph :=
  (s.primalGraphWith (Marks.empty.resize s.varCount) c traversal).map (·.2)

end Cleave.Solver
