import Cleave.Solver.State

/-!
# Taking components apart

Under an assignment, a component falls into connected pieces: two open
variables belong together if they share a given binary clause or a
given long clause of the component that is not satisfied. The pieces are
found by flood fill. A variable without any active clause is free. As for the
primal graph, one of the two traversals relies on every clause having the number
of literals it is filed under.
-/

namespace Cleave.Solver

/-- Whether a variable occurs in a given clause. -/
def occurs (s : Solver) (v : Var) : Bool :=
  !(s.membership.ofVar v).isEmpty || v.lits.any fun l => !(s.store.partners l).isEmpty

/-- The variables and given long clauses left after the root facts.
Variables without any clause are dropped. -/
def initComponent (s : Solver) : Component :=
  let isFixed (v : Var) : Bool := s.trail.isAssigned v && s.trail.levelOf v = 0
  let holds (l : Lit) : Bool := s.trail.isTrue l && s.trail.levelOf l.var = 0
  .ofLists ((Var.range s.varCount).filter fun v => !isFixed v && s.occurs v)
    ((s.store.givenLong.filter fun (_, c) => !c.lits.any holds).map (·.1))

/-- The open variables and active given long clauses. -/
def currentComponent (s : Solver) : Component :=
  .ofLists ((Var.range s.varCount).filter fun v => !s.trail.isAssigned v && s.occurs v)
    ((s.store.givenLong.filter fun (id, _) => !s.isSatisfied id).map (·.1))

/-- A flood fill under way. -/
structure Fill where
  /-- Open variables of the source not reached yet. -/
  pendingVars : VarTable Bool
  /-- Active clauses of the source not reached yet. -/
  pendingClauses : Array Bool
  /-- Variables reached whose clauses are still to be followed. -/
  stack : List Var
  /-- The variables of the current piece. -/
  vars : List Var
  /-- The clauses of the current piece. -/
  clauses : List ClauseId

/-- Reaches a variable. -/
def Fill.reachVar (f : Fill) (v : Var) : Fill :=
  if f.pendingVars[v] then
    { f with
      pendingVars := f.pendingVars.set v false
      stack := v :: f.stack
      vars := v :: f.vars }
  else f

/-- Takes a clause off the table. -/
def Fill.takeClause (f : Fill) (id : ClauseId) : Fill :=
  { f with pendingClauses := f.pendingClauses.setIfInBounds id false, clauses := id :: f.clauses }

/-- Reaches a clause, and with it its variables. -/
def reachClause (s : Solver) (f : Fill) (filed : Option Nat × ClauseId) : Except Fault Fill :=
  if f.pendingClauses.getD filed.2 false then do
    let lits ← s.filedLits filed
    return lits.foldl (fun f l => f.reachVar l.var) (f.takeClause filed.2)
  else .ok f

/-- Follows the clauses of a variable. Binary clauses that are satisfied or
unit connect nothing. -/
def follow (s : Solver) (f : Fill) (v : Var) : Except Fault Fill :=
  let partners := (v.lits.flatMap s.store.partners).filter fun l => !s.trail.isAssigned l.var
  let viaBinary := partners.foldl (fun f l => f.reachVar l.var) f
  (s.filedOf v s.options.traversal).foldlM s.reachClause viaBinary

/-- Follows up to `fuel` reached variables. -/
def flood (s : Solver) : Nat → Fill → Except Fault Fill
  | 0, f => .ok f
  | fuel + 1, f =>
    match f.stack with
    | [] => .ok f
    | v :: stack => do flood s fuel (← s.follow { f with stack := stack } v)

/-- The piece of a variable that was not reached yet. Every variable is
reached at most once. -/
def fillFrom (s : Solver) (f : Fill) (root : Var) : Except Fault Fill :=
  s.flood s.varCount ({ f with stack := [], vars := [], clauses := [] }.reachVar root)

/-- The pieces of the remaining roots, in order. -/
def pieces (s : Solver) : Fill → List Var → Decomposition → Except Fault Decomposition
  | _, [], d => .ok ⟨d.components.reverse, d.free.reverse⟩
  | f, root :: rest, d =>
    if f.pendingVars[root] then do
      let f ← s.fillFrom f root
      match f.vars, f.clauses with
      | [v], [] => pieces s f rest { d with free := v :: d.free }
      | vars, clauses =>
        pieces s f rest { d with components := .ofLists vars clauses :: d.components }
    else pieces s f rest d

/-- Splits a component into its connected pieces under the current
assignment. -/
def decompose (s : Solver) (source : Component) : Except Fault (Decomposition × Solver) := do
  s.requireVars source
  s.requireClauses source
  let start : Fill :=
    { pendingVars := VarTable.marking s.varCount
        (source.vars.filter fun v => !s.trail.isAssigned v)
      pendingClauses := (source.clauses.filter fun id => !s.isSatisfied id).foldl
        (fun t id => t.setIfInBounds id true) (Array.replicate s.store.long.size false)
      stack := []
      vars := []
      clauses := [] }
  let d ← s.pieces start source.vars ⟨[], []⟩
  let d : Decomposition :=
    { d with components := d.components.mergeSort fun a b => a.size ≤ b.size }
  let counted := s.stats.components
  let s := { s with stats := { s.stats with components := { counted with
    decompositions := counted.decompositions + 1
    components := counted.components + d.components.length
    freeVars := counted.freeVars + d.free.length } } }
  return (d, s)

end Cleave.Solver
