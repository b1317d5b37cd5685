import Cleave.Graph.Exchange
import Cleave.Graph.Primal

/-!
# Computing a static order

The branching order of a component comes from a tree decomposition of its
primal graph: by an external decomposer, or by min-fill. If min-fill exceeds
the width bound, variables are ordered by weight alone.
-/

namespace Cleave.Solver

/-- The score of a literal: its open binary partners, plus the inverse of the
size of every active long clause with it. -/
def literalWeight (s : Solver) (isActive : ClauseId → Bool) (l : Lit) : Float :=
  let binary := (s.store.partners l).countP fun other => !s.trail.isAssigned other.var
  let long := ((s.membership.ofLit l).filter isActive).foldl
    (fun total id => total + 1.0 / (s.store.clause id).size.toFloat) 0.0
  binary.toFloat + long

/-- The weight of every variable of a component: the product of the scores of
its literals. -/
def variableWeights (s : Solver) (c : Component) : VarTable Float :=
  let listed := c.clauses.foldl (fun t id => t.setIfInBounds id true)
    (Array.replicate s.store.long.size false)
  let isActive (id : ClauseId) : Bool := listed.getD id false && !s.isSatisfied id
  c.vars.foldl
    (fun t v => t.set v (s.literalWeight isActive v.pos * s.literalWeight isActive v.neg))
    (VarTable.sized s.varCount)

/-- Installs the order of an elimination. -/
def installOrder (s : Solver) (c : Component) (elimination : List Var) : Solver :=
  { s with
    order := .ofElimination elimination (s.variableWeights c) s.varCount
    stats := { s.stats with components :=
      { s.stats.components with varOrders := s.stats.components.varOrders + 1 } } }

/-- Computes and installs a static order from a component. `run` is what the
decomposer of the options answers to the text of a graph. -/
def computeOrder (s : Solver) (c : Component) (run : String → ToolRun) :
    Except Fault (Except ToolError Solver) := do
  let graph ← s.primalGraph c s.options.traversal
  match s.options.decomposer with
  | some program =>
    let decomposer : Decomposer := ⟨program, .seconds s.options.decomposerTimeout, run⟩
    return (← decomposer.decompose graph).map fun d => s.installOrder c d.eliminationOrder
  | none =>
    match minFill graph (some s.options.widthBound) with
    | some d => return .ok (s.installOrder c d.eliminationOrder)
    | none =>
      let s := { s with stats := { s.stats with components :=
        { s.stats.components with abandoned := s.stats.components.abandoned + 1 } } }
      return .ok (s.installOrder c [])

end Cleave.Solver
