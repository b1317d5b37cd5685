import Cleave.Backbone.Engine
import Cleave.Backbone.Probing
import Cleave.Backbone.Renaming
import Cleave.Tool

/-!
# Implied literals of a component

`Solver.impliedLiterals` computes the literals implied by the current
assignment, with the engine the options name, and leaves them assigned at the
current level. The native engine probes on the solver's own trail. The
external one works on a renamed copy of the open part of the component; what
it finds is stored as clauses that name the current decisions.
-/

namespace Cleave.Solver

/-- The open part of a component, renamed: its long clauses that are not
satisfied, and the given binary clauses between its open variables. -/
def renamedClauses (s : Solver) (c : Component) (vs : List Var) (r : Renaming) : List Clause :=
  let long := (c.clauses.filter fun id => !s.isSatisfied id).map fun id =>
    (s.store.lits id).filterMap r.rename?
  let binary := vs.flatMap fun v => v.lits.flatMap fun l =>
    (s.store.partners l).filterMap fun other =>
      match r.rename? l, r.rename? other with
      | some a, some b => if l.blt other then some [a, b] else none
      | _, _ => none
  long ++ binary

/-- The values of some variables in a model, renamed; none if one of them has
no value. -/
def renamedModel (s : Solver) (vs : List Var) (r : Renaming) (m : Model) : Option (List Lit) :=
  vs.mapM fun v => (s.pool.value m v).bind fun value => r.rename? (v.lit value)

/-- Stores the clause of some unassigned literals and the opposites of all
decisions, which justifies what was found outside. The latest decision is
watched next to a single literal. -/
def learnImplied (s : Solver) (first : Lit) (more : List Lit) : Learnt × Solver :=
  let rest := more ++ s.trail.decisionClause.reverse
  let (stored, s) := s.storeClause first rest true
  (⟨first :: rest, reasonOfStored stored⟩, s)

/-- Enters a model of the engine into the ledger, on top of the current
assignment. -/
def enterModel (r : Renaming) (ledger : ModelLedger) (s : Solver) (model : List Lit) :
    ModelLedger × Solver :=
  let (m, s) := s.captureModel
  let (m, pool) := s.pool.assignAll m (model.map r.restore)
  let s := { s with pool := pool }.countBackbone fun b => { b with models := b.models + 1 }
  (ledger.add m, s)

/-- Asserts an implied literal, unless it is assigned or to be left out. -/
def assertImplied (projected : Bool) (s : Solver) (l : Lit) : Solver :=
  if (projected && !s.isProjected l.var) || s.trail.isAssigned l.var then s
  else
    let s := s.countBackbone fun b => { b with forced := b.forced + 1 }
    let (learnt, s) := s.learnImplied l []
    s.assertLearnt learnt

/-- Stores an implied binary clause, unless one of its literals is assigned
or it is known. -/
def storeImplied (s : Solver) (clause : Lit × Lit) : Solver :=
  let (a, b) := clause
  if s.trail.isAssigned a.var || s.trail.isAssigned b.var || (s.store.implied a.neg).contains b
  then s
  else
    let s := s.countBackbone fun b => { b with impliedBinaries := b.impliedBinaries + 1 }
    (s.learnImplied a [b]).2

/-- Computes the implied literals of a component with a SAT procedure. -/
def backboneByAssumptions (P : SatProcedure) (s : Solver) (c : Component) (ledger : ModelLedger)
    (projected : Bool) :
    Except Fault (Except ToolError ImpliedLiterals × ModelLedger × Solver) := do
  match s.propagate with
  | (some conflict, s) =>
    let (learnt, s) ← s.refute conflict
    return (.ok (.unsatisfiable learnt.lits), ledger, s)
  | (none, s) =>
    s.requireClauses c
    let vs := c.vars.filter fun v => !s.trail.isAssigned v
    let r := Renaming.ofVars vs s.varCount
    let engine := (s.renamedClauses c vs r).foldl BackboneEngine.addClause
      (BackboneEngine.new P r.size)
    let engine := (ledger.models.filterMap (s.renamedModel vs r)).foldl
      BackboneEngine.addModel engine
    match engine.run { binaries := s.options.impliedBinaries } with
    | .error reason => return (.error (.engine reason), ledger, s)
    | .ok (answer, _) =>
      if !answer.satisfiable then
        return (.ok (.unsatisfiable s.trail.decisionClause), ledger, s)
      let (ledger, s) := answer.models.foldl
        (fun (ledger, s) model => enterModel r ledger s model) (ledger, s)
      let start := s.trail.size
      let s := (answer.units.map r.restore).foldl (assertImplied projected) s
      let s := (answer.binaries.map fun (a, b) => (r.restore a, r.restore b)).foldl
        storeImplied s
      match s.propagateFrom start with
      | (some conflict, s) =>
        let (learnt, s) ← s.refute conflict
        return (.ok (.unsatisfiable learnt.lits), ledger, s)
      | (none, s) => return (.ok (.forced [] true), ledger, s)

/-- Computes the implied literals with the engine of the options. -/
def backbone (P : SatProcedure) (s : Solver) (fuel : Nat) (c : Component) (ledger : ModelLedger)
    (projected : Bool) :
    Except Fault (Except ToolError ImpliedLiterals × ModelLedger × Solver) :=
  match s.options.engine with
  | .native => do
    let (implied, ledger, s) ← s.backboneByProbing fuel c ledger projected
    return (.ok implied, ledger, s)
  | .external => s.backboneByAssumptions P c ledger projected

/-- The literals over the variables of a component, or over those of the
projection among them, that are implied by the current assignment. They stay
assigned at the current level. -/
def impliedLiterals (P : SatProcedure) (s : Solver) (fuel : Nat) (c : Component)
    (ledger : ModelLedger) (projected : Bool) :
    Except Fault (Except ToolError ImpliedLiterals × ModelLedger × Solver) := do
  let s := s.countBackbone fun b => { b with calls := b.calls + 1 }
  if s.conflicted then return (.ok (.unsatisfiable []), ledger, s)
  let entry := s.level
  let start := s.trail.size
  let (previous, s) ← s.enterScope c
  let (result, ledger, s) ← s.backbone P fuel c ledger projected
  let s := (s.backtrackTo entry).restoreScope previous
  let result := result.map fun
    | .forced _ complete =>
      .forced ((s.trail.litsFrom start).filter fun l => c.contains l.var) complete
    | unsatisfiable => unsatisfiable
  return (result, ledger, s)

end Cleave.Solver
