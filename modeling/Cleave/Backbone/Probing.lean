import Cleave.Solver.Search

/-!
# Implied literals by probing

A literal is implied if it is true in every model that extends the current
assignment. Candidates are the literals on which all known models agree. Each
is probed: its opposite is assumed and a bounded search either finds a model,
which rules the candidate out, or refutes the assumption, which forces a
literal. Probes without a result are repeated with a larger budget as long as
others make progress.
-/

namespace Cleave

/-- The literals implied by the current assignment. -/
inductive ImpliedLiterals where
  /-- The component has no model; the clause is false now. -/
  | unsatisfiable (learnt : Clause)
  /-- The literals assigned on the way; `complete` if no candidate was given
  up. -/
  | forced (literals : List Lit) (complete : Bool)

/-- What a probe gives. -/
inductive Probe where
  /-- The candidate was forced. -/
  | forced
  /-- Another literal was forced. -/
  | mismatch (forced : Lit)
  /-- A model rules the candidate out. -/
  | model
  /-- The budget is used up. -/
  | postponed
  /-- The component has no model. -/
  | unsatisfiable (learnt : Clause)

namespace Solver

/-- Changes the backbone counters. -/
def countBackbone (s : Solver) (f : BackboneStatistics → BackboneStatistics) : Solver :=
  { s with stats := { s.stats with backbone := f s.stats.backbone } }

/-- Asserts the first literal of a refuting clause at the current level and
propagates. Gives a clause that is false now if the component turns out to
have no model. -/
def applyRefutation (s : Solver) (learnt : Learnt) : Except Fault (Option Clause × Solver) := do
  match learnt.lits with
  | [] => return (some [], s.setConflicted)
  | first :: _ =>
    match s.trail.value first with
    | some false => return (some learnt.lits, s)
    | value =>
      let s := if value.isNone then s.assertLearnt learnt else s
      match s.propagate with
      | (none, s) => return (none, s)
      | (some conflict, s) =>
        let (learnt, s) ← s.refute conflict
        return (some learnt.lits, s)

/-- The budget after an inconclusive search: larger by the growth factor,
and by one at least. -/
def growBudget (s : Solver) (budget : Nat) : Nat :=
  max (budget.toFloat * s.options.budgetGrowth).ceil.toUInt64.toNat (budget + 1)

/-- What a refuted probe means. -/
def applyProbe (s : Solver) (candidate : Lit) (learnt : Learnt) :
    Except Fault (Probe × Solver) := do
  match ← s.applyRefutation learnt with
  | (some clause, s) => return (.unsatisfiable clause, s)
  | (none, s) =>
    match learnt.lits.head? with
    | some forced => return (if forced = candidate then .forced else .mismatch forced, s)
    | none => return (.forced, s)

/-- Assumes the opposite of a candidate at a new level and tries to refute
it. -/
def probe (s : Solver) (fuel : Nat) (c : Component) (candidate : Lit) (budget : Nat)
    (ledger : ModelLedger) : Except Fault (Probe × ModelLedger × Solver) := do
  let s := s.countBackbone fun b => { b with probes := b.probes + 1 }
  let entry := s.level
  match (s.openDecision candidate.neg).propagate with
  | (some conflict, s) =>
    let (learnt, s) ← s.refute conflict
    let (probe, s) ← (s.backtrackTo entry).applyProbe candidate learnt
    return (probe, ledger, s)
  | (none, s) =>
    let (result, s) ← s.search fuel c (some budget)
    let s := s.backtrackTo entry
    match result with
    | .satisfiable model =>
      let s := s.countBackbone fun b => { b with models := b.models + 1 }
      return (.model, ledger.add model, s)
    | .refuted learnt =>
      let (probe, s) ← s.applyProbe candidate learnt
      return (probe, ledger, s)
    | .unknown => return (.postponed, ledger, s)

/-- Searches with growing budgets until a model is known. Gives a clause that
is false now if there is none. -/
def firstModel (fuel : Nat) (c : Component) :
    Nat → Nat → ModelLedger → Solver → Except Fault (Option Clause × ModelLedger × Solver)
  | 0, _, _, _ => .error .outOfFuel
  | rounds + 1, budget, ledger, s =>
    if !ledger.isEmpty then .ok (none, ledger, s)
    else do
      match ← s.search fuel c (some budget) with
      | (.satisfiable model, s) =>
        let s := s.countBackbone fun b => { b with models := b.models + 1 }
        firstModel fuel c rounds budget (ledger.add model) s
      | (.refuted learnt, s) =>
        match ← s.applyRefutation learnt with
        | (some clause, s) => return (some clause, ledger, s)
        | (none, s) => firstModel fuel c rounds budget ledger s
      | (.unknown, s) => firstModel fuel c rounds (s.growBudget budget) ledger s

/-- Open literals on which all models agree, the most active first. -/
def candidates (s : Solver) (vs : List Var) (ledger : ModelLedger) : List Lit :=
  ((ledger.candidates s.pool vs).filter fun l => !s.trail.isAssigned l.var).mergeSort
    fun l m => s.activity.score m ≤ s.activity.score l

/-- The outcome of one pass over the candidates. -/
structure Pass where
  /-- A clause that is false now, if the component has no model. -/
  refutation : Option Clause
  /-- Whether a probe had a result. -/
  progress : Bool
  /-- The number of probes without one. -/
  postponed : Nat

/-- Probes the candidates in order; those that were forced or ruled out
meanwhile are skipped. -/
def probePass (fuel : Nat) (c : Component) (budget : Nat) :
    List Lit → Pass → ModelLedger → Solver → Except Fault (Pass × ModelLedger × Solver)
  | [], pass, ledger, s => .ok (pass, ledger, s)
  | candidate :: rest, pass, ledger, s =>
    if s.trail.isAssigned candidate.var
        || ledger.unanimous s.pool candidate.var ≠ some candidate.positive then
      probePass fuel c budget rest pass ledger s
    else do
      let (probe, ledger, s) ← s.probe fuel c candidate budget ledger
      match probe with
      | .forced =>
        probePass fuel c budget rest { pass with progress := true } ledger
          (s.countBackbone fun b => { b with forced := b.forced + 1 })
      | .mismatch _ =>
        probePass fuel c budget rest { pass with progress := true } ledger
          (s.countBackbone fun b => { b with mismatched := b.mismatched + 1 })
      | .model => probePass fuel c budget rest { pass with progress := true } ledger s
      | .postponed =>
        probePass fuel c budget rest { pass with postponed := pass.postponed + 1 } ledger
          (s.countBackbone fun b => { b with postponed := b.postponed + 1 })
      | .unsatisfiable clause =>
        return ({ pass with refutation := some clause }, ledger, s)

/-- Passes over the candidates until none is left or a pass makes no
progress. -/
def probeAll (fuel : Nat) (c : Component) (vs : List Var) :
    Nat → Nat → ModelLedger → Solver → Except Fault (ImpliedLiterals × ModelLedger × Solver)
  | 0, _, _, _ => .error .outOfFuel
  | rounds + 1, budget, ledger, s =>
    match s.candidates vs ledger with
    | [] => .ok (.forced [] true, ledger, s)
    | candidates => do
      let (pass, ledger, s) ← probePass fuel c budget candidates ⟨none, false, 0⟩ ledger s
      match pass.refutation with
      | some clause => return (.unsatisfiable clause, ledger, s)
      | none =>
        if pass.progress then
          let budget := if 0 < pass.postponed then s.growBudget budget else budget
          probeAll fuel c vs rounds budget ledger s
        else return (.forced [] (pass.postponed = 0), ledger, s)

/-- Computes the implied literals of a component by probing. They stay
assigned; models found on the way enter the ledger. -/
def backboneByProbing (s : Solver) (fuel : Nat) (c : Component) (ledger : ModelLedger)
    (projected : Bool) : Except Fault (ImpliedLiterals × ModelLedger × Solver) := do
  match s.propagate with
  | (some conflict, s) =>
    let (learnt, s) ← s.refute conflict
    return (.unsatisfiable learnt.lits, ledger, s)
  | (none, s) =>
    match ← firstModel fuel c fuel s.options.probeBudget ledger s with
    | (some clause, ledger, s) => return (.unsatisfiable clause, ledger, s)
    | (none, ledger, s) =>
      let vs := c.vars.filter fun v => !projected || s.isProjected v
      probeAll fuel c vs fuel s.options.probeBudget ledger s

end Solver

end Cleave
