import Cleave.Component.Decompose
import Cleave.Solver.Branching
import Cleave.Solver.Forgetting

/-!
# Search

A search looks for a model of a component that extends the current
assignment. It starts at the current decision level, never goes below it, and
returns to it however it ends: with a model, with a clause that refutes the
component at its entry level, or without a result when its budget of
conflicts is used up.

How long a search takes is not known beforehand, so it gets fuel: the number
of decisions and conflicts it may go through. Running out of fuel is a fault,
never an answer.
-/

namespace Cleave

/-- A geometric restart schedule. -/
structure RestartSchedule where
  /-- The conflicts since the last restart. -/
  counter : Nat
  /-- The conflicts after which the next restart is due. -/
  interval : Float
  /-- The factor on the interval after a restart. -/
  growth : Float

namespace RestartSchedule

/-- The schedule that the options ask for. -/
def ofOptions (o : Options) : RestartSchedule := ⟨0, o.restartInterval.toFloat, o.restartGrowth⟩

/-- Counts a conflict and says whether a restart is due. -/
def tick (r : RestartSchedule) : Bool × RestartSchedule :=
  let counter := r.counter + 1
  if counter.toFloat ≥ r.interval then (true, ⟨0, r.interval * r.growth, r.growth⟩)
  else (false, { r with counter := counter })

end RestartSchedule

/-- How a search ends. -/
inductive SearchResult where
  /-- Every variable of the component is assigned without a conflict. -/
  | satisfiable (model : Model)
  /-- A clause was learnt that is false at the entry level or unit below it.
  The empty clause refutes the formula. -/
  | refuted (learnt : Learnt)
  /-- The conflict budget is used up. -/
  | unknown

/-- Whether a formula has a model. -/
inductive Verdict where
  /-- It has. -/
  | satisfiable
  /-- It has not. -/
  | unsatisfiable
  /-- It was not found out. -/
  | unknown
deriving DecidableEq

namespace Verdict

/-- The name of the verdict. -/
def text : Verdict → String
  | satisfiable => "satisfiable"
  | unsatisfiable => "unsatisfiable"
  | unknown => "unknown"

/-- The exit code that reports the verdict. -/
def exitCode : Verdict → Nat
  | satisfiable => 10
  | unsatisfiable => 20
  | unknown => 30

end Verdict

namespace Solver

/-- More steps than any search takes. -/
def ampleFuel : Nat := Nat.pow 2 62

/-- Copies the current assignment into a new model. -/
def captureModel (s : Solver) : Model × Solver :=
  let (model, pool) := s.pool.allocate s.varCount
  let (model, pool) := pool.assignAll model s.trail.lits.toList
  (model, { s with pool := pool })

/-- Counts a conflict. -/
def countConflict (s : Solver) : Solver :=
  { s with stats := { s.stats with search :=
    { s.stats.search with conflicts := s.stats.search.conflicts + 1 } } }

/-- Counts a decision of a search. -/
def countDecision (s : Solver) : Solver :=
  { s with stats := { s.stats with search :=
    { s.stats.search with decisions := s.stats.search.decisions + 1 } } }

/-- Starts over at the entry level, with fewer learnt clauses. -/
def restart (s : Solver) (entry : Nat) : Except Fault Solver :=
  let s := { s with stats := { s.stats with search :=
    { s.stats.search with restarts := s.stats.search.restarts + 1 } } }
  (s.backtrackTo entry).reduceLearnts

/-- What to do after a conflict. -/
inductive AfterConflict where
  /-- The component is refuted. -/
  | refuted (learnt : Learnt)
  /-- A literal was asserted; the search can go on. -/
  | goesOn

/-- Learns from a conflict. A conflict at the entry level or below, or a
clause that is unit below it, refutes the component. Otherwise the learnt
clause is asserted at the level where it is unit. -/
def handleConflict (s : Solver) (entry : Nat) (conflict : Conflict) :
    Except Fault (AfterConflict × Solver) := do
  if s.conflictLevel conflict ≤ entry then
    let (learnt, s) ← s.refute conflict
    return (.refuted learnt, s)
  match ← s.analyze conflict none with
  | (none, s) => return (.refuted .empty, s)
  | (some lesson, s) =>
    if lesson.backjump < entry then
      let (learnt, s) ← s.learn lesson
      return (.refuted learnt, s)
    let (learnt, s) ← (s.backtrackTo lesson.backjump).learn lesson
    return (.goesOn, s.assertLearnt learnt)

/-- Propagates and decides, at most `fuel` times. -/
def searchWithin (c : Component) (entry : Nat) (budget : Option Nat) :
    Nat → RestartSchedule → Nat → Solver → Except Fault (SearchResult × Solver)
  | 0, _, _, _ => .error .outOfFuel
  | fuel + 1, schedule, conflicts, s =>
    match s.propagate with
    | (some conflict, s) => do
      match ← s.countConflict.handleConflict entry conflict with
      | (.refuted learnt, s) => return (.refuted learnt, s)
      | (.goesOn, s) =>
        let conflicts := conflicts + 1
        if budget.any (· ≤ conflicts) then return (.unknown, s)
        match schedule.tick with
        | (true, schedule) =>
          let s ← s.restart entry
          searchWithin c entry budget fuel schedule conflicts s
        | (false, schedule) => searchWithin c entry budget fuel schedule conflicts s
    | (none, s) => do
      match ← s.nextDecision c with
      | none =>
        let (model, s) := s.captureModel
        return (.satisfiable model, s)
      | some decision =>
        searchWithin c entry budget fuel schedule conflicts (s.countDecision.openDecision decision)

/-- Searches for a model of a component; without a budget until the question
is settled. -/
def search (s : Solver) (fuel : Nat) (c : Component) (budget : Option Nat) :
    Except Fault (SearchResult × Solver) := do
  let s := { s with stats := { s.stats with search :=
    { s.stats.search with searches := s.stats.search.searches + 1 } } }
  let entry := s.level
  let (previous, s) ← s.enterScope c
  let (result, s) ←
    if s.conflicted then .ok (.refuted .empty, s)
    else searchWithin c entry budget fuel (.ofOptions s.options) 0 s
  return (result, (s.backtrackTo entry).restoreScope previous)

/-- Solves the whole formula. -/
def solve (s : Solver) (fuel : Nat) : Except Fault (Verdict × Solver) := do
  if s.conflicted then return (.unsatisfiable, s)
  let s := s.backtrackTo 0
  match ← s.search fuel s.initComponent none with
  | (.satisfiable model, s) => return (.satisfiable, { s with pool := s.pool.free model })
  | (.refuted _, s) => return (.unsatisfiable, s)
  | (.unknown, s) => return (.unknown, s)

end Solver

end Cleave
