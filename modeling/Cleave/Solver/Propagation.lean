import Cleave.Solver.State

/-!
# Unit propagation

Propagation takes the literals of the trail one by one. What a literal
implies through binary clauses comes first, then the long clauses that watch
its opposite: such a clause is either satisfied, or another of its literals
can be watched instead, or its other watched literal is implied. A clause
without any literal left is a conflict. Variables outside the scope are never
assigned.
-/

namespace Cleave

namespace LongClause

/-- Makes sure that a false literal is not the first one. -/
def turned (c : LongClause) (falsified : Lit) : LongClause :=
  if c.first = falsified then { c with first := c.second, second := c.first } else c

/-- The first literal of a list that is not false, and the list with
`instead` in its place. -/
def replaceOpen (isFalse : Lit → Bool) (instead : Lit) : List Lit → Option (Lit × List Lit)
  | [] => none
  | l :: rest =>
    if isFalse l then (replaceOpen isFalse instead rest).map fun (w, rest) => (w, l :: rest)
    else some (l, instead :: rest)

/-- Watches another literal that is not false instead of the second one, if
there is one. -/
def rewatched? (c : LongClause) (isFalse : Lit → Bool) : Option LongClause :=
  (replaceOpen isFalse c.second c.rest).map fun (second, rest) =>
    { c with second := second, rest := rest }

end LongClause

namespace Solver

/-- Draws the consequences of a true literal through binary clauses. -/
def propagateBinary (s : Solver) (l : Lit) : List Lit → Option Conflict × Solver
  | [] => (none, s)
  | implied :: rest =>
    match s.trail.value implied with
    | some true => propagateBinary s l rest
    | some false => (some (.binary l.neg implied), s)
    | none =>
      if s.inScope implied.var then propagateBinary (s.assign implied (.binary l.neg)) l rest
      else propagateBinary s l rest

/-- What a visit to a watching clause found. -/
inductive Visit where
  /-- The clause keeps its watch. -/
  | keeps
  /-- The clause watches another literal now. -/
  | moves
  /-- The clause is falsified. -/
  | conflicts
deriving DecidableEq

/-- Replaces a long clause. -/
def setClause (s : Solver) (id : ClauseId) (c : LongClause) : Solver :=
  { s with store := { s.store with long := s.store.long.setIfInBounds id c } }

/-- Visits a long clause whose watched literal `falsified` became false. -/
def visit (s : Solver) (falsified : Lit) (id : ClauseId) : Visit × Solver :=
  let c := (s.store.clause id).turned falsified
  if s.trail.isTrue c.first then (.keeps, s.setClause id c)
  else
    match c.rewatched? s.trail.isFalse with
    | some moved =>
      let s := s.setClause id moved
      (.moves, { s with watches := s.watches.modify moved.second (·.push id) })
    | none =>
      let s := s.setClause id c
      match s.trail.value c.first with
      | some false => (.conflicts, s)
      | some true => (.keeps, s)
      | none =>
        if s.inScope c.first.var then (.keeps, s.assign c.first (.long id)) else (.keeps, s)

/-- Visits the watching clauses in order, up to a conflict. Gives the
conflict, if there is one, and the clauses that go on watching. -/
def visitAll (s : Solver) (falsified : Lit) :
    List ClauseId → Array ClauseId → Option Conflict × Array ClauseId × Solver
  | [], kept => (none, kept, s)
  | id :: rest, kept =>
    match s.visit falsified id with
    | (.keeps, s) => visitAll s falsified rest (kept.push id)
    | (.moves, s) => visitAll s falsified rest kept
    | (.conflicts, s) => (some (.long id), kept.push id ++ rest.toArray, s)

/-- Draws the consequences of a true literal through long clauses. -/
def propagateLong (s : Solver) (l : Lit) : Option Conflict × Solver :=
  let falsified := l.neg
  let (conflict, kept, s) := s.visitAll falsified s.watches[falsified].toList #[]
  (conflict, { s with watches := s.watches.set falsified kept })

/-- Propagates one literal. -/
def propagateLit (s : Solver) (l : Lit) : Option Conflict × Solver :=
  match s.propagateBinary l (s.store.implied l) with
  | (some conflict, s) => (some conflict, s)
  | (none, s) => s.propagateLong l

/-- Takes the next literal to propagate off the trail. -/
def nextToPropagate (s : Solver) : Option (Lit × Solver) :=
  (s.trail.lits[s.trail.head]?).map fun l =>
    (l, { s with
      trail := { s.trail with head := s.trail.head + 1 }
      stats := { s.stats with search :=
        { s.stats.search with propagations := s.stats.search.propagations + 1 } } })

/-- Propagates up to `fuel` literals. -/
def propagateWithin : Nat → Solver → Option Conflict × Solver
  | 0, s => (none, s)
  | fuel + 1, s =>
    match s.nextToPropagate with
    | none => (none, s)
    | some (l, s) =>
      match s.propagateLit l with
      | (some conflict, s) => (some conflict, s)
      | (none, s) => propagateWithin fuel s

/-- Propagates the trail to its end or up to a conflict. Every literal is
either on the trail or may still get there once per variable. -/
def propagate (s : Solver) : Option Conflict × Solver :=
  propagateWithin (s.trail.size + s.varCount) s

/-- Propagates everything from a position on again. -/
def propagateFrom (s : Solver) (pos : Nat) : Option Conflict × Solver :=
  { s with trail := s.trail.rewind pos }.propagate

/-- Opens a decision level with a literal, which must be unassigned, and
propagates. After a conflict the level stays open. -/
def decide (s : Solver) (l : Lit) : Except Fault (Option Conflict × Solver) := do
  s.requireVar l.var
  let s := { s with stats := { s.stats with search :=
    { s.stats.search with decisions := s.stats.search.decisions + 1 } } }
  return (s.openDecision l).propagate

/-- The literals of a conflicting clause, all of them false. -/
def conflictLits (s : Solver) : Conflict → Clause
  | .binary a b => [a, b]
  | .long id => s.store.lits id

/-- The highest level among the literals of a conflict. -/
def conflictLevel (s : Solver) (c : Conflict) : Nat :=
  (s.conflictLits c).foldl (fun level l => max level (s.trail.levelOf l.var)) 0

end Solver

end Cleave
