import Cleave.Marks
import Cleave.Solver.Propagation

/-!
# Learning from conflicts

A conflict is resolved backwards along the trail, on the highest level of its
literals: as long as more than one literal of that level is left, the latest
one is replaced by the literals that forced it. What remains is a clause that
is false now and becomes unit when the level is undone; its first literal is
the one of that level. Literals implied by the others are then dropped.

Resolution stops at the first literal that alone represents the level, or,
when a literal is fixed, goes on to that one or to the decision of the level.
-/

namespace Cleave

/-- A clause derived from a conflict. -/
structure Lesson where
  /-- The one literal of the conflict's level. -/
  first : Lit
  /-- The literals of lower levels, one of the highest level first. -/
  rest : List Lit
  /-- The highest level in `rest`, 0 without any. -/
  backjump : Nat

/-- A clause that was learnt, with the reason it gives for its first literal.
The empty clause stands for a refutation of the formula. -/
structure Learnt where
  /-- The literals, the asserted one first. -/
  lits : Clause
  /-- What the first literal is true for, once it is asserted. -/
  reason : Reason

/-- The empty clause. -/
def Learnt.empty : Learnt := ⟨[], .decision⟩

/-- Keeps the elements that `p` does not reject; the last element takes the
place of a rejected one. -/
def rejectBySwap {α : Type} (p : α → Bool) (xs : List α) : List α :=
  match xs with
  | [] => []
  | x :: rest =>
    if p x then
      match _h : rest.getLast? with
      | none => []
      | some last => rejectBySwap p (last :: rest.dropLast)
    else x :: rejectBySwap p rest
termination_by xs.length
decreasing_by
  · have : rest ≠ [] := by intro hr; simp [hr] at _h
    have := List.length_pos_iff.2 this
    simp; omega
  · simp

/-- The position of the last largest key, starting from a best one. -/
def lastMaxFrom (best bestKey : Nat) : Nat → List Nat → Nat × Nat
  | _, [] => (best, bestKey)
  | pos, key :: rest =>
    if bestKey ≤ key then lastMaxFrom pos key (pos + 1) rest
    else lastMaxFrom best bestKey (pos + 1) rest

namespace Solver

/-- The false literals that forced a variable to its value. -/
def antecedents (s : Solver) (v : Var) : List Lit :=
  match s.trail.reasonOf v with
  | .decision => []
  | .binary other => [other]
  | .long id => (s.store.lits id).filter fun l => l.var ≠ v

/-- A resolution under way. -/
structure Resolution where
  /-- The variables resolved or contained in the clause. -/
  seen : Marks
  /-- The number of literals of the conflict's level not resolved yet. -/
  pending : Nat
  /-- The literals of lower levels. -/
  lower : Array Lit

/-- Adds a literal to the clause, unless it is false at level 0 or was seen
before. -/
def Resolution.add (s : Solver) (level : Nat) (r : Resolution) (l : Lit) : Resolution :=
  let own := s.trail.levelOf l.var
  if own = 0 then r
  else
    match r.seen.mark l.var with
    | (false, _) => r
    | (true, seen) =>
      if own = level then { r with seen := seen, pending := r.pending + 1 }
      else { r with seen := seen, lower := r.lower.push l }

/-- Resolves along the trail below a position, down to the literal that
represents the level. -/
def resolve (s : Solver) (level : Nat) (fixed : Option Lit) :
    Nat → Resolution → Except Fault (Lit × Resolution)
  | 0, _ => .error .unexplainedConflict
  | pos + 1, r =>
    let pivot := s.trail.litAt pos
    if r.seen.isMarked pivot.var && s.trail.levelOf pivot.var = level then
      let r := { r with seen := r.seen.unmark pivot.var, pending := r.pending - 1 }
      let unique := r.pending = 0
      let isGoal := fixed.all (· = pivot) || s.trail.reasonOf pivot.var = .decision
      let premises := s.antecedents pivot.var
      -- a fixed literal that cannot be reached does not lead off the level
      let leaves := premises.all fun l => s.trail.levelOf l.var ≠ level
      if unique && (isGoal || leaves) then .ok (pivot, r)
      else resolve s level fixed pos (premises.foldl (Resolution.add s level) r)
    else resolve s level fixed pos r

/-- Whether a literal of the clause is implied by the others. -/
def isRedundant (s : Solver) (seen : Marks) (l : Lit) : Bool :=
  s.trail.reasonOf l.var ≠ .decision
    && (s.antecedents l.var).all fun premise =>
      s.trail.levelOf premise.var = 0 || seen.isMarked premise.var

/-- Exchanges the first literal with the last one of the highest level. -/
def highestFirst (s : Solver) (lits : List Lit) : List Lit × Nat :=
  match lits.map fun l => s.trail.levelOf l.var with
  | [] => ([], 0)
  | key :: keys =>
    let (pos, level) := lastMaxFrom 0 key 1 keys
    ((lits.toArray.swapIfInBounds 0 pos).toList, level)

/-- Derives a clause from a conflict. At level 0 this refutes the formula. -/
def analyze (s : Solver) (conflict : Conflict) (fixed : Option Lit) :
    Except Fault (Option Lesson × Solver) := do
  let level := s.conflictLevel conflict
  if level = 0 then return (none, s.setConflicted)
  let fixed := fixed.filter fun l => s.trail.isTrue l && s.trail.levelOf l.var = level
  let start : Resolution := ⟨Marks.empty.resize s.varCount, 0, #[]⟩
  let (uip, r) ← s.resolve level fixed s.trail.size
    ((s.conflictLits conflict).foldl (Resolution.add s level) start)
  -- the asserted literal counts as part of the clause from here on
  let seen := (r.seen.mark uip.var).2
  let (rest, backjump) := s.highestFirst (rejectBySwap (s.isRedundant seen) r.lower.toList)
  return (some ⟨uip.neg, rest, backjump⟩, s)

/-- The reason that a stored clause gives for its first literal. -/
def reasonOfStored : Stored → Reason
  | .unit _ => .decision
  | .binary _ other => .binary other
  | .long id => .long id

/-- Stores a derived clause without asserting it. The activity of its
literals grows, and all activity decays. -/
def learn (s : Solver) (lesson : Lesson) : Except Fault (Learnt × Solver) := do
  let lits := lesson.first :: lesson.rest
  let activity ← lits.foldlM Activity.raise s.activity
  let activity ← activity.age
  let s := { s with
    activity := activity
    stats := { s.stats with search :=
      { s.stats.search with learntClauses := s.stats.search.learntClauses + 1 } } }
  let (stored, s) := s.storeClause lesson.first lesson.rest true
  return (⟨lits, reasonOfStored stored⟩, s)

/-- Asserts the first literal of a clause whose other literals are false. A
single literal is a root fact. -/
def assertLearnt (s : Solver) (learnt : Learnt) : Solver :=
  match learnt.lits with
  | [] => s
  | [l] => s.assignRootFact l
  | l :: _ => s.assign l learnt.reason

/-- Learns a clause from a conflict that no search above its level can
resolve. It is false at the level of the conflict and unit below; at level 0
it is empty. -/
def refute (s : Solver) (conflict : Conflict) : Except Fault (Learnt × Solver) := do
  let decision := s.trail.decision? (s.conflictLevel conflict)
  match ← s.analyze conflict decision with
  | (none, s) => return (.empty, s)
  | (some lesson, s) => s.learn lesson

end Solver

end Cleave
