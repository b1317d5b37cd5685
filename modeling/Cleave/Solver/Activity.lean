import Cleave.Fault
import Cleave.Table

/-!
# Activity of literals

Every literal has a score that grows when the literal occurs in a learnt
clause. Decay is not applied to the scores: the amount added grows instead.
Scores and the amount are scaled down together once they get large. A score
that would not be a number is a fault.
-/

namespace Cleave

/-- Decaying scores of literals. -/
structure Activity where
  /-- The score of every literal. -/
  scores : LitTable Float
  /-- What a bump adds. -/
  bump : Float
  /-- The decay factor. -/
  decay : Float
deriving Inhabited

namespace Activity

/-- The amount a first bump adds. -/
def initialBump : Float := 1.0

/-- Scores from here on are scaled down. -/
def rescaleLimit : Float := 1e100

/-- No scores, with a decay factor; 0.95 stands in for an undefined one. -/
def new (decay : Float) : Activity :=
  ⟨default, initialBump, if decay.isNaN then 0.95 else decay⟩

/-- Makes room for `count` variables. -/
def resize (a : Activity) (count : Nat) : Activity := { a with scores := a.scores.resize count }

/-- A score, provided it is a number. -/
def defined (x : Float) : Except Fault Float :=
  if x.isNaN then .error .undefinedScore else .ok x

/-- The score of a literal. -/
def score (a : Activity) (l : Lit) : Float := a.scores[l]

/-- The scores of both literals of a variable together. -/
def varScore (a : Activity) (v : Var) : Except Fault Float :=
  defined (a.score v.pos + a.score v.neg)

/-- Scales everything down. -/
def rescale (a : Activity) : Activity :=
  let factor := 1.0 / rescaleLimit
  { a with scores := a.scores.map (· * factor), bump := a.bump * factor }

/-- Raises the score of a literal. -/
def raise (a : Activity) (l : Lit) : Except Fault Activity := do
  let score ← defined (a.score l + a.bump)
  let a := { a with scores := a.scores.set l score }
  return if score ≥ rescaleLimit then a.rescale else a

/-- Lets all scores decay, by raising what later bumps add. -/
def age (a : Activity) : Except Fault Activity := do
  let bump ← defined (a.bump / a.decay)
  let a := { a with bump := bump }
  return if bump ≥ rescaleLimit then a.rescale else a

/-- Forgets all scores. -/
def reset (a : Activity) : Activity :=
  { a with scores := a.scores.map fun _ => 0.0, bump := initialBump }

end Activity

end Cleave
