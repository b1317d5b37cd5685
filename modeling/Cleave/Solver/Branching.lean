import Cleave.Graph.Primal

/-!
# Branching

The next decision is an open variable of the component and a value for it.
The heuristics score variables by how often their literals occur in clauses
that are not satisfied yet, by activity, by a static order, or by a min-fill
elimination of what is open. Among equal scores the smallest variable wins.
The value is the more frequent polarity, the positive one on ties.
-/

namespace Cleave

/-- Live occurrences of both literals of a variable. -/
structure Occurrences where
  /-- Those of the positive literal. -/
  positive : Float
  /-- Those of the negative literal. -/
  negative : Float

namespace Occurrences

/-- Both together. -/
def sum (o : Occurrences) : Float := o.positive + o.negative

/-- One times the other. -/
def product (o : Occurrences) : Float := o.positive * o.negative

/-- The more frequent literal of a variable. -/
def phase (o : Occurrences) (v : Var) : Lit := v.lit (o.positive ≥ o.negative)

end Occurrences

/-- Whether a score beats another one. An undefined score counts as the
highest. -/
def beats (x y : Float) : Bool := !(y.isNaN || y ≥ x)

/-- Whether a pair of scores beats another one, the first score deciding
unless they are equal. -/
def beatsLex (x y : Float × Float) : Bool :=
  beats x.1 y.1 || (!beats y.1 x.1 && beats x.2 y.2)

namespace Solver

/-- What an occurrence in a long clause counts: one, or more the closer the
clause is to becoming binary. -/
def clauseWeight (s : Solver) (id : ClauseId) : Float :=
  if s.options.weightedCounts then
    let size := (s.store.lits id).countP fun l => !s.trail.isAssigned l.var
    2.0 / (max size 1).toFloat
  else 1.0

/-- The occurrences of a literal in clauses that are not satisfied. -/
def occurrencesOfLit (s : Solver) (l : Lit) : Float :=
  let binary := (s.store.partners l).countP fun other => !s.trail.isTrue other
  let long := ((s.membership.ofLit l).filter fun id => !s.isSatisfied id).foldl
    (fun total id => total + s.clauseWeight id) 0.0
  binary.toFloat + long

/-- The occurrences of both literals of a variable. -/
def occurrences (s : Solver) (v : Var) : Occurrences :=
  ⟨s.occurrencesOfLit v.pos, s.occurrencesOfLit v.neg⟩

/-- The first variable with the best score. -/
def bestVar {κ : Type} (better : κ → κ → Bool) (score : Var → Except Fault κ) :
    List Var → Option (Var × κ) → Except Fault (Option Var)
  | [], best => .ok (best.map (·.1))
  | v :: rest, best => do
    let value ← score v
    if best.all fun (_, bestValue) => better value bestValue
    then bestVar better score rest (some (v, value))
    else bestVar better score rest best

/-- The first variable with the smallest rank; a variable without one comes
last. -/
def firstByRank (s : Solver) : List Var → Option Var
  | [] => none
  | v :: rest => some (rest.foldl (fun best w => if before w best then w else best) v)
where
  /-- Whether a variable has a smaller rank than another one. -/
  before (w best : Var) : Bool :=
    match s.order.rank? w, s.order.rank? best with
    | some a, some b => a < b
    | some _, none => true
    | none, _ => false

/-- The variable eliminated last by min-fill on the open part of the
component. -/
def minFillVar (s : Solver) (c : Component) : Except Fault (Option Var) := do
  let part := Component.ofLists (s.openVars c) c.clauses
  if part.isEmpty then return none
  let graph ← s.primalGraph part .arityClassed
  match (minFill graph none).bind fun d => d.order.getLast? with
  | some v => return some v
  | none => return part.vars.head?

/-- The next branching variable. -/
def nextVar (s : Solver) (c : Component) : Except Fault (Option Var) :=
  match s.options.branching with
  | .static => .ok (s.firstByRank (s.openVars c))
  | .vsads =>
    let score (v : Var) : Except Fault Float := do
      let activity ← s.activity.varScore v
      return s.options.vsadsActivity * activity + s.options.vsadsCount * (s.occurrences v).sum
    bestVar beats score (s.openVars c) none
  | .dlcs => bestVar beats (fun v => .ok (s.occurrences v).sum) (s.openVars c) none
  | .dlcp =>
    let score (v : Var) : Except Fault (Float × Float) :=
      let o := s.occurrences v
      .ok (o.product, o.sum)
    bestVar beatsLex score (s.openVars c) none
  | .minFill => s.minFillVar c

/-- The next decision, none if every variable of the component is assigned. -/
def nextDecision (s : Solver) (c : Component) : Except Fault (Option Lit) := do
  let v ← s.nextVar c
  return v.map fun v => (s.occurrences v).phase v

end Solver

end Cleave
