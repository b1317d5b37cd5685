import Cleave.Solver.Learning

/-!
# Forgetting learnt clauses

Once there are too many learnt long clauses, some are forgotten. Kept are the
reasons of assigned literals, short clauses, and the more recent half of the
candidates. Only clauses behind the last given one are candidates, so
given clauses keep their positions, which components refer to.
-/

namespace Cleave.Solver

/-- The long clauses that are reasons on the trail. -/
def lockedClauses (s : Solver) : Array Bool :=
  s.trail.lits.foldl
    (fun t l =>
      match s.trail.reasonOf l.var with
      | .long id => t.setIfInBounds id true
      | _ => t)
    (Array.replicate s.store.long.size false)

/-- Redirects the long reasons on the trail. -/
def redirectReasons (t : Trail) (moved : Array (Option ClauseId)) : Trail :=
  let reasons := t.lits.foldl
    (fun reasons l =>
      match t.reasonOf l.var with
      | .long id => reasons.set l.var (.long ((moved.getD id none).getD id))
      | _ => reasons)
    t.reasons
  { t with reasons := reasons }

/-- Whether a learnt long clause survives a reduction; `last?` is the last
given clause, `recent?` the first of the recent candidates. -/
def survives (s : Solver) (last? recent? : Option ClauseId) (locked : Array Bool)
    (id : ClauseId) (c : LongClause) : Bool :=
  last?.any (id < ·) || locked.getD id false || c.size ≤ s.options.keepLearntLength
    || recent?.all (· ≤ id)

/-- Forgets learnt long clauses if there are more than the limit, which
grows by a tenth. Activity is recomputed from the clauses left. -/
def reduceLearnts (s : Solver) : Except Fault Solver := do
  if s.store.learntLong ≤ s.learntLimit then return s
  let last? := (s.store.givenLong.getLast?).map (·.1)
  let candidates := (s.store.longClauses.filter fun (id, c) =>
    c.learnt && last?.all (· < id)).map (·.1)
  let recent? := candidates[candidates.length / 2]?
  let (moved, store) := s.store.retainLearnt (s.survives last? recent? s.lockedClauses)
  let learnt := (store.long.toList.filter (·.learnt)).flatMap LongClause.lits
  let activity ← learnt.foldlM Activity.raise s.activity.reset
  return { s with
    store := store
    trail := redirectReasons s.trail moved
    watches := watchAll store s.varCount
    membership := Membership.ofStore store s.varCount
    activity := activity
    learntLimit := s.learntLimit + max (s.learntLimit / 10) 1
    stats := { s.stats with search :=
      { s.stats.search with reductions := s.stats.search.reductions + 1 } } }

end Cleave.Solver
