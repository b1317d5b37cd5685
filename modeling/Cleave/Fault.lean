import Cleave.Clause.Store

/-!
# Faults

A fault is a call outside its contract: it names a variable, a clause or a
vertex that is not there, or asks for something the current state does not
allow. Faults are no answers of the program; they say that no answer is
defined. Two of them no caller is to blame for: running out of fuel, which
bounds searches whose length is not known beforehand, and a misfiled clause,
which an index that is kept right never has.
-/

namespace Cleave

/-- Why a call has no answer. -/
inductive Fault where
  /-- A variable beyond the variables known. -/
  | unknownVariable (v : Var)
  /-- A clause beyond the clauses stored. -/
  | unknownClause (id : ClauseId)
  /-- An edge that leaves the vertices of its graph. -/
  | unknownVertex (v : Var)
  /-- More bags than an address space holds. -/
  | tooManyBags (count : Nat)
  /-- A change of the clauses above decision level 0. -/
  | aboveRoot
  /-- A clause with another number of literals than the table that lists it is for. -/
  | misfiledClause (id : ClauseId)
  /-- An activity score that is not a number. -/
  | undefinedScore
  /-- A conflict that the trail does not explain. -/
  | unexplainedConflict
  /-- The search is not finished. -/
  | outOfFuel
deriving DecidableEq

end Cleave
