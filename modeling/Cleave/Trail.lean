import Cleave.Clause.Store

/-!
# The trail

The trail is the current partial assignment in the order it was made. It is
cut into decision levels: level 0 holds the root facts, and every further
level starts with a decision. Each assigned variable has a value, a level and
a reason. The head separates the literals whose consequences were drawn from
those still to be propagated.

The level of a literal is recorded when it is assigned. It may be lower than
the level in whose part of the trail it stands: a root fact that is learnt
above level 0 has level 0 from the start.
-/

namespace Cleave

/-- Why a literal is true. -/
inductive Reason where
  /-- It is a decision or a root fact. -/
  | decision
  /-- A binary clause whose other literal is false. -/
  | binary (other : Lit)
  /-- A long clause whose other literals are false. -/
  | long (id : ClauseId)
deriving DecidableEq

instance : Inhabited Reason := ⟨.decision⟩

/-- The current partial assignment and how it came about. -/
structure Trail where
  /-- The true literals in the order they were assigned. -/
  lits : Array Lit
  /-- Where each decision level above 0 starts. -/
  starts : Array Nat
  /-- The position of the next literal to propagate. -/
  head : Nat
  /-- The value of every variable. -/
  values : VarTable (Option Bool)
  /-- The level recorded with the last assignment of a variable. -/
  levels : VarTable Nat
  /-- The reason of an assigned variable. -/
  reasons : VarTable Reason
deriving Inhabited

namespace Trail

/-- Nothing assigned, over no variables. -/
def empty : Trail := ⟨#[], #[], 0, default, default, default⟩

/-- Makes room for `count` variables. -/
def resize (t : Trail) (count : Nat) : Trail :=
  { t with
    values := t.values.resize count
    levels := t.levels.resize count
    reasons := t.reasons.resize count }

/-- The number of assigned literals. -/
def size (t : Trail) : Nat := t.lits.size

/-- The current decision level. -/
def level (t : Trail) : Nat := t.starts.size

/-- Whether a variable has a value. -/
def isAssigned (t : Trail) (v : Var) : Bool := t.values[v].isSome

/-- The truth value of a literal. -/
def value (t : Trail) (l : Lit) : Option Bool := t.values[l.var].map (· == l.positive)

/-- Whether a literal is true. -/
def isTrue (t : Trail) (l : Lit) : Bool := t.value l == some true

/-- Whether a literal is false. -/
def isFalse (t : Trail) (l : Lit) : Bool := t.value l == some false

/-- The level of a variable. -/
def levelOf (t : Trail) (v : Var) : Nat := t.levels[v]

/-- The reason of a variable. -/
def reasonOf (t : Trail) (v : Var) : Reason := t.reasons[v]

/-- Makes a literal true. -/
def push (t : Trail) (l : Lit) (level : Nat) (reason : Reason) : Trail :=
  { t with
    lits := t.lits.push l
    values := t.values.set l.var (some l.positive)
    levels := t.levels.set l.var level
    reasons := t.reasons.set l.var reason }

/-- Opens a decision level. -/
def openLevel (t : Trail) : Trail := { t with starts := t.starts.push t.lits.size }

/-- The literal at a position. -/
def litAt (t : Trail) (pos : Nat) : Lit := t.lits.getD pos default

/-- The first literal of a level above 0, if the level is open. -/
def decision? (t : Trail) (level : Nat) : Option Lit :=
  if level = 0 then none else (t.starts[level - 1]?).bind fun start => t.lits[start]?

/-- Where a level starts; the end of the trail if it is not open. -/
def levelStart (t : Trail) (level : Nat) : Nat :=
  if level = 0 then 0 else (t.starts[level - 1]?).getD t.lits.size

/-- The literals from a position on. -/
def litsFrom (t : Trail) (pos : Nat) : List Lit := t.lits.toList.drop pos

/-- The literals assigned in one level's part of the trail. -/
def segment (t : Trail) (level : Nat) : List Lit :=
  (t.lits.toList.take (t.levelStart (level + 1))).drop (t.levelStart level)

/-- The trail cut at its decisions, from level 0 to the current one. -/
def segments (t : Trail) : List (List Lit) := (List.range (t.level + 1)).map t.segment

/-- The opposites of all current decisions, lowest level first. -/
def decisionClause (t : Trail) : Clause :=
  (List.range t.level).filterMap fun k => (t.decision? (k + 1)).map Lit.neg

/-- Makes sure that everything from a position on is propagated again. -/
def rewind (t : Trail) (pos : Nat) : Trail := { t with head := min t.head pos }

/-- Takes the value of a literal back. -/
def unassign (t : Trail) (l : Lit) : Trail :=
  { t with values := t.values.set l.var none, reasons := t.reasons.set l.var .decision }

/-- Takes everything above a level back. -/
def backtrackTo (t : Trail) (level : Nat) : Trail :=
  if t.level ≤ level then t
  else
    let pos := t.levelStart (level + 1)
    let undone := (t.litsFrom pos).foldl unassign t
    { undone with
      lits := undone.lits.take pos
      starts := undone.starts.take level
      head := min undone.head pos }

end Trail

end Cleave
