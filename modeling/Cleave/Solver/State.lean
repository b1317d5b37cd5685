import Cleave.Clause.Membership
import Cleave.Component
import Cleave.Formula.Reader
import Cleave.Graph.VarOrder
import Cleave.Model
import Cleave.Options
import Cleave.Solver.Activity
import Cleave.Trail

/-!
# The state of the solver

The solver holds the clauses, the trail over them, and what its heuristics
remember. This module makes solvers, adds clauses, takes decisions back and
restricts propagation to the variables of a component; propagation, analysis
and search have modules of their own.

Clauses are only added at decision level 0. The first two literals of a long
clause are watched; they are chosen among the literals that are not false.
-/

namespace Cleave

/-- A clause that is falsified by the current assignment. -/
inductive Conflict where
  /-- A binary clause. -/
  | binary (a b : Lit)
  /-- A long clause. -/
  | long (id : ClauseId)
deriving DecidableEq

/-- The variables propagation is restricted to. -/
structure Scope where
  /-- The variables. -/
  vars : List Var
  /-- The length of the trail when the scope was entered. -/
  entry : Nat
deriving DecidableEq

/-- The current scope, and one table of all variables that tells which of them
are in it. -/
structure ScopeTable where
  /-- The scope, if one is entered. -/
  current : Option Scope
  /-- For every variable, whether the scope has it. -/
  flags : VarTable Bool
deriving Inhabited

/-- The variables of a scope, none without one. -/
def Scope.varsOf : Option Scope → List Var
  | none => []
  | some scope => scope.vars

namespace ScopeTable

/-- Puts another scope in place of the current one: the flags of the variables
of this one are taken down, and those of the other one put up. -/
def swap (t : ScopeTable) (next : Option Scope) : ScopeTable where
  current := next
  flags := (t.flags.setAll (Scope.varsOf t.current) false).setAll (Scope.varsOf next) true

/-- Makes room for `count` variables. -/
def resize (t : ScopeTable) (count : Nat) : ScopeTable :=
  { t with flags := t.flags.resize count }

/-- Whether propagation may assign a variable. -/
def admits (t : ScopeTable) (v : Var) : Bool := t.current.isNone || t.flags[v]

end ScopeTable

/-- Counters of searches. -/
structure SearchStatistics where
  decisions : Nat := 0
  propagations : Nat := 0
  conflicts : Nat := 0
  learntClauses : Nat := 0
  restarts : Nat := 0
  reductions : Nat := 0
  searches : Nat := 0

/-- Counters of backbone computations. -/
structure BackboneStatistics where
  calls : Nat := 0
  probes : Nat := 0
  forced : Nat := 0
  /-- Probes that forced another literal than the one probed. -/
  mismatched : Nat := 0
  postponed : Nat := 0
  models : Nat := 0
  impliedBinaries : Nat := 0

/-- Counters of decompositions and variable orders. -/
structure ComponentStatistics where
  decompositions : Nat := 0
  components : Nat := 0
  freeVars : Nat := 0
  varOrders : Nat := 0
  /-- Min-fill decompositions given up at the width bound. -/
  abandoned : Nat := 0

/-- What a solver counts. -/
structure Statistics where
  search : SearchStatistics := {}
  backbone : BackboneStatistics := {}
  components : ComponentStatistics := {}

/-- A solver. -/
structure Solver where
  /-- The options. -/
  options : Options
  /-- The number of variables. -/
  varCount : Nat
  /-- The clauses. -/
  store : ClauseStore
  /-- Which given long clauses a literal occurs in. -/
  membership : Membership
  /-- For every literal, the long clauses that watch it. -/
  watches : LitTable (Array ClauseId)
  /-- The current assignment. -/
  trail : Trail
  /-- The activity of literals. -/
  activity : Activity
  /-- The static variable order. -/
  order : VarOrder
  /-- The scope, and which variables are in it. -/
  scope : ScopeTable
  /-- The variables of the projection. -/
  projection : VarTable Bool
  /-- Root facts that were learnt above level 0. -/
  pendingFacts : List Lit
  /-- More learnt long clauses than this trigger a reduction. -/
  learntLimit : Nat
  /-- Whether the empty clause was derived. -/
  conflicted : Bool
  /-- The buffers of models. -/
  pool : ModelPool
  /-- What was counted so far. -/
  stats : Statistics

namespace Solver

/-- A solver without variables, with an explicit limit on learnt clauses. -/
def blank (options : Options) (learntLimit : Nat) : Solver :=
  { options := options
    varCount := 0
    store := .empty
    membership := .empty
    watches := default
    trail := .empty
    activity := .new options.activityDecay
    order := .empty
    scope := default
    projection := default
    pendingFacts := []
    learntLimit := learntLimit
    conflicted := false
    pool := {}
    stats := {} }

/-- A solver without variables. -/
def new (options : Options) : Solver := blank options options.maxLearnts

instance : Inhabited Solver := ⟨new {}⟩

/-- The current decision level. -/
def level (s : Solver) : Nat := s.trail.level

/-- Grows the solver to at least `count` variables. -/
def growTo (s : Solver) (count : Nat) : Solver :=
  if count ≤ s.varCount then s
  else
    { s with
      varCount := count
      store := s.store.resize count
      membership := s.membership.resize count
      watches := s.watches.resize count
      trail := s.trail.resize count
      activity := s.activity.resize count
      order := s.order.resize count
      scope := s.scope.resize count
      projection := s.projection.resize count }

/-- A fault if a variable is beyond the solver's. -/
def requireVar (s : Solver) (v : Var) : Except Fault Unit :=
  if v.index < s.varCount then .ok () else .error (.unknownVariable v)

/-- A fault if a component has a variable beyond the solver's. -/
def requireVars (s : Solver) (c : Component) : Except Fault Unit :=
  match c.unknownVar? s.varCount with
  | some v => .error (.unknownVariable v)
  | none => .ok ()

/-- A fault if a component lists a clause beyond the solver's. -/
def requireClauses (s : Solver) (c : Component) : Except Fault Unit :=
  match c.clauses.find? fun id => s.store.long.size ≤ id with
  | some id => .error (.unknownClause id)
  | none => .ok ()

/-- The truth value of a literal. -/
def value (s : Solver) (l : Lit) : Except Fault (Option Bool) := do
  s.requireVar l.var
  return s.trail.value l

/-- Makes a literal true at the current level. -/
def assign (s : Solver) (l : Lit) (reason : Reason) : Solver :=
  { s with trail := s.trail.push l s.trail.level reason }

/-- Records a root fact at whatever level. Above level 0 it is remembered, to
be asserted again after backtracking. -/
def assignRootFact (s : Solver) (l : Lit) : Solver :=
  let pending := if s.trail.level = 0 then s.pendingFacts else s.pendingFacts ++ [l]
  { s with trail := s.trail.push l 0 .decision, pendingFacts := pending }

/-- Opens a decision level with a literal. -/
def openDecision (s : Solver) (l : Lit) : Solver :=
  { s with trail := s.trail.openLevel }.assign l .decision

/-- Records that the empty clause was derived. -/
def setConflicted (s : Solver) : Solver := { s with conflicted := true }

/-- Whether some literal of a long clause is true. -/
def isSatisfied (s : Solver) (id : ClauseId) : Bool := (s.store.lits id).any s.trail.isTrue

/-- The clauses of a variable in the order of a traversal, each with the number
of literals that the table it is filed in is for. The tables of all clauses and
of wide ones promise none. -/
def filedOf (s : Solver) (v : Var) : Traversal → List (Option Nat × ClauseId)
  | .uniform => (s.membership.ofVar v).map (none, ·)
  | .arityClassed => v.lits.flatMap fun l =>
      s.membership.ternary[l].toList.map (some 3, ·)
        ++ s.membership.quaternary[l].toList.map (some 4, ·)
        ++ s.membership.wide[l].toList.map (none, ·)

/-- The literals of a clause, which is taken apart by the number of literals it is filed
under. -/
def filedLits (s : Solver) (filed : Option Nat × ClauseId) : Except Fault Clause :=
  let lits := s.store.lits filed.2
  if filed.1.any (· ≠ lits.length) then .error (.misfiledClause filed.2) else .ok lits

/-! ## Clauses -/

/-- Lets a long clause be watched under two literals. -/
def watch (watches : LitTable (Array ClauseId)) (id : ClauseId) (a b : Lit) :
    LitTable (Array ClauseId) :=
  (watches.modify a (·.push id)).modify b (·.push id)

/-- The watches of all long clauses of a store over `count` variables. -/
def watchAll (store : ClauseStore) (count : Nat) : LitTable (Array ClauseId) :=
  store.longClauses.foldl (fun w (id, c) => watch w id c.first c.second) (LitTable.sized count)

/-- Stores a clause given by its first literal and the rest, and watches it
if it is long. -/
def storeClause (s : Solver) (first : Lit) (rest : List Lit) (learnt : Bool) : Stored × Solver :=
  let (stored, store) := s.store.add first rest learnt
  match stored with
  | .long id =>
    let second := rest.headD first
    (stored, { s with store := store, watches := watch s.watches id first second })
  | _ => (stored, { s with store := store })

/-- Stores a normal clause at level 0. Literals that are not false come
first; a clause without any refutes the formula. -/
def insertClause (s : Solver) (c : Clause) (learnt : Bool) : Solver :=
  let isOpen (l : Lit) : Bool := !s.trail.isFalse l
  match c.filter isOpen ++ c.filter (fun l => !isOpen l) with
  | [] => s.setConflicted
  | first :: rest =>
    if s.trail.isFalse first then s.setConflicted
    else
      let (stored, s) := s.storeClause first rest learnt
      let s := match stored with
        | .unit l => if s.trail.isAssigned l.var then s else s.assign l .decision
        | .binary _ _ => s
        | .long id =>
          if learnt then s
          else { s with membership := s.membership.insert id (first :: rest) }
      -- earlier root facts may propagate through the new clause
      { s with trail := s.trail.rewind 0 }

/-- Adds a given clause, whatever the level. Tautologies only make their
variables known. -/
def addNormalized (s : Solver) (c : Clause) : Solver :=
  let s := s.growTo c.varBound
  match c.normalize with
  | none => s
  | some c => s.insertClause c false

/-- Adds a given clause, which is allowed at level 0 only. -/
def addClause (s : Solver) (c : Clause) : Except Fault Solver :=
  if s.level = 0 then .ok (s.addNormalized c) else .error .aboveRoot

/-- Adds variables to the projection. -/
def project (s : Solver) (vars : List Var) : Solver :=
  let s := s.growTo (vars.foldl (fun bound v => max bound (v.index + 1)) 0)
  { s with projection := vars.foldl (fun t v => t.set v true) s.projection }

/-- Makes some variables the projection. -/
def setProjection (s : Solver) (vars : List Var) : Solver :=
  let s := s.growTo (vars.foldl (fun bound v => max bound (v.index + 1)) 0)
  { s with projection := s.projection.fill false }.project vars

/-- Whether a variable belongs to the projection. -/
def isProjected (s : Solver) (v : Var) : Bool := s.projection[v]

/-- The variables of the projection, ascending. -/
def projected (s : Solver) : List Var := (Var.range s.varCount).filter s.isProjected

/-- The solver for a formula. -/
def ofFormula (f : Formula) (options : Options) : Solver :=
  let s := (new options).growTo f.numVariables
  let s := f.clauses.foldl addNormalized s
  match f.projection with
  | some vars => s.setProjection vars
  | none => s

/-- Adds what an item of a file states. Weights mean nothing to a solver. -/
def addItem (s : Solver) : Item → Solver
  | .varCount count => s.growTo count
  | .clause lits => s.addNormalized lits
  | .projection vars => s.project vars
  | .weight _ _ => s

/-- The solver for the items of a file, with default options. No limit on
learnt clauses is set for it, so every restart reduces them. -/
def ofItems (items : List Item) : Solver := items.foldl addItem (blank {} 0)

/-- Reads a solver from bytes. -/
def read (c : Cursor) : Except ReadError Solver := (readItems c).map ofItems

/-! ## Backtracking -/

/-- Asserts a pending root fact again after backtracking. -/
def restoreFact (s : Solver) (l : Lit) : Solver :=
  match s.trail.value l with
  | some true =>
    if s.trail.level = 0 then s else { s with pendingFacts := s.pendingFacts ++ [l] }
  | some false => s.setConflicted
  | none => s.assignRootFact l

/-- Takes everything above a level back. Root facts learnt there stay. -/
def backtrackTo (s : Solver) (level : Nat) : Solver :=
  if s.level ≤ level then s
  else
    let facts := s.pendingFacts
    facts.foldl restoreFact
      { s with trail := s.trail.backtrackTo level, pendingFacts := [] }

/-! ## Scopes -/

/-- Whether propagation may assign a variable. -/
def inScope (s : Solver) (v : Var) : Bool := s.scope.admits v

/-- Restricts propagation to the variables of a component. The previous
scope is given back, to be restored later. -/
def enterScope (s : Solver) (c : Component) : Except Fault (Option Scope × Solver) := do
  s.requireVars c
  let scope : Scope := { vars := c.vars, entry := s.trail.size }
  return (s.scope.current, { s with scope := s.scope.swap (some scope) })

/-- Leaves the current scope for one that was entered before. What was assigned
inside is propagated again, as implications that left the scope were skipped. -/
def restoreScope (s : Solver) (previous : Option Scope) : Solver :=
  let entry := match s.scope.current with
    | some scope => scope.entry
    | none => 0
  { s with scope := s.scope.swap previous, trail := s.trail.rewind entry }

end Solver

end Cleave
