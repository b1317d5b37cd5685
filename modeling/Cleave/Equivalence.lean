import Cleave.Solver.Propagation

/-!
# Equivalent literals

Two given binary clauses `¬a ∨ b` and `a ∨ ¬b` make the literals `a` and
`b` equivalent. `Equivalences` keeps the classes of such literals, closed
under negation: every variable points to a literal it is equivalent to, of a
smaller variable, or to itself. `Solver.substitute` replaces every literal by
the representative of its class, the literal of the smallest variable; the
other variables then occur in no clause. A literal that is equivalent to its
own negation refutes the formula.
-/

namespace Cleave

/-- Classes of equivalent literals. -/
structure Equivalences where
  /-- A literal that the positive literal of each variable is equivalent to. -/
  parent : VarTable Lit
deriving Inhabited

namespace Lit

/-- The literal, or its opposite. -/
def flipUnless (l : Lit) (keep : Bool) : Lit := if keep then l else l.neg

end Lit

namespace Equivalences

/-- Every literal on its own, over `count` variables. -/
def discrete (count : Nat) : Equivalences := ⟨⟨((Var.range count).map Var.pos).toArray⟩⟩

/-- Follows the pointers from a literal to its representative. Pointers lead
to smaller variables. -/
def root (e : Equivalences) (l : Lit) : Lit :=
  let next := e.parent[l.var]
  if next.var.index < l.var.index then e.root (next.flipUnless l.positive) else l
termination_by l.var.index
decreasing_by
  simp only [Lit.flipUnless]
  split <;> simpa using ‹_ < _›

/-- Lets every variable on the way from `v` point to its representative;
`target` is the literal that `v` is equivalent to. -/
def compress (e : Equivalences) (v : Var) (target : Lit) : Equivalences :=
  let next := e.parent[v]
  if next.var.index < v.index then
    compress ⟨e.parent.set v target⟩ next.var (target.flipUnless next.positive)
  else e
termination_by v.index

/-- The representative of a literal. The pointers passed are shortened. -/
def find (e : Equivalences) (l : Lit) : Lit × Equivalences :=
  let root := e.root l.var.pos
  (root.flipUnless l.positive, e.compress l.var root)

/-- Makes two literals equivalent, unless the first one is equivalent to the
opposite of the second one. -/
def union? (e : Equivalences) (a b : Lit) : Option Equivalences :=
  let (ra, e) := e.find a
  let (rb, e) := e.find b
  if ra = rb then some e
  else if ra = rb.neg then none
  else
    let (keep, other) := if ra.var.index < rb.var.index then (ra, rb) else (rb, ra)
    some ⟨e.parent.set other.var (keep.flipUnless other.positive)⟩

/-- Replaces literals by their representatives. -/
def findAll (e : Equivalences) : List Lit → List Lit × Equivalences
  | [] => ([], e)
  | l :: rest =>
    let (r, e) := e.find l
    let (rs, e) := findAll e rest
    (r :: rs, e)

end Equivalences

/-- The variables that were replaced, each with the literal it is equivalent
to. -/
structure Substitution where
  /-- The replaced variables, ascending. -/
  replaced : List (Var × Lit) := []

namespace Substitution

/-- The number of replaced variables. -/
def size (sub : Substitution) : Nat := sub.replaced.length

/-- The literal a replaced variable is equivalent to. -/
def representative? (sub : Substitution) (v : Var) : Option Lit :=
  (sub.replaced.find? fun (replaced, _) => replaced = v).map (·.2)

/-- Gives the replaced variables of a model the values of their
representatives, where these have one. -/
def extendModel (sub : Substitution) (p : ModelPool) (m : Model) : Model × ModelPool :=
  sub.replaced.foldl
    (fun (m, p) (v, representative) =>
      match p.value m representative.var with
      | some value => p.assign m (v.lit (value == representative.positive))
      | none => (m, p))
    (m, p)

end Substitution

namespace Solver

/-- Unites an open variable with the open literals that it implies and that
imply it; nothing if this makes a literal equivalent to its opposite. -/
def uniteVar (s : Solver) (e : Equivalences) (v : Var) : Option Equivalences :=
  if s.trail.isAssigned v then some e
  else
    let backward := s.store.partners v.pos
    (s.store.partners v.neg).foldlM
      (fun e b =>
        if s.trail.isAssigned b.var || !backward.contains b.neg then some e
        else e.union? v.pos b)
      e

/-- The classes of literals made equivalent by given binary clauses. -/
def equivalences? (s : Solver) : Option Equivalences :=
  (Var.range s.varCount).foldlM s.uniteVar (.discrete s.varCount)

/-- The variables that are not their own representative. -/
def replacedVars (e : Equivalences) : List Var → List (Var × Lit) × Equivalences
  | [] => ([], e)
  | v :: rest =>
    let (r, e) := e.find v.pos
    let (more, e) := replacedVars e rest
    (if r.var = v then more else (v, r) :: more, e)

/-- Moves the projection of a replaced variable to its representative. -/
def moveProjection (projection : VarTable Bool) (replaced : Var × Lit) : VarTable Bool :=
  let (v, representative) := replaced
  if projection[v] then (projection.set representative.var true).set v false else projection

/-- Inserts clauses with every literal replaced by its representative. -/
def insertReplaced (s : Solver) (e : Equivalences) : List (Clause × Bool) → Solver
  | [] => s
  | (lits, learnt) :: rest =>
    let (lits, e) := e.findAll lits
    match Clause.normalize lits with
    | none => insertReplaced s e rest
    | some c => insertReplaced (s.insertClause c learnt) e rest

/-- Stores all clauses anew with replaced literals. Root facts keep their
values but lose their reasons. -/
def rebuild (s : Solver) (e : Equivalences) : Solver :=
  let trail := { s.trail with
    reasons := s.trail.lits.foldl (fun t l => t.set l.var .decision) s.trail.reasons }
  let cleared := { s with
    store := ClauseStore.empty.resize s.varCount
    watches := LitTable.sized s.varCount
    membership := Membership.empty.resize s.varCount
    trail := trail }
  cleared.insertReplaced e s.store.exported

/-- Replaces equivalent literals by a representative, which is allowed at
level 0 only. Positions of long clauses change. -/
def substitute (s : Solver) : Except Fault (Substitution × Solver) :=
  if s.level ≠ 0 then .error .aboveRoot
  else if s.conflicted then .ok ({}, s)
  else
    match s.equivalences? with
    | none => .ok ({}, s.setConflicted)
    | some e =>
      match replacedVars e (Var.range s.varCount) with
      | ([], _) => .ok ({}, s)
      | (replaced, e) =>
        let s := { s with projection := replaced.foldl moveProjection s.projection }
        let s := s.rebuild e
        let s := { s with
          order := VarOrder.empty.resize s.varCount
          activity := s.activity.reset }
        match s.propagateFrom 0 with
        | (some _, s) => .ok (⟨replaced⟩, s.setConflicted)
        | (none, s) => .ok (⟨replaced⟩, s)

end Solver

end Cleave
