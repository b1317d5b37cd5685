import Cleave.Clause
import Cleave.Table

/-!
# The clause store

A clause is given, as a part of the formula, or learnt on the way. Clauses
are kept by size. A clause of one literal is a root fact. A clause of two
literals is an implication in both directions: for every literal the store
lists what becomes true with it. The implications of given clauses are the
front of this list, and a count says where those of learnt ones begin. A longer
clause sits in an append-only arena, where its first two literals are the
watched ones.

The empty clause is never stored, so `ClauseStore.add` takes a clause as its
first literal and the rest.
-/

namespace Cleave

/-- What becomes true together with a literal, through binary clauses: one list,
those of given clauses in front. -/
structure Implications where
  /-- The consequences, those through given clauses first. -/
  all : List Lit := []
  /-- How many of them come from given clauses. -/
  given : Nat := 0
  given_le : given ≤ all.length := by simp

namespace Implications

instance : Inhabited Implications := ⟨{}⟩

/-- One more consequence. That of a given clause moves those of learnt ones one
place up; that of a learnt clause comes last. -/
def insert (i : Implications) (other : Lit) (learnt : Bool) : Implications :=
  if learnt then
    { all := i.all ++ [other]
      given := i.given
      given_le := by
        rw [List.length_append]
        exact Nat.le_add_right_of_le i.given_le }
  else
    { all := i.all.insertIdx i.given other
      given := i.given + 1
      given_le := by
        rw [List.length_insertIdx_of_le_length i.given_le]
        exact Nat.succ_le_succ i.given_le }

/-- The consequences through given clauses. -/
def front (i : Implications) : List Lit := i.all.take i.given

/-- All consequences, each with whether it comes from a learnt clause. This is
read off its place. -/
def flagged (i : Implications) : List (Lit × Bool) :=
  i.all.zipIdx.map fun (other, place) => (other, decide (i.given ≤ place))

end Implications

/-- A clause of three or more literals. -/
structure LongClause where
  /-- The first watched literal. -/
  first : Lit
  /-- The second watched literal. -/
  second : Lit
  /-- The literals that are not watched. -/
  rest : List Lit
  /-- Whether the clause was learnt. -/
  learnt : Bool
deriving DecidableEq, Inhabited

/-- All literals of a long clause, the watched ones first. -/
def LongClause.lits (c : LongClause) : Clause := c.first :: c.second :: c.rest

/-- The number of literals. -/
def LongClause.size (c : LongClause) : Nat := c.rest.length + 2

/-- The position of a long clause in the arena. -/
abbrev ClauseId := Nat

/-- Where a clause ended up. -/
inductive Stored where
  /-- A root fact. -/
  | unit (l : Lit)
  /-- A pair of implications. -/
  | binary (a b : Lit)
  /-- A long clause. -/
  | long (id : ClauseId)
deriving DecidableEq

/-- All clauses, given and learnt. -/
structure ClauseStore where
  /-- For every literal, its consequences through binary clauses. -/
  implications : LitTable Implications
  /-- The long clauses. -/
  long : Array LongClause
  /-- The root facts, given and learnt. -/
  units : Array Lit
  /-- The number of learnt long clauses. -/
  learntLong : Nat
deriving Inhabited

namespace ClauseStore

/-- The store without clauses over no variables. -/
def empty : ClauseStore := ⟨default, #[], #[], 0⟩

/-- Makes room for `count` variables. -/
def resize (s : ClauseStore) (count : Nat) : ClauseStore :=
  { s with implications := s.implications.resize count }

/-- Lists `other` among the consequences of `l`. -/
def imply (s : ClauseStore) (l other : Lit) (learnt : Bool) : ClauseStore :=
  { s with implications := s.implications.modify l (·.insert other learnt) }

/-- Adds the clause of `first` and `rest`. -/
def add (s : ClauseStore) (first : Lit) (rest : List Lit) (learnt : Bool) :
    Stored × ClauseStore :=
  match rest with
  | [] => (.unit first, { s with units := s.units.push first })
  | [b] =>
    (.binary first b, (s.imply first.neg b learnt).imply b.neg first learnt)
  | b :: c :: more =>
    (.long s.long.size,
      { s with
        long := s.long.push ⟨first, b, c :: more, learnt⟩
        learntLong := if learnt then s.learntLong + 1 else s.learntLong })

/-- What becomes true together with `l`. -/
def implied (s : ClauseStore) (l : Lit) : List Lit := s.implications[l].all

/-- The other literals of the given binary clauses that contain `l`. -/
def partners (s : ClauseStore) (l : Lit) : List Lit := s.implications[l.neg].front

/-- The long clause at a position. -/
def clause (s : ClauseStore) (id : ClauseId) : LongClause := s.long.getD id default

/-- The literals of a long clause. -/
def lits (s : ClauseStore) (id : ClauseId) : Clause := (s.clause id).lits

/-- The long clauses with their positions, in the order of the arena. -/
def longClauses (s : ClauseStore) : List (ClauseId × LongClause) :=
  (List.range s.long.size).map fun id => (id, s.clause id)

/-- The given long clauses with their positions. -/
def givenLong (s : ClauseStore) : List (ClauseId × LongClause) :=
  s.longClauses.filter fun (_, c) => !c.learnt

/-- Every binary clause once, with its learnt flag: by literal, and there
the clauses in which the negated literal is the smaller one. -/
def binaries (s : ClauseStore) : List (Clause × Bool) :=
  s.implications.toList.flatMap fun (l, i) =>
    i.flagged.filterMap fun (other, learnt) =>
      if l.neg.blt other then some ([l.neg, other], learnt) else none

/-- Every stored clause with its learnt flag. Root facts count as given. -/
def exported (s : ClauseStore) : List (Clause × Bool) :=
  s.units.toList.map (fun l => ([l], false))
    ++ s.binaries
    ++ s.long.toList.map fun c => (c.lits, c.learnt)

/-- Removes the learnt long clauses that `keep` gives up. The clauses left
move together; the result says where each old position went. -/
def retainLearnt (s : ClauseStore) (keep : ClauseId → LongClause → Bool) :
    Array (Option ClauseId) × ClauseStore :=
  let kept := s.longClauses.map fun (id, c) => (c, !c.learnt || keep id c)
  let moved := kept.foldl
    (fun (map, next) (_, stays) =>
      if stays then (map.push (some next), next + 1) else (map.push none, next))
    ((#[] : Array (Option ClauseId)), 0)
  let left := (kept.filterMap fun (c, stays) => if stays then some c else none).toArray
  (moved.1, { s with long := left, learntLong := left.toList.countP (·.learnt) })

end ClauseStore

end Cleave
