import Cleave.Clause.Store

/-!
# The implications of a literal

The consequences of a literal stand in one list, and a count tells where those
through learnt clauses begin. Both parts keep their order when one more is put in
(`Implications.part_insert`): what comes from a given clause goes in where the
front ends, in the middle of the list. Whether a consequence comes from a learnt
clause is told by its place, and this is what it was put in with
(`Implications.flagged_eq`, `Implications.mem_flagged`).
-/

namespace Cleave

/-- An element put in where a list ends and another one begins. -/
theorem insertIdx_length_append {α : Type} (xs ys : List α) (a : α) :
    (xs ++ ys).insertIdx xs.length a = xs ++ a :: ys := by
  induction xs with
  | nil => rfl
  | cons x xs ih => exact congrArg (x :: ·) ih

namespace Implications

variable {i : Implications} {b : Lit} {learnt flag : Bool}

/-- **The consequences of one kind**: the front of the list, or what is behind it. -/
def part (i : Implications) (learnt : Bool) : List Lit :=
  if learnt then i.all.drop i.given else i.front

theorem all_eq (i : Implications) : i.all = i.part false ++ i.part true :=
  (List.take_append_drop i.given i.all).symm

theorem length_front (i : Implications) : i.front.length = i.given :=
  List.length_take_of_le i.given_le

@[simp] theorem part_default (learnt : Bool) : (default : Implications).part learnt = [] := by
  cases learnt <;> rfl

theorem mem_all_iff : b ∈ i.all ↔ ∃ learnt, b ∈ i.part learnt := by
  rw [all_eq, List.mem_append, Bool.exists_bool]

/-- What comes from a given clause goes in between the two parts, what comes from a
learnt one behind both. -/
theorem all_insert (i : Implications) (b : Lit) (learnt : Bool) :
    (i.insert b learnt).all
      = i.part false ++ (if learnt then i.part true ++ [b] else b :: i.part true) := by
  cases learnt with
  | true =>
    show i.all ++ [b] = _
    rw [all_eq, List.append_assoc]
    rfl
  | false =>
    show i.all.insertIdx i.given b = _
    have h := insertIdx_length_append i.front (i.part true) b
    rw [length_front] at h
    rw [all_eq]
    exact h

theorem given_insert (i : Implications) (b : Lit) (learnt : Bool) :
    (i.insert b learnt).given = i.given + if learnt then 0 else 1 := by
  cases learnt <;> rfl

/-- **Both parts keep their order**: one more consequence is the last of its kind. -/
theorem part_insert (i : Implications) (b : Lit) (learnt flag : Bool) :
    (i.insert b learnt).part flag = i.part flag ++ if flag = learnt then [b] else [] := by
  have hlen : (i.part false).length = i.given := i.length_front
  have hpart : (i.insert b learnt).part flag
      = if flag then (i.insert b learnt).all.drop (i.insert b learnt).given
        else (i.insert b learnt).all.take (i.insert b learnt).given := rfl
  rw [hpart, all_insert, given_insert, ← hlen]
  cases learnt <;> cases flag <;> simp [List.take_append, List.drop_append, List.take_of_length_le]

theorem front_insert (i : Implications) (b : Lit) (learnt : Bool) :
    (i.insert b learnt).front = i.front ++ if learnt then [] else [b] := by
  refine (i.part_insert b learnt false).trans ?_
  cases learnt <;> rfl

theorem mem_all_insert {c : Lit} : c ∈ (i.insert b learnt).all ↔ c ∈ i.all ∨ c = b := by
  simp only [mem_all_iff, part_insert, Bool.exists_bool, List.mem_append]
  cases learnt
  · simp [or_right_comm]
  · simp [or_assoc]

/-- **The place tells the kind**: the flags are false along the front and true
behind it. -/
theorem flagged_eq (i : Implications) :
    i.flagged = (i.part false).map (·, false) ++ (i.part true).map (·, true) := by
  have hlen : (i.part false).length = i.given := i.length_front
  show i.all.zipIdx.map _ = _
  rw [all_eq, List.zipIdx_append, List.map_append, hlen]
  congr 1
  · refine List.ext_getElem (by simp) fun n hn _ => ?_
    have hlt : n < i.given := by simpa [hlen] using hn
    simp [Nat.not_le.mpr hlt]
  · refine List.ext_getElem (by simp) fun n _ _ => ?_
    simp

theorem mem_flagged : (b, learnt) ∈ i.flagged ↔ b ∈ i.part learnt := by
  rw [flagged_eq]
  cases learnt <;> simp

/-- One more consequence is flagged by its kind, and the others keep their flags. -/
theorem flagged_insert (i : Implications) (b : Lit) (learnt : Bool) :
    (i.insert b learnt).flagged.Perm ((b, learnt) :: i.flagged) := by
  simp only [flagged_eq, part_insert, List.map_append]
  cases learnt with
  | true =>
    rw [if_neg (by decide), if_pos rfl, List.map_nil, List.append_nil, ← List.append_assoc]
    exact List.perm_append_singleton _ _
  | false =>
    rw [if_pos rfl, if_neg (by decide), List.map_nil, List.append_nil]
    exact (List.perm_append_singleton _ _).append_right _

end Implications

end Cleave
