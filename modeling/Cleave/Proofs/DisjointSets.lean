import Cleave.Graph.TreeDecomposition
import Mathlib.Data.List.Perm.Subperm
import Mathlib.Order.Basic
import Mathlib.Order.Nat

/-!
# Disjoint sets

A forest of pointers stands for disjoint sets: all numbers of a set have one
representative, its root (`Forest.Represents`). Pointers stay within a set, and
along them a rank goes up, so that no way of pointers comes back to where it
was. As a way passes every number at most once, a search ends at the root
within as many steps as there are numbers (`Forest.Represents.find_spec`).

A search shortens the ways it takes: what it passes is pointed further up. This
changes neither the sets nor the ranks that serve as a measure, so they need not
be recomputed. Joining two sets hangs the root of one under that of the other
(`Forest.Represents.join?_spec`).
-/

namespace Cleave

namespace Forest

variable {f : Forest} {rank rep : Nat → Nat} {size a b i : Nat}

theorem getD_setIfInBounds_self (f : Forest) (i r j : Nat) :
    (f.setIfInBounds i r).getD j j = if i = j ∧ i < f.size then r else f.getD j j := by
  simp only [Array.getD_eq_getD_getElem?, Array.getElem?_setIfInBounds]
  by_cases hij : i = j
  · subst hij
    by_cases hlt : i < f.size <;> simp [hlt]
  · simp [hij]

/-- **A forest stands for disjoint sets**: `rep` gives the root of every number's
set. -/
structure Represents (f : Forest) (rank rep : Nat → Nat) : Prop where
  root_iff : ∀ i, f.getD i i = i ↔ rep i = i
  rep_rep : ∀ i, rep (rep i) = rep i
  rep_pointer : ∀ i, rep (f.getD i i) = rep i
  rep_lt : ∀ i < f.size, rep i < f.size
  /-- A pointer leads upwards. -/
  rank_lt : ∀ i, f.getD i i ≠ i → rank i < rank (f.getD i i)

theorem represents_singletons (size : Nat) : Represents (singletons size) (fun _ => 0) id := by
  have hself : ∀ i, (singletons size).getD i i = i := fun i => by
    unfold singletons
    rw [Array.getD_eq_getD_getElem?, Array.getElem?_range]
    split <;> rfl
  exact ⟨fun i => iff_of_true (hself i) rfl, fun _ => rfl, fun i => hself i, fun _ hi => hi,
    fun i hi => absurd (hself i) hi⟩

namespace Represents

/-- Beyond the forest every number is a root. -/
theorem lt_size (hi : f.getD i i ≠ i) : i < f.size := by
  by_contra hge
  refine hi ?_
  rw [Array.getD_eq_getD_getElem?, Array.getElem?_eq_none (Nat.not_lt.mp hge), Option.getD_none]

variable (h : f.Represents rank rep)

include h

/-- **Pointing a number to the pointer of its pointer** leaves the sets. -/
theorem halve (hi : f.getD i i ≠ i) :
    Represents (f.setIfInBounds i (f.getD (f.getD i i) (f.getD i i))) rank rep
      ∧ rank i < rank (f.getD (f.getD i i) (f.getD i i)) := by
  let next := f.getD (f.getD i i) (f.getD i i)
  have hup : rank i < rank next := by
    by_cases hparent : next = f.getD i i
    · rw [hparent]
      exact h.rank_lt i hi
    · exact (h.rank_lt i hi).trans (h.rank_lt _ hparent)
  have hrep : rep next = rep i := (h.rep_pointer _).trans (h.rep_pointer i)
  have hget : ∀ j, (f.setIfInBounds i next).getD j j = if i = j then next else f.getD j j :=
    fun j => by simp only [getD_setIfInBounds_self, lt_size hi, and_true]
  refine ⟨⟨fun j => ?_, h.rep_rep, fun j => ?_, fun j hj => ?_, fun j hj => ?_⟩, hup⟩
  · rw [hget]
    split
    · rename_i heq
      subst heq
      -- neither was it a root before, nor is it one now
      exact iff_of_false (fun heq => lt_irrefl _ (heq ▸ hup)) (mt (h.root_iff i).mpr hi)
    · exact h.root_iff j
  · rw [hget]
    split
    · rename_i heq
      exact heq ▸ hrep
    · exact h.rep_pointer j
  · rw [Array.size_setIfInBounds] at hj ⊢
    exact h.rep_lt j hj
  · rw [hget] at hj ⊢
    split
    · rename_i heq
      exact heq ▸ hup
    · rename_i hne
      rw [if_neg hne] at hj
      exact h.rank_lt j hj

/-- **A search ends at the root**, by induction on the steps left: what it has
seen are different numbers of smaller rank. -/
theorem findWithin_spec (fuel : Nat) {seen : List Nat} (hnodup : seen.Nodup)
    (hseen : ∀ j ∈ seen, j < f.size ∧ rank j < rank i) (hfuel : f.size ≤ fuel + seen.length) :
    (findWithin fuel f i).1 = rep i ∧ (findWithin fuel f i).2.Represents rank rep
      ∧ (findWithin fuel f i).2.size = f.size := by
  have hend : f.getD i i = i → i = rep i := fun hroot => ((h.root_iff i).mp hroot).symm
  have hall : f.getD i i ≠ i → (i :: seen).Nodup ∧ ∀ j ∈ i :: seen, j < f.size := fun hi =>
    ⟨List.nodup_cons.mpr ⟨fun hin => lt_irrefl _ (hseen i hin).2, hnodup⟩,
      List.forall_mem_cons.mpr ⟨lt_size hi, fun j hj => (hseen j hj).1⟩⟩
  induction fuel generalizing f i seen with
  | zero =>
    refine ⟨hend ?_, h, rfl⟩
    by_contra hi
    obtain ⟨hnodup', hlt⟩ := hall hi
    -- more different numbers than there are
    have hle := (hnodup'.subperm fun j hj => List.mem_range.mpr (hlt j hj)).length_le
    rw [List.length_cons, List.length_range] at hle
    omega
  | succ fuel ih =>
    unfold findWithin
    simp only
    split
    · rename_i hroot
      exact ⟨hend hroot, h, rfl⟩
    · rename_i hi
      obtain ⟨hhalved, hup⟩ := h.halve hi
      obtain ⟨hnodup', hlt⟩ := hall hi
      have hsize := @Array.size_setIfInBounds _ f i
        (a := f.getD (f.getD i i) (f.getD i i))
      have hseen' : ∀ j ∈ i :: seen, j < f.size
          ∧ rank j < rank (f.getD (f.getD i i) (f.getD i i)) := fun j hj => by
        refine ⟨hlt j hj, ?_⟩
        rcases List.mem_cons.mp hj with rfl | hj
        · exact hup
        · exact (hseen j hj).2.trans hup
      obtain ⟨hrep, hsets, hsize'⟩ := ih hhalved hnodup' (hsize.symm ▸ hseen')
        (by rw [hsize, List.length_cons]; omega) (fun hroot => ((hhalved.root_iff _).mp hroot).symm)
        (fun hnext => ⟨List.nodup_cons.mpr ⟨fun hin => lt_irrefl _ (hseen' _ hin).2, hnodup'⟩,
          List.forall_mem_cons.mpr ⟨lt_size hnext, fun j hj => hsize.symm ▸ hlt j hj⟩⟩)
      exact ⟨hrep.trans ((h.rep_pointer _).trans (h.rep_pointer i)), hsets, hsize'.trans hsize⟩

/-- **Finding the root** of a set leaves all sets as they are. -/
theorem find_spec (i : Nat) : (f.find i).1 = rep i ∧ (f.find i).2.Represents rank rep
    ∧ (f.find i).2.size = f.size :=
  h.findWithin_spec f.size List.nodup_nil (fun _ hj => nomatch hj) (Nat.le_refl _)

/-- **A root is hung under another one.** The ranks of the set it joins rise
above its own. -/
theorem link (ha : rep a = a) (hb : rep b = b) (hne : a ≠ b) (hlt : a < f.size)
    (hblt : b < f.size) :
    Represents (f.setIfInBounds a b) (fun j => if rep j = b then rank j + rank a + 1 else rank j)
      fun j => if rep j = a then b else rep j := by
  have hget : ∀ j, (f.setIfInBounds a b).getD j j = if a = j then b else f.getD j j :=
    fun j => by simp only [getD_setIfInBounds_self, hlt, and_true]
  refine ⟨fun j => ?_, fun j => ?_, fun j => ?_, fun j hj => ?_, fun j hj => ?_⟩
  · rw [hget]
    by_cases haj : a = j
    · subst haj
      rw [if_pos rfl, if_pos ha]
    · rw [if_neg haj, h.root_iff j]
      by_cases hin : rep j = a
      · rw [if_pos hin, hin]
        -- a number of the set of `a` is no root now: neither is it `a`, nor `b`
        exact iff_of_false haj fun heq => hne (by rw [← hin, ← heq, hb])
      · rw [if_neg hin]
  · by_cases hin : rep j = a
    · rw [if_pos hin, hb, if_neg (Ne.symm hne)]
    · rw [if_neg hin, h.rep_rep, if_neg hin]
  · rw [hget]
    by_cases haj : a = j
    · subst haj
      rw [if_pos rfl, if_pos ha, hb, if_neg (Ne.symm hne)]
    · rw [if_neg haj, h.rep_pointer]
  · rw [Array.size_setIfInBounds] at hj ⊢
    split
    · exact hblt
    · exact h.rep_lt j hj
  · rw [hget] at hj ⊢
    by_cases haj : a = j
    · subst haj
      rw [if_pos rfl, if_pos hb, ha, if_neg hne]
      omega
    · rw [if_neg haj] at hj ⊢
      have hlt := h.rank_lt j hj
      rw [h.rep_pointer]
      split <;> omega

/-- **Joining two sets** fails if they are the same set, and else makes them one. -/
theorem join?_spec (ha : a < f.size) (hb : b < f.size) :
    (rep a = rep b ∧ f.join? a b = none)
      ∨ rep a ≠ rep b ∧ ∃ f' rank', f.join? a b = some f' ∧ f'.size = f.size
        ∧ f'.Represents rank' fun j => if rep j = rep a then rep b else rep j := by
  obtain ⟨hra, hfa, hsa⟩ := h.find_spec a
  obtain ⟨hrb, hfb, hsb⟩ := hfa.find_spec b
  have hjoin : f.join? a b = if rep a = rep b then none
      else some (((f.find a).2.find b).2.setIfInBounds (rep a) (rep b)) := by
    unfold join?
    simp only [hra, hrb]
  have hsize := hsb.trans hsa
  by_cases hsame : rep a = rep b
  · exact Or.inl ⟨hsame, hjoin.trans (if_pos hsame)⟩
  · refine Or.inr ⟨hsame, _, _, hjoin.trans (if_neg hsame), ?_, hfb.link (h.rep_rep a) (h.rep_rep b)
      hsame (hsize.symm ▸ h.rep_lt a ha) (hsize.symm ▸ h.rep_lt b hb)⟩
    rw [Array.size_setIfInBounds, hsize]

end Represents

end Forest

end Cleave
