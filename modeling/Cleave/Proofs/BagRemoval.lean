import Cleave.Proofs.BagForests
import Mathlib.Combinatorics.SimpleGraph.DegreeSum

/-!
# Removing the leaves of a forest of bags

While leaves are removed from a forest of bags, degrees count the neighbours that
are left, and a bag that is left has at most one if and only if it is listed as a
leaf (`TreeDecomposition.Exact`). A degree is lowered when a neighbour goes that
it counts, so it is never zero then. And as a forest always has a bag with at most
one neighbour (`SimpleGraph.IsAcyclic.exists_ncard_neighborSet_le_one`), all bags go
(`TreeDecomposition.Exact.all_removed`), within two rounds for each.
-/

namespace SimpleGraph

/-- **A forest has a leaf**: if every vertex had two neighbours, there would be as
many edges as vertices. -/
theorem IsAcyclic.exists_ncard_neighborSet_le_one {V : Type} [Finite V] [Nonempty V]
    {G : SimpleGraph V} (h : G.IsAcyclic) : ∃ v, (G.neighborSet v).ncard ≤ 1 := by
  classical
  have := Fintype.ofFinite V
  by_contra! hall
  have hdegree : ∀ v, 2 ≤ G.degree v := fun v => by
    rw [← card_neighborSet_eq_degree, ← Nat.card_eq_fintype_card, Nat.card_coe_set_eq]
    exact hall v
  have hsum : 2 * Nat.card V ≤ ∑ v, G.degree v := by
    rw [Nat.card_eq_fintype_card, mul_comm, ← smul_eq_mul]
    exact Finset.card_nsmul_le_sum _ _ _ fun v _ => hdegree v
  have hedges : Nat.card G.edgeSet = G.edgeFinset.card := by
    rw [Nat.card_eq_fintype_card, edgeFinset_card]
  have hfewer := h.card_edgeSet_add_one_le.1
  rw [sum_degrees_eq_twice_card_edges, ← hedges] at hsum
  omega

end SimpleGraph

namespace Cleave

/-! ## Bags that are left -/

namespace TreeDecomposition

variable {d : TreeDecomposition} {p : Pruning} {removed : Array Bool} {leaf i j : Nat}
  {leaves : List Nat}

theorem mem_adjacentBags : j ∈ d.adjacentBags i ↔ (i, j) ∈ d.edges ∨ (j, i) ∈ d.edges := by
  unfold adjacentBags
  simp only [List.mem_flatMap, List.mem_append]
  constructor
  · rintro ⟨⟨a, b⟩, hmem, hin⟩
    rcases hin with hin | hin
    · obtain ⟨heq, hj⟩ := List.mem_ite_nil_right.mp hin
      rw [List.mem_singleton.mp hj, ← heq]
      exact Or.inl hmem
    · obtain ⟨heq, hj⟩ := List.mem_ite_nil_right.mp hin
      rw [List.mem_singleton.mp hj, ← heq]
      exact Or.inr hmem
  · rintro (hmem | hmem)
    · exact ⟨(i, j), hmem, Or.inl (by simp)⟩
    · exact ⟨(j, i), hmem, Or.inr (by simp)⟩

theorem mem_adjacentBags_iff_adj (h : IsForest d.edges) :
    j ∈ d.adjacentBags i ↔ (edgeGraph d.edges).Adj i j := by
  rw [mem_adjacentBags, edgeGraph_adj, and_iff_right_of_imp]
  rintro (hmem | hmem)
  · exact h.loopless _ hmem
  · exact (h.loopless _ hmem).symm

/-- In a forest every neighbour is listed once. -/
theorem nodup_adjacentBags (h : IsForest d.edges) (i : Nat) : (d.adjacentBags i).Nodup := by
  have hpairs : d.edges.Pairwise fun e e' => s(e.1, e.2) ≠ s(e'.1, e'.2) :=
    List.pairwise_map.mp h.nodup
  have hends : ∀ {e : Nat × Nat} {j},
      j ∈ (if e.1 = i then [e.2] else []) ++ (if e.2 = i then [e.1] else []) →
      s(e.1, e.2) = s(i, j) := by
    intro e j hj
    rcases List.mem_append.mp hj with hj | hj
    · obtain ⟨heq, hj⟩ := List.mem_ite_nil_right.mp hj
      rw [heq, List.mem_singleton.mp hj]
    · obtain ⟨heq, hj⟩ := List.mem_ite_nil_right.mp hj
      rw [heq, List.mem_singleton.mp hj]
      exact Sym2.eq_swap
  unfold adjacentBags
  rw [List.nodup_flatMap]
  refine ⟨fun e he => ?_, hpairs.imp fun hne => List.disjoint_left.mpr fun j hj hj' =>
    hne ((hends hj).trans (hends hj').symm)⟩
  have hne := h.loopless e he
  by_cases h1 : e.1 = i <;> by_cases h2 : e.2 = i <;> simp [h1, h2]
  exact hne (h1.trans h2.symm)

/-- How many of some bags are left. -/
def leftCount (removed : Array Bool) (bags : List Nat) : Nat :=
  bags.countP fun i => !removed.getD i true

theorem getD_remove (removed : Array Bool) (leaf i : Nat) :
    (removed.setIfInBounds leaf true).getD i true = (decide (leaf = i) || removed.getD i true) := by
  rw [Array.getD_eq_getD_getElem?, Array.getElem?_setIfInBounds, Array.getD_eq_getD_getElem?]
  by_cases heq : leaf = i
  · subst heq
    by_cases hlt : leaf < removed.size <;> simp [hlt]
  · simp [heq]

/-- **One bag less is left** after it was removed. -/
theorem leftCount_remove {bags : List Nat} (hnodup : bags.Nodup)
    (hleft : removed.getD leaf true = false) :
    leftCount (removed.setIfInBounds leaf true) bags + (if leaf ∈ bags then 1 else 0)
      = leftCount removed bags := by
  unfold leftCount
  induction bags with
  | nil => rfl
  | cons i bags ih =>
    obtain ⟨hnot, hnodup⟩ := List.nodup_cons.mp hnodup
    have ih := ih hnodup
    rw [List.countP_cons, List.countP_cons, getD_remove]
    by_cases heq : leaf = i
    · subst heq
      rw [if_neg hnot] at ih
      simp only [hleft, List.mem_cons_self, if_true, decide_true, Bool.true_or, Bool.not_true,
        Bool.not_false]
      simp only [Bool.false_eq_true, if_false]
      omega
    · simp only [List.mem_cons, heq, false_or, decide_false, Bool.false_or]
      omega

/-! ## Degrees and leaves -/

/-- A bag that was not removed. -/
abbrev Pruning.Left (p : Pruning) (i : Nat) : Prop := p.removed.getD i true = false

/-- **Leaf removal under way**: degrees count the neighbours that are left, and a
bag that is left has at most one if and only if it is listed as a leaf. -/
structure Exact (d : TreeDecomposition) (p : Pruning) : Prop where
  size_removed : p.removed.size = d.bags.size
  size_degree : p.degree.size = d.bags.size
  degree : ∀ i, p.Left i → p.degree.getD i 0 = leftCount p.removed (d.adjacentBags i)
  listed : ∀ i, p.Left i → (i ∈ p.leaves ↔ leftCount p.removed (d.adjacentBags i) ≤ 1)

theorem lt_size_of_left (hleft : removed.getD i true = false) : i < removed.size := by
  by_contra hge
  rw [Array.getD_eq_getD_getElem?, Array.getElem?_eq_none (Nat.not_lt.mp hge)] at hleft
  exact Bool.noConfusion hleft

/-- At most one bag is left of some, so it is the only one. -/
theorem eq_of_leftCount_le_one {bags : List Nat} (hle : leftCount removed bags ≤ 1) (hi : i ∈ bags)
    (hj : j ∈ bags) (hil : removed.getD i true = false) (hjl : removed.getD j true = false) :
    i = j := by
  unfold leftCount at hle
  rw [List.countP_eq_length_filter] at hle
  have hi : i ∈ bags.filter fun i => !removed.getD i true := List.mem_filter.mpr ⟨hi, by simp [hil]⟩
  have hj : j ∈ bags.filter fun i => !removed.getD i true := List.mem_filter.mpr ⟨hj, by simp [hjl]⟩
  match hfilter : bags.filter (fun i => !removed.getD i true), hle with
  | [], _ => exact absurd (hfilter ▸ hi) List.not_mem_nil
  | [k], _ =>
    rw [hfilter] at hi hj
    exact (List.mem_singleton.mp hi).trans (List.mem_singleton.mp hj).symm

/-- A bag that is removed, or removed before the leaf, is not left. -/
theorem left_remove : (removed.setIfInBounds leaf true).getD i true = false
    ↔ leaf ≠ i ∧ removed.getD i true = false := by
  rw [getD_remove, Bool.or_eq_false_iff, decide_eq_false_iff_not]

/-- **The parent of a leaf** is its only neighbour that is left. -/
theorem parent?_eq_some_iff (hf : IsForest d.edges)
    (hle : leftCount removed (d.adjacentBags leaf) ≤ 1) :
    d.parent? (removed.setIfInBounds leaf true) leaf = some i
      ↔ i ∈ d.adjacentBags leaf ∧ removed.getD i true = false := by
  have hother : ∀ {j}, j ∈ d.adjacentBags leaf → leaf ≠ j := fun hj =>
    ((mem_adjacentBags_iff_adj hf).mp hj).ne
  constructor
  · intro hfind
    have hmem := List.mem_of_find?_eq_some hfind
    have hleft := List.find?_some hfind
    exact ⟨hmem, (left_remove.mp (by simpa using hleft)).2⟩
  · rintro ⟨hmem, hleft⟩
    cases hfind : d.parent? (removed.setIfInBounds leaf true) leaf with
    | none =>
      have hnone := List.find?_eq_none.mp hfind i hmem
      exact absurd (left_remove.mpr ⟨hother hmem, hleft⟩) (by simpa using hnone)
    | some j =>
      have hmem' := List.mem_of_find?_eq_some hfind
      have hleft' := List.find?_some hfind
      have hleft' := (left_remove.mp (by simpa using hleft')).2
      rw [eq_of_leftCount_le_one hle hmem hmem' hleft hleft']

theorem prune_of_removed (hgone : p.removed.getD leaf true = true) :
    d.prune p leaf leaves = { p with leaves := leaves } := by
  unfold prune
  exact if_pos hgone

theorem mem_adjacentBags_comm : i ∈ d.adjacentBags j ↔ j ∈ d.adjacentBags i := by
  rw [mem_adjacentBags, mem_adjacentBags, or_comm]

/-- **What a round removes**: a leaf that is left has at most one neighbour left,
and if it has one, its degree can be lowered. -/
theorem Exact.parent?_spec (h : Exact d p) (hf : IsForest d.edges) (hleaf : leaf ∈ p.leaves)
    (hleft : p.Left leaf) : d.parent? (p.removed.setIfInBounds leaf true) leaf = some i
      ↔ i ∈ d.adjacentBags leaf ∧ p.Left i :=
  parent?_eq_some_iff hf ((h.listed leaf hleft).mp hleaf)

/-- **A degree that is lowered was positive**, as it counted the leaf. -/
theorem Exact.degree_pos (h : Exact d p) (hf : IsForest d.edges) (hleft : p.Left leaf)
    (hi : i ∈ d.adjacentBags leaf) (hil : p.Left i) :
    p.degree.getD i 0 = leftCount (p.removed.setIfInBounds leaf true) (d.adjacentBags i) + 1 := by
  rw [h.degree i hil, ← leftCount_remove (nodup_adjacentBags hf i) hleft,
    if_pos (mem_adjacentBags_comm.mpr hi)]

theorem mem_ite_cons {c : Prop} [Decidable c] {k : Nat} :
    k ∈ (if c then i :: leaves else leaves) ↔ (c ∧ k = i) ∨ k ∈ leaves := by
  by_cases hc : c <;> simp [hc]

/-- **A round keeps count.** -/
theorem Exact.prune (h : Exact d p) (hf : IsForest d.edges) (hleaves : p.leaves = leaf :: leaves) :
    Exact d (d.prune p leaf leaves) := by
  have hmem : ∀ k, leaf ≠ k → (k ∈ p.leaves ↔ k ∈ leaves) := fun k hne => by
    rw [hleaves, List.mem_cons, or_iff_right (Ne.symm hne)]
  cases hleft : p.removed.getD leaf true with
  | true =>
    rw [prune_of_removed hleft]
    refine ⟨h.size_removed, h.size_degree, h.degree, fun k hk => ?_⟩
    rw [← h.listed k hk]
    exact (hmem k fun heq => Bool.noConfusion (hleft.symm.trans (heq ▸ hk))).symm
  | false =>
    have hparent := fun i => h.parent?_spec (i := i) hf (hleaves ▸ List.mem_cons_self) hleft
    have hsize : (p.removed.setIfInBounds leaf true).size = d.bags.size :=
      (Array.size_setIfInBounds).trans h.size_removed
    -- the counts of bags that are not next to the leaf stay
    have hfar : ∀ k, leaf ∉ d.adjacentBags k → leftCount (p.removed.setIfInBounds leaf true)
        (d.adjacentBags k) = leftCount p.removed (d.adjacentBags k) := fun k hk => by
      rw [← leftCount_remove (nodup_adjacentBags hf k) hleft, if_neg hk, Nat.add_zero]
    unfold TreeDecomposition.prune
    rw [if_neg (Bool.eq_false_iff.mp hleft)]
    cases hp : d.parent? (p.removed.setIfInBounds leaf true) leaf with
    | none =>
      simp only [hp]
      have hnone : ∀ k, p.Left k → leaf ∉ d.adjacentBags k := fun k hk hin =>
        nomatch hp.symm.trans ((hparent k).mpr ⟨mem_adjacentBags_comm.mp hin, hk⟩)
      refine ⟨hsize, h.size_degree, fun k hk => ?_, fun k hk => ?_⟩
      · obtain ⟨hne, hk⟩ := left_remove.mp hk
        exact (h.degree k hk).trans (hfar k (hnone k hk)).symm
      · obtain ⟨hne, hk⟩ := left_remove.mp hk
        rw [← hmem k hne, h.listed k hk, hfar k (hnone k hk)]
    | some i =>
      simp only [hp]
      obtain ⟨hi, hil⟩ := (hparent i).mp hp
      have hlowered := h.degree_pos hf hleft hi hil
      have hother : ∀ k, p.Left k → i ≠ k → leaf ∉ d.adjacentBags k := fun k hk hne hin =>
        hne (Option.some.inj (hp.symm.trans ((hparent k).mpr ⟨mem_adjacentBags_comm.mp hin, hk⟩)))
      have hilt : i < p.degree.size :=
        (lt_size_of_left hil).trans_eq (h.size_removed.trans h.size_degree.symm)
      have hless : p.degree.getD i 0 - 1
          = leftCount (p.removed.setIfInBounds leaf true) (d.adjacentBags i) := by omega
      refine ⟨hsize, (Array.size_setIfInBounds).trans h.size_degree, fun k hk => ?_, fun k hk => ?_⟩
      · obtain ⟨hne, hk⟩ := left_remove.mp hk
        show (p.degree.setIfInBounds i (p.degree.getD i 0 - 1)).getD k 0 = _
        rw [Array.getD_eq_getD_getElem?, Array.getElem?_setIfInBounds]
        by_cases hik : i = k
        · subst hik
          rw [if_pos rfl, if_pos hilt, Option.getD_some, hless]
        · rw [if_neg hik, ← Array.getD_eq_getD_getElem?, h.degree k hk, hfar k (hother k hk hik)]
      · obtain ⟨hne, hk⟩ := left_remove.mp hk
        show k ∈ (if p.degree.getD i 0 - 1 ≤ 1 then i :: leaves else leaves) ↔ leftCount _ _ ≤ 1
        rw [mem_ite_cons, ← hmem k hne, h.listed k hk]
        by_cases hik : i = k
        · subst hik
          rw [← h.degree i hk, ← hless, and_iff_left rfl]
          exact or_iff_left_of_imp fun hle => (Nat.sub_le _ _).trans hle
        · rw [hfar k (hother k hk hik)]
          exact or_iff_right fun heq => hik heq.2.symm

/-- Before the first round all bags are left. -/
theorem left_startPruning : d.startPruning.Left i ↔ i < d.bags.size := by
  show (Array.replicate d.bags.size false).getD i true = false ↔ _
  rw [Array.getD_eq_getD_getElem?, Array.getElem?_replicate]
  split <;> simp_all

theorem exact_startPruning (hends : ∀ e ∈ d.edges, e.1 < d.bags.size ∧ e.2 < d.bags.size) :
    Exact d d.startPruning := by
  have hdegree : ∀ i < d.bags.size, d.startPruning.degree.getD i 0 = (d.adjacentBags i).length :=
    fun i hi => by simp [startPruning, hi]
  have hcount : ∀ i, leftCount d.startPruning.removed (d.adjacentBags i)
      = (d.adjacentBags i).length := fun i =>
    List.countP_eq_length.mpr fun j hj => by
      have hlt : j < d.bags.size := (mem_adjacentBags.mp hj).elim (fun h => (hends _ h).2)
        fun h => (hends _ h).1
      rw [left_startPruning.mpr hlt]
      rfl
  refine ⟨Array.size_replicate, by simp [startPruning], fun i hi => ?_, fun i hi => ?_⟩
  · rw [hcount, hdegree i (left_startPruning.mp hi)]
  · have hlt := left_startPruning.mp hi
    rw [hcount, ← hdegree i hlt]
    show i ∈ ((List.range d.bags.size).filter
      fun i => d.startPruning.degree.getD i 0 ≤ 1).reverse ↔ _
    rw [List.mem_reverse, List.mem_filter, List.mem_range, and_iff_right hlt, decide_eq_true_iff]

/-- **All bags are removed** when no leaf is listed: a forest of bags that are left
would have a leaf. -/
theorem Exact.all_removed (h : Exact d p) (hf : IsForest d.edges) (hleaves : p.leaves = [])
    (i : Nat) : ¬ p.Left i := by
  intro hi
  let left : Set Nat := {i | p.Left i}
  have : Finite left :=
    ((Set.finite_lt_nat p.removed.size).subset fun i hi => lt_size_of_left hi).to_subtype
  have : Nonempty left := ⟨⟨i, hi⟩⟩
  obtain ⟨⟨k, hk⟩, hle⟩ := (hf.acyclic.induce left).exists_ncard_neighborSet_le_one
  let neighbours := (d.adjacentBags k).filter fun j => !p.removed.getD j true
  have himage : Subtype.val '' ((edgeGraph d.edges).induce left).neighborSet ⟨k, hk⟩
      = neighbours.toFinset := by
    ext j
    rw [List.coe_toFinset, Set.mem_image]
    constructor
    · rintro ⟨⟨j, hj⟩, hadj, rfl⟩
      have hj : p.removed.getD j true = false := hj
      exact List.mem_filter.mpr ⟨(mem_adjacentBags_iff_adj hf).mpr hadj, by rw [hj]; rfl⟩
    · intro hj
      obtain ⟨hmem, hj⟩ := List.mem_filter.mp hj
      exact ⟨⟨j, Bool.not_eq_true' _ |>.mp hj⟩, (mem_adjacentBags_iff_adj hf).mp hmem, rfl⟩
  rw [← Set.ncard_image_of_injective _ Subtype.val_injective, himage, Set.ncard_coe_finset,
    List.toFinset_card_of_nodup ((nodup_adjacentBags hf k).filter _),
    ← List.countP_eq_length_filter] at hle
  have hin := (h.listed k hk).mpr hle
  rw [hleaves] at hin
  exact List.not_mem_nil hin

/-- What a run has before it: the leaves listed and the bags left. -/
def roundsLeft (d : TreeDecomposition) (p : Pruning) : Nat :=
  p.leaves.length + leftCount p.removed (List.range d.bags.size)

/-- **Every round brings the end closer**: a leaf goes off the list, and if another
one comes on it, a bag less is left. -/
theorem roundsLeft_prune (h : p.removed.size = d.bags.size) (hleaves : p.leaves = leaf :: leaves) :
    d.roundsLeft (d.prune p leaf leaves) < d.roundsLeft p := by
  unfold roundsLeft
  rw [hleaves, List.length_cons]
  cases hleft : p.removed.getD leaf true with
  | true =>
    rw [prune_of_removed hleft]
    exact Nat.add_lt_add_right (Nat.lt_succ_self _) _
  | false =>
    have hlt : leaf ∈ List.range d.bags.size := List.mem_range.mpr (h ▸ lt_size_of_left hleft)
    have hcount := leftCount_remove (List.nodup_range (n := d.bags.size)) hleft
    rw [if_pos hlt] at hcount
    unfold TreeDecomposition.prune
    rw [if_neg (Bool.eq_false_iff.mp hleft)]
    cases hp : d.parent? (p.removed.setIfInBounds leaf true) leaf with
    | none =>
      simp only [hp]
      omega
    | some i =>
      have hlisted : (if p.degree.getD i 0 - 1 ≤ 1 then i :: leaves else leaves).length
          ≤ leaves.length + 1 := by
        by_cases hle : p.degree.getD i 0 - 1 ≤ 1
        · rw [if_pos hle, List.length_cons]
        · rw [if_neg hle]
          omega
      simp only [hp]
      omega

theorem Exact.pruneAll (h : Exact d p) (hf : IsForest d.edges) (fuel : Nat) :
    Exact d (d.pruneAll fuel p) := by
  induction fuel generalizing p with
  | zero => exact h
  | succ fuel ih =>
    unfold TreeDecomposition.pruneAll
    cases hleaves : p.leaves with
    | nil => exact h
    | cons leaf leaves => exact ih (h.prune hf hleaves)

/-- **The rounds suffice**, by induction on them. -/
theorem Exact.leaves_pruneAll (h : Exact d p) (hf : IsForest d.edges) {fuel : Nat}
    (hfuel : d.roundsLeft p ≤ fuel) : (d.pruneAll fuel p).leaves = [] := by
  induction fuel generalizing p with
  | zero =>
    have hnone : p.leaves.length = 0 :=
      Nat.eq_zero_of_add_eq_zero_right (Nat.le_zero.mp hfuel)
    exact List.eq_nil_of_length_eq_zero hnone
  | succ fuel ih =>
    unfold TreeDecomposition.pruneAll
    cases hleaves : p.leaves with
    | nil => exact hleaves
    | cons leaf leaves =>
      exact ih (h.prune hf hleaves)
        (Nat.le_of_lt_succ ((roundsLeft_prune h.size_removed hleaves).trans_le hfuel))

theorem roundsLeft_startPruning (d : TreeDecomposition) :
    d.roundsLeft d.startPruning ≤ 2 * d.bags.size := by
  have hleaves : d.startPruning.leaves.length ≤ d.bags.size := by
    show ((List.range d.bags.size).filter
      fun i => d.startPruning.degree.getD i 0 ≤ 1).reverse.length ≤ _
    rw [List.length_reverse]
    exact (List.length_filter_le _ _).trans_eq List.length_range
  have hleft : leftCount d.startPruning.removed (List.range d.bags.size) ≤ d.bags.size :=
    (List.countP_le_length).trans_eq List.length_range
  unfold roundsLeft
  omega

end TreeDecomposition

end Cleave
