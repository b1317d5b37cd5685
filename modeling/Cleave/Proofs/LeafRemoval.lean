import Cleave.Proofs.BagRemoval
import Cleave.Proofs.GreedyElimination

/-!
# Leaf removal gives an elimination order

Removing leaves from a forest of bags eliminates every vertex with the last bag
that has it. What a leaf does not share with its parent is in no other bag that is
left, since the bags of a vertex stay connected. So when it is eliminated all of
its remaining neighbours are in the leaf with it, which bounds their number by the
width (`TreeDecomposition.Eliminates.cons`). They become a clique, but one that lies
in the leaf, and what remains of the leaf is in its parent: every edge keeps a bag
that is left (`TreeDecomposition.Pruned.prune`). In the end no bag is left, so every
vertex was eliminated.
-/

namespace SimpleGraph

variable {V : Type} {G : SimpleGraph V} {s : Set V} {a b : V}

/-- What is connected to another vertex has a neighbour. -/
theorem Preconnected.exists_adj (h : (G.induce s).Preconnected) (ha : a ∈ s) (hb : b ∈ s)
    (hne : a ≠ b) : ∃ c ∈ s, G.Adj a c := by
  obtain ⟨walk⟩ := h ⟨a, ha⟩ ⟨b, hb⟩
  cases walk with
  | nil => exact absurd rfl hne
  | @cons _ c _ hadj _ => exact ⟨c, c.2, hadj⟩

/-- **A leaf can be taken away**: whatever leads through it comes back to where it
came from. -/
theorem Preconnected.induce_diff_singleton (h : (G.induce s).Preconnected)
    (hleaf : ∀ b ∈ s, ∀ c ∈ s, G.Adj a b → G.Adj a c → b = c) :
    (G.induce (s \ {a})).Preconnected := by
  rintro ⟨x, hx, hxa⟩ ⟨y, hy, hya⟩
  let Reached (c : V) : Prop := ∃ hc : c ∈ s \ {a},
    (G.induce (s \ {a})).Reachable ⟨x, hx, hxa⟩ ⟨c, hc⟩
  have hstep : ∀ {b c : V}, Reached b → c ∈ s → c ≠ a → G.Adj b c → Reached c :=
    fun ⟨hb, hreach⟩ hc hca hadj =>
      have hadj : (G.induce (s \ {a})).Adj ⟨_, hb⟩ ⟨_, hc, hca⟩ := hadj
      ⟨⟨hc, hca⟩, hreach.trans hadj.reachable⟩
  -- at the leaf itself, what counts is that its only neighbour was reached
  have hall : ∀ y : s, (G.induce s).Reachable ⟨x, hx⟩ y →
      (y.1 ≠ a → Reached y) ∧ (y.1 = a → ∀ c ∈ s, G.Adj a c → Reached c) := fun y hreach => by
    rw [reachable_iff_reflTransGen] at hreach
    induction hreach with
    | refl => exact ⟨fun _ => ⟨⟨hx, hxa⟩, .refl _⟩, fun heq => absurd heq hxa⟩
    | @tail b c _ hadj ih =>
      have hadj : G.Adj b c := hadj
      by_cases hba : b.1 = a
      · have hcome := ih.2 hba c c.2 (hba ▸ hadj)
        exact ⟨fun _ => hcome, fun hca => absurd hca hcome.1.2⟩
      · have hreached := ih.1 hba
        refine ⟨fun hca => hstep hreached c.2 hca hadj, fun hca c' hc' hadj' => ?_⟩
        have hback : G.Adj a b := hca ▸ hadj.symm
        exact hleaf b b.2 c' hc' hback hadj' ▸ hreached
  exact ((hall ⟨y, hy⟩ (h _ _)).1 hya).2

end SimpleGraph

namespace Cleave

namespace TreeDecomposition

variable {d : TreeDecomposition} {p : Pruning} {leaf i j : Nat} {leaves : List Nat}

/-! ## Vertices that are eliminated -/

variable {g : Graph} {left : Nat → Prop} {done : List Var} {v : Var}

/-- **Elimination under way**, latest vertex first: every edge of what remains of
the graph is in a bag that is left, and no vertex had more remaining neighbours
than the width when it went. -/
structure Eliminates (d : TreeDecomposition) (g : Graph) (left : Nat → Prop) (done : List Var) :
    Prop where
  nodup : done.Nodup
  covered : ∀ a b, (g.eliminationGraph done.reverse).Adj a b →
    ∃ i, left i ∧ a ∈ d.bag i ∧ b ∈ d.bag i
  bounded : ∀ past v rest, done.reverse = past ++ v :: rest →
    ((g.eliminationGraph past).neighborSet v).encard ≤ d.width

/-- **A vertex with one bag left** has all its remaining neighbours in it. -/
theorem Eliminates.cons (h : Eliminates d g left done) (hwidth : (d.bag leaf).length ≤ d.width + 1)
    (hleaf : left leaf) (hv : v ∈ d.bag leaf) (hown : ∀ i, left i → v ∈ d.bag i → i = leaf)
    (hnew : v ∉ done) : Eliminates d g left (v :: done) := by
  have hin : ∀ {u}, (g.eliminationGraph done.reverse).Adj v u → u ∈ d.bag leaf := fun hadj => by
    obtain ⟨i, hi, hvi, hui⟩ := h.covered _ _ hadj
    exact hown i hi hvi ▸ hui
  have hfew : ((g.eliminationGraph done.reverse).neighborSet v).encard ≤ d.width := by
    have hsub : (g.eliminationGraph done.reverse).neighborSet v ⊆ ((d.bag leaf).toFinset.erase v) :=
      fun u hadj => by
        rw [Finset.coe_erase, List.coe_toFinset]
        exact ⟨hin hadj, (SimpleGraph.ne_of_adj _ hadj).symm⟩
    have hcard : ((d.bag leaf).toFinset.erase v).card ≤ d.width := by
      rw [Finset.card_erase_of_mem (List.mem_toFinset.mpr hv)]
      have hle := List.toFinset_card_le (d.bag leaf)
      omega
    refine (Set.encard_le_encard hsub).trans ?_
    rw [Set.encard_coe_eq_coe_finsetCard]
    exact_mod_cast hcard
  refine ⟨List.nodup_cons.mpr ⟨hnew, h.nodup⟩, fun a b hadj => ?_, fun past u rest hsplit => ?_⟩
  · rw [List.reverse_cons, Graph.eliminationGraph_concat] at hadj
    obtain ⟨-, -, -, hadj | ⟨hva, hvb⟩⟩ := hadj
    · exact h.covered a b hadj
    · exact ⟨leaf, hleaf, hin hva, hin hvb⟩
  · rw [List.reverse_cons] at hsplit
    rcases List.eq_nil_or_concat rest with rfl | ⟨rest, u', rfl⟩
    · obtain ⟨rfl, heq⟩ := List.append_inj' hsplit rfl
      obtain rfl := List.singleton_inj.mp heq
      exact hfew
    · rw [List.concat_eq_append, ← List.cons_append, ← List.append_assoc] at hsplit
      exact h.bounded past u rest (List.append_inj' hsplit rfl).1

/-- **What a leaf does not share is eliminated**, by induction on the rest of the
bag. -/
theorem Eliminates.foldl (h : Eliminates d g left done) (hwidth : (d.bag leaf).length ≤ d.width + 1)
    (hleaf : left leaf) {shared : Var → Bool} {vs : List Var} (hvs : ∀ v ∈ vs, v ∈ d.bag leaf)
    (hown : ∀ v ∈ d.bag leaf, shared v = false → ∀ i, left i → v ∈ d.bag i → i = leaf) :
    Eliminates d g left
        (vs.foldl (fun done v => if shared v || done.contains v then done else v :: done) done)
      ∧ ∀ u,
        u ∈ vs.foldl (fun done v => if shared v || done.contains v then done else v :: done) done
        ↔ u ∈ done ∨ (u ∈ vs ∧ shared u = false) := by
  induction vs generalizing done with
  | nil => exact ⟨h, fun u => by simp⟩
  | cons v vs ih =>
    have hv := hvs v List.mem_cons_self
    have hvs' : ∀ u ∈ vs, u ∈ d.bag leaf := fun u hu => hvs u (List.mem_cons_of_mem _ hu)
    rw [List.foldl_cons]
    by_cases hskip : (shared v || done.contains v) = true
    · rw [if_pos hskip]
      obtain ⟨hkept, hmem⟩ := ih h hvs'
      refine ⟨hkept, fun u => (hmem u).trans ⟨fun hu => ?_, fun hu => ?_⟩⟩
      · exact hu.imp_right fun ⟨hin, hu⟩ => ⟨List.mem_cons_of_mem _ hin, hu⟩
      · rcases hu with hu | ⟨hin, hu⟩
        · exact Or.inl hu
        · rcases List.mem_cons.mp hin with rfl | hin
          · rw [hu, Bool.false_or] at hskip
            exact Or.inl (List.contains_iff_mem.mp hskip)
          · exact Or.inr ⟨hin, hu⟩
    · rw [if_neg hskip]
      obtain ⟨hshared, hnew⟩ := Bool.or_eq_false_iff.mp (Bool.eq_false_iff.mpr hskip)
      have hgone := h.cons hwidth hleaf hv (hown v hv hshared) (by simpa using hnew)
      obtain ⟨hkept, hmem⟩ := ih hgone hvs'
      refine ⟨hkept, fun u => (hmem u).trans ⟨fun hu => ?_, fun hu => ?_⟩⟩
      · rcases hu with hu | ⟨hin, hu⟩
        · rcases List.mem_cons.mp hu with rfl | hu
          · exact Or.inr ⟨List.mem_cons_self, hshared⟩
          · exact Or.inl hu
        · exact Or.inr ⟨List.mem_cons_of_mem _ hin, hu⟩
      · rcases hu with hu | ⟨hin, hu⟩
        · exact Or.inl (List.mem_cons_of_mem _ hu)
        · rcases List.mem_cons.mp hin with rfl | hin
          · exact Or.inl List.mem_cons_self
          · exact Or.inr ⟨hin, hu⟩

/-- What is eliminated has no edge left. -/
theorem not_mem_of_adj (g : Graph) {past : List Var} {a b : Var}
    (hadj : (g.eliminationGraph past).Adj a b) : a ∉ past := by
  induction past using List.reverseRecOn generalizing a b with
  | nil => exact List.not_mem_nil
  | append_singleton past v ih =>
    rw [Graph.eliminationGraph_concat] at hadj
    obtain ⟨hne, -, -, hadj⟩ := hadj
    have hold : a ∉ past := hadj.elim ih fun hboth => ih hboth.1.symm
    rw [List.mem_append, List.mem_singleton]
    exact not_or.mpr ⟨hold, hne⟩

/-- **Leaf removal over a tree decomposition**: what is eliminated are the vertices
with no bag left, and the bags that are left of a vertex are connected. -/
structure Pruned (d : TreeDecomposition) (g : Graph) (p : Pruning) : Prop where
  exact : Exact d p
  eliminates : Eliminates d g p.Left p.eliminated
  vertices : ∀ v ∈ p.eliminated, v ∈ g.vertices
  mem_eliminated : ∀ v ∈ g.vertices, (v ∈ p.eliminated ↔ ∀ i, p.Left i → v ∉ d.bag i)
  connected : ∀ v ∈ g.vertices,
    ((edgeGraph d.edges).induce {i | p.Left i ∧ v ∈ d.bag i}).Preconnected

theorem pruned_startPruning (h : d.Decomposes g) : Pruned d g d.startPruning where
  exact := exact_startPruning h.bags
  eliminates := by
    refine ⟨List.nodup_nil, fun a b hadj => ?_, fun past v rest hsplit => ?_⟩
    · obtain ⟨-, hedge⟩ := (SimpleGraph.fromRel_adj _ a b).mp hadj
      rcases hedge with ⟨ha, hb⟩ | ⟨hb, ha⟩
      · obtain ⟨i, hi, hai, hbi⟩ := h.edges a ha b hb
        exact ⟨i, left_startPruning.mpr hi, hai, hbi⟩
      · obtain ⟨i, hi, hbi, hai⟩ := h.edges b hb a ha
        exact ⟨i, left_startPruning.mpr hi, hai, hbi⟩
    · cases past <;> cases hsplit
  vertices _ hv := nomatch hv
  mem_eliminated v hv := by
    obtain ⟨i, hi, hin⟩ := h.vertices v hv
    exact iff_of_false List.not_mem_nil fun hno => hno i (left_startPruning.mpr hi) hin
  connected v hv := by
    have hall : {i | d.startPruning.Left i ∧ v ∈ d.bag i} = {i | i < d.bags.size ∧ v ∈ d.bag i} :=
      Set.ext fun i => and_congr_left fun _ => left_startPruning
    exact hall ▸ h.connected v hv

/-- Whether a leaf shares a vertex with its parent. -/
def sharedWith (d : TreeDecomposition) (parent : Option Nat) (v : Var) : Bool :=
  match parent with
  | some i => (d.bag i).contains v
  | none => false

theorem sharedWith_iff {parent : Option Nat} :
    d.sharedWith parent v = true ↔ ∃ i, parent = some i ∧ v ∈ d.bag i := by
  cases parent with
  | none => exact iff_of_false Bool.false_ne_true fun ⟨_, hno, _⟩ => nomatch hno
  | some i => simp [sharedWith]

/-- What a round does to the bags and the vertices. -/
theorem prune_of_left (d : TreeDecomposition) (leaves : List Nat) (hleft : p.Left leaf) :
    (∀ i, (d.prune p leaf leaves).Left i ↔ leaf ≠ i ∧ p.Left i)
      ∧ (d.prune p leaf leaves).eliminated = (d.bag leaf).foldl (fun done v =>
        if d.sharedWith (d.parent? (p.removed.setIfInBounds leaf true) leaf) v || done.contains v
        then done else v :: done) p.eliminated := by
  have hfields : (d.prune p leaf leaves).removed = p.removed.setIfInBounds leaf true
      ∧ (d.prune p leaf leaves).eliminated = d.eliminateLeaf leaf
        (d.parent? (p.removed.setIfInBounds leaf true) leaf) p.eliminated := by
    unfold prune
    rw [if_neg (Bool.eq_false_iff.mp hleft)]
    cases hp : d.parent? (p.removed.setIfInBounds leaf true) leaf <;> simp only [hp, and_self]
  refine ⟨fun i => ?_, hfields.2⟩
  rw [Pruning.Left, hfields.1]
  exact left_remove

namespace Pruned

variable (h : Pruned d g p) (hd : d.Decomposes g)

include h hd

/-- **What a leaf does not share is in no other bag that is left**, as the parent
leads to all of these. -/
theorem eq_of_not_shared (hvars : ∀ v ∈ d.bag leaf, v ∈ g.vertices) (hleaf : leaf ∈ p.leaves)
    (hleft : p.Left leaf) (hv : v ∈ d.bag leaf)
    (hno : d.sharedWith (d.parent? (p.removed.setIfInBounds leaf true) leaf) v = false)
    (hi : p.Left i) (hin : v ∈ d.bag i) : i = leaf := by
  by_contra hne
  obtain ⟨c, ⟨hc, hvc⟩, hadj⟩ := (h.connected v (hvars v hv)).exists_adj ⟨hleft, hv⟩ ⟨hi, hin⟩
    (Ne.symm hne)
  have hparent := (h.exact.parent?_spec hd.forest hleaf hleft).mpr
    ⟨(mem_adjacentBags_iff_adj hd.forest).mpr hadj, hc⟩
  exact Bool.noConfusion (hno.symm.trans (sharedWith_iff.mpr ⟨c, hparent, hvc⟩))

/-- **What a leaf shares stays** in a bag that is left. -/
theorem left_of_shared (leaves : List Nat) (hleaf : leaf ∈ p.leaves) (hleft : p.Left leaf)
    (hp : d.parent? (p.removed.setIfInBounds leaf true) leaf = some i) :
    (d.prune p leaf leaves).Left i := by
  obtain ⟨hmem, hi⟩ := (h.exact.parent?_spec hd.forest hleaf hleft).mp hp
  have hadj := (mem_adjacentBags_iff_adj hd.forest).mp hmem
  exact ((prune_of_left d leaves hleft).1 i).mpr ⟨hadj.ne, hi⟩

/-- What a round eliminates besides what was: the vertices that the leaf does not
share. The graph they leave has its edges in the old bags. -/
theorem eliminates_prune (leaves : List Nat) (hwidth : (d.bag leaf).length ≤ d.width + 1)
    (hvars : ∀ v ∈ d.bag leaf, v ∈ g.vertices) (hleaf : leaf ∈ p.leaves) (hleft : p.Left leaf) :
    Eliminates d g p.Left (d.prune p leaf leaves).eliminated
      ∧ ∀ v, v ∈ (d.prune p leaf leaves).eliminated ↔ v ∈ p.eliminated ∨ (v ∈ d.bag leaf
        ∧ d.sharedWith (d.parent? (p.removed.setIfInBounds leaf true) leaf) v = false) := by
  rw [(prune_of_left d leaves hleft).2]
  exact h.eliminates.foldl hwidth hleft (fun _ hv => hv) fun _ hv hno _ hi hin =>
    h.eq_of_not_shared hd hvars hleaf hleft hv hno hi hin

/-- **An edge that remains is in a bag that is left**: if the leaf has it, so has the
parent, as the leaf shares both ends. -/
theorem covered_prune (leaves : List Nat) (hwidth : (d.bag leaf).length ≤ d.width + 1)
    (hvars : ∀ v ∈ d.bag leaf, v ∈ g.vertices) (hleaf : leaf ∈ p.leaves) (hleft : p.Left leaf)
    {a b : Var} (hab : (g.eliminationGraph (d.prune p leaf leaves).eliminated.reverse).Adj a b) :
    ∃ i, (d.prune p leaf leaves).Left i ∧ a ∈ d.bag i ∧ b ∈ d.bag i := by
  obtain ⟨hkept, hmem⟩ := h.eliminates_prune hd leaves hwidth hvars hleaf hleft
  -- an end that the leaf does not share would be gone
  have hshared : ∀ {a b},
      (g.eliminationGraph (d.prune p leaf leaves).eliminated.reverse).Adj a b → a ∈ d.bag leaf →
      ∃ i, d.parent? (p.removed.setIfInBounds leaf true) leaf = some i ∧ a ∈ d.bag i :=
      fun hab ha => by
    have hnot := mt List.mem_reverse.mpr (not_mem_of_adj g hab)
    rw [hmem] at hnot
    refine sharedWith_iff.mp ?_
    by_contra hno
    exact hnot (Or.inr ⟨ha, Bool.eq_false_iff.mpr hno⟩)
  obtain ⟨i, hi, hai, hbi⟩ := hkept.covered a b hab
  by_cases hne : leaf = i
  · subst hne
    obtain ⟨j, hj, haj⟩ := hshared hab hai
    obtain ⟨j', hj', hbj⟩ := hshared hab.symm hbi
    obtain rfl := Option.some.inj (hj.symm.trans hj')
    exact ⟨j, h.left_of_shared hd leaves hleaf hleft hj, haj, hbj⟩
  · exact ⟨i, ((prune_of_left d leaves hleft).1 i).mpr ⟨hne, hi⟩, hai, hbi⟩

/-- **The bags left of a vertex stay connected**, since a leaf has one neighbour at
most among them. -/
theorem connected_prune (leaves : List Nat) (hleaf : leaf ∈ p.leaves) (hleft : p.Left leaf)
    (hv : v ∈ g.vertices) :
    ((edgeGraph d.edges).induce
      {i | (d.prune p leaf leaves).Left i ∧ v ∈ d.bag i}).Preconnected := by
  have hdiff : {i | (d.prune p leaf leaves).Left i ∧ v ∈ d.bag i}
      = {i | p.Left i ∧ v ∈ d.bag i} \ {leaf} := Set.ext fun i => by
    show _ ∧ _ ↔ (_ ∧ _) ∧ i ≠ leaf
    rw [(prune_of_left d leaves hleft).1, ne_comm]
    tauto
  have honly : ∀ i, p.Left i → (edgeGraph d.edges).Adj leaf i →
      d.parent? (p.removed.setIfInBounds leaf true) leaf = some i := fun i hi hadj =>
    (h.exact.parent?_spec hd.forest hleaf hleft).mpr
      ⟨(mem_adjacentBags_iff_adj hd.forest).mpr hadj, hi⟩
  rw [hdiff]
  exact (h.connected v hv).induce_diff_singleton fun b hb c hc hlb hlc =>
    Option.some.inj ((honly b hb.1 hlb).symm.trans (honly c hc.1 hlc))

/-- **A round of leaf removal** eliminates the vertices with no other bag left. -/
theorem prune (hwidth : ∀ i, (d.bag i).length ≤ d.width + 1)
    (hvars : ∀ i, ∀ v ∈ d.bag i, v ∈ g.vertices) (hleaves : p.leaves = leaf :: leaves) :
    Pruned d g (d.prune p leaf leaves) := by
  have hexact := h.exact.prune hd.forest hleaves
  have hleaf : leaf ∈ p.leaves := hleaves ▸ List.mem_cons_self
  cases hleft : p.removed.getD leaf true with
  | true =>
    rw [prune_of_removed hleft] at hexact ⊢
    exact ⟨hexact, h.eliminates, h.vertices, h.mem_eliminated, h.connected⟩
  | false =>
    have hleft' := (prune_of_left d leaves hleft).1
    obtain ⟨hkept, hmem⟩ := h.eliminates_prune hd leaves (hwidth leaf) (hvars leaf) hleaf hleft
    refine ⟨hexact, ⟨hkept.nodup, fun a b hab => ?_, hkept.bounded⟩, fun v hv => ?_, fun v hv => ?_,
      fun v hv => h.connected_prune hd leaves hleaf hleft hv⟩
    · exact h.covered_prune hd leaves (hwidth leaf) (hvars leaf) hleaf hleft hab
    · rcases (hmem v).mp hv with hv | ⟨hv, -⟩
      · exact h.vertices v hv
      · exact hvars leaf v hv
    · rw [hmem, h.mem_eliminated v hv]
      constructor
      · rintro (hno | ⟨hin, hno⟩) i hi
        · exact hno i ((hleft' i).mp hi).2
        · obtain ⟨hne, hi⟩ := (hleft' i).mp hi
          exact fun hvi => hne
            (h.eq_of_not_shared hd (hvars leaf) hleaf hleft hin hno hi hvi).symm
      · intro hno
        by_cases hin : v ∈ d.bag leaf
        · refine Or.inr ⟨hin, Bool.eq_false_iff.mpr fun hyes => ?_⟩
          obtain ⟨i, hi, hvi⟩ := sharedWith_iff.mp hyes
          exact hno i (h.left_of_shared hd leaves hleaf hleft hi) hvi
        · refine Or.inl fun i hi hvi => hno i ((hleft' i).mpr ⟨?_, hi⟩) hvi
          exact fun heq => hin (heq ▸ hvi)

/-- **A run of leaf removal**, by induction on the rounds. -/
theorem pruneAll (hwidth : ∀ i, (d.bag i).length ≤ d.width + 1)
    (hvars : ∀ i, ∀ v ∈ d.bag i, v ∈ g.vertices) (fuel : Nat) :
    Pruned d g (d.pruneAll fuel p) := by
  induction fuel generalizing p with
  | zero => exact h
  | succ fuel ih =>
    unfold TreeDecomposition.pruneAll
    cases hleaves : p.leaves with
    | nil => exact h
    | cons leaf leaves => exact ih (h.prune hd hwidth hvars hleaves)

end Pruned

/-! ## Elimination orders -/

/-- The bag whose degree the next round lowers. -/
def nextParent? (d : TreeDecomposition) (p : Pruning) : Option Nat :=
  match p.leaves with
  | [] => none
  | leaf :: _ =>
    if p.removed.getD leaf true then none
    else d.parent? (p.removed.setIfInBounds leaf true) leaf

theorem Exact.nextParent?_pos (h : Exact d p) (hf : IsForest d.edges)
    (hnext : d.nextParent? p = some i) : 0 < p.degree.getD i 0 := by
  unfold nextParent? at hnext
  cases hleaves : p.leaves with
  | nil =>
    rw [hleaves] at hnext
    cases hnext
  | cons leaf leaves =>
    rw [hleaves] at hnext
    cases hleft : p.removed.getD leaf true with
    | true =>
      simp only [hleft, if_true] at hnext
      cases hnext
    | false =>
      simp only [hleft, Bool.false_eq_true, if_false] at hnext
      obtain ⟨hmem, hi⟩ := (h.parent?_spec hf (hleaves ▸ List.mem_cons_self) hleft).mp hnext
      rw [h.degree_pos hf hleft hmem hi]
      exact Nat.succ_pos _

theorem bag_eq_nil_or_mem (d : TreeDecomposition) (i : Nat) :
    d.bag i = [] ∨ d.bag i ∈ d.bags.toList := by
  by_cases hi : i < d.bags.size
  · refine Or.inr ?_
    simp [bag, Array.getD, hi]
  · refine Or.inl ?_
    simp [bag, Array.getD, hi]

/-- A bag is no larger than the width allows. -/
theorem length_bag_le (bags : Array (List Var)) (edges : List (Nat × Nat)) (i : Nat) :
    ((ofBags bags edges).bag i).length ≤ (ofBags bags edges).width + 1 := by
  rcases (ofBags bags edges).bag_eq_nil_or_mem i with hnil | hmem
  · rw [hnil]
    exact Nat.zero_le _
  · have hle : ((ofBags bags edges).bag i).length
        ≤ bags.toList.foldl (fun size bag => max size bag.length) 0 :=
      le_foldl_max_of_mem List.length hmem 0
    rw [Array.foldl_toList] at hle
    show _ ≤ bags.foldl (fun size bag => max size bag.length) 0 - 1 + 1
    omega

/-- **The end of leaf removal**: all bags go, so all vertices are eliminated. -/
theorem pruneAll_spec {bags : Array (List Var)} {edges : List (Nat × Nat)}
    (hd : (ofBags bags edges).Decomposes g)
    (hvars : ∀ bag ∈ bags.toList, ∀ v ∈ bag, v ∈ g.vertices) :
    let d := ofBags bags edges
    let p := d.pruneAll (2 * d.bags.size) d.startPruning
    p.leaves = [] ∧ Pruned d g p ∧ ∀ v, v ∈ p.eliminated ↔ v ∈ g.vertices := by
  intro d p
  have hbags : ∀ i, ∀ v ∈ d.bag i, v ∈ g.vertices := fun i v hv => by
    rcases d.bag_eq_nil_or_mem i with hnil | hmem
    · exact absurd (hnil ▸ hv) List.not_mem_nil
    · exact hvars _ hmem v hv
  have hend := (exact_startPruning hd.bags).leaves_pruneAll hd.forest (roundsLeft_startPruning d)
  have hrun := (pruned_startPruning hd).pruneAll hd (length_bag_le bags edges) hbags
    (2 * d.bags.size)
  exact ⟨hend, hrun, fun v => ⟨hrun.vertices v, fun hv => (hrun.mem_eliminated v hv).mpr
    fun i hi => absurd hi (hrun.exact.all_removed hd.forest hend i)⟩⟩

/-- **Leaf removal gives an elimination order of the width.** Over a decomposition
that passes it comes to an end, lowers no degree below zero and lists every vertex
once. Eliminating the vertices in this order, none has more remaining neighbours
than the width. -/
theorem leafRemoval_order (hg : g.Symmetric) {bags : Array (List Var)} {edges : List (Nat × Nat)}
    (hvars : ∀ bag ∈ bags.toList, ∀ v ∈ bag, v ∈ g.vertices)
    (hverify : (ofBags bags edges).verify g = .ok ()) :
    let d := ofBags bags edges
    (d.pruneAll (2 * d.bags.size) d.startPruning).leaves = []
    ∧ (∀ rounds i, d.nextParent? (d.pruneAll rounds d.startPruning) = some i →
      0 < (d.pruneAll rounds d.startPruning).degree.getD i 0)
    ∧ d.eliminationOrder.Nodup ∧ (∀ v, v ∈ d.eliminationOrder ↔ v ∈ g.vertices)
    ∧ ∀ past v rest, d.eliminationOrder = past ++ v :: rest →
      ((g.eliminationGraph past).neighborSet v).encard ≤ d.width := by
  intro d
  have hd : d.Decomposes g := (decomposes_of_verify hg hverify).1
  obtain ⟨hend, hrun, hmem⟩ := pruneAll_spec hd hvars
  have horder : d.eliminationOrder
      = (d.pruneAll (2 * d.bags.size) d.startPruning).eliminated.reverse := rfl
  refine ⟨hend, fun rounds i hnext => ?_, ?_, fun v => ?_, ?_⟩
  · exact ((exact_startPruning hd.bags).pruneAll hd.forest rounds).nextParent?_pos hd.forest hnext
  · exact horder ▸ List.nodup_reverse.mpr hrun.eliminates.nodup
  · rw [horder, List.mem_reverse]
    exact hmem v
  · exact horder ▸ hrun.eliminates.bounded

/-- The middle vertex of a path goes with the last bag, and no vertex has more than
one remaining neighbour. -/
theorem leafRemoval_order_threePath : threePath.Symmetric
    ∧ (ofBags #[[⟨0⟩, ⟨1⟩], [⟨2⟩, ⟨1⟩]] [(1, 0)]).verify threePath = .ok ()
    ∧ (ofBags #[[⟨0⟩, ⟨1⟩], [⟨2⟩, ⟨1⟩]] [(1, 0)]).eliminationOrder = [⟨2⟩, ⟨0⟩, ⟨1⟩]
    ∧ (threePath.simpleGraph.neighborSet ⟨2⟩).encard ≤ 1
    ∧ ((threePath.eliminationGraph [⟨2⟩]).neighborSet ⟨0⟩).encard ≤ 1 := by
  have hg : threePath.Symmetric := by
    unfold Graph.Symmetric
    decide
  have hpass : (ofBags #[[⟨0⟩, ⟨1⟩], [⟨2⟩, ⟨1⟩]] [(1, 0)]).verify threePath = .ok () := by rfl
  have horder : (ofBags #[[⟨0⟩, ⟨1⟩], [⟨2⟩, ⟨1⟩]] [(1, 0)]).eliminationOrder = [⟨2⟩, ⟨0⟩, ⟨1⟩] := by
    decide +kernel
  obtain ⟨-, -, -, -, hbounded⟩ := leafRemoval_order hg (by decide) hpass
  exact ⟨hg, hpass, horder, hbounded [] _ _ horder, hbounded [⟨2⟩] _ _ horder⟩

end TreeDecomposition

end Cleave
