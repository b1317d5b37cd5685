import Cleave.Proofs.TreeChecks
import Mathlib.Combinatorics.SimpleGraph.Acyclic

/-!
# The checks decide tree decompositions

What is checked is less than what a tree decomposition is. Acyclicity is decided
edge by edge: an edge fits if its ends were not connected before, which are the
sets that were joined so far (`TreeDecomposition.checkForest_iff`). Connectedness
is not searched for at all. The tree edges among the bags of a vertex are counted
instead, and there has to be one fewer than bags. This is right because the bags
are known to form a forest by then: in a forest no part has more edges than
that, and just the connected ones have as many
(`SimpleGraph.IsAcyclic.card_edgeSet_add_one_le`). A bag that lists a vertex twice
spoils the count, so it is the one thing that is refused beyond what a tree
decomposition is (`TreeDecomposition.verify_decides`).
-/

namespace SimpleGraph

/-- **An acyclic graph has fewer edges than vertices**, and one fewer if and only
if it is connected: some tree extends it. -/
theorem IsAcyclic.card_edgeSet_add_one_le {V : Type} [Finite V] [Nonempty V] {G : SimpleGraph V}
    (h : G.IsAcyclic) : Nat.card G.edgeSet + 1 ≤ Nat.card V
      ∧ (Nat.card G.edgeSet + 1 = Nat.card V ↔ G.Connected) := by
  obtain ⟨T, hle, -, hT⟩ := connected_top.exists_isTree_le_of_le_of_isAcyclic le_top h
  obtain ⟨hconnected, hcard⟩ := isTree_iff_connected_and_card.mp hT
  have hsub : G.edgeSet ⊆ T.edgeSet := edgeSet_mono hle
  have hmono : Nat.card G.edgeSet ≤ Nat.card T.edgeSet := Nat.card_mono (Set.toFinite _) hsub
  refine ⟨by omega, fun heq => ?_, fun hG => (isTree_iff_connected_and_card.mp ⟨hG, h⟩).2⟩
  have hge : T.edgeSet.ncard ≤ G.edgeSet.ncard := by
    rw [← Nat.card_coe_set_eq, ← Nat.card_coe_set_eq]
    omega
  have hsame := Set.eq_of_subset_of_ncard_le hsub hge (Set.toFinite _)
  exact edgeSet_injective hsame ▸ hconnected

end SimpleGraph

namespace Cleave

/-! ## Forests of bags -/

variable {edges : List (Nat × Nat)} {a b i j : Nat}

/-- The bags as a graph. -/
def edgeGraph (edges : List (Nat × Nat)) : SimpleGraph Nat :=
  .fromRel fun i j => (i, j) ∈ edges

/-- **A list of edges is a forest**: no edge is a loop or listed twice, in either
direction, and there is no cycle. -/
structure IsForest (edges : List (Nat × Nat)) : Prop where
  loopless : ∀ e ∈ edges, e.1 ≠ e.2
  nodup : (edges.map fun e => s(e.1, e.2)).Nodup
  acyclic : (edgeGraph edges).IsAcyclic

theorem edgeGraph_adj : (edgeGraph edges).Adj i j ↔ i ≠ j ∧ ((i, j) ∈ edges ∨ (j, i) ∈ edges) :=
  SimpleGraph.fromRel_adj _ _ _

theorem mem_edgePairs :
    s(i, j) ∈ edges.map (fun e => s(e.1, e.2)) ↔ (i, j) ∈ edges ∨ (j, i) ∈ edges := by
  rw [List.mem_map]
  constructor
  · rintro ⟨⟨a, b⟩, hmem, heq⟩
    rcases Sym2.eq_iff.mp heq with ⟨rfl, rfl⟩ | ⟨rfl, rfl⟩
    · exact Or.inl hmem
    · exact Or.inr hmem
  · rintro (hmem | hmem)
    · exact ⟨_, hmem, rfl⟩
    · exact ⟨_, hmem, Sym2.eq_swap⟩

theorem edgeGraph_concat :
    edgeGraph (edges ++ [(a, b)]) = edgeGraph edges ⊔ SimpleGraph.edge a b := by
  ext i j
  simp only [edgeGraph_adj, SimpleGraph.sup_adj, SimpleGraph.edge_adj, List.mem_append,
    List.mem_singleton, Prod.mk.injEq]
  tauto

theorem edgeGraph_nil : edgeGraph [] = ⊥ := by
  ext i j
  simp [edgeGraph_adj]

theorem isForest_nil : IsForest [] where
  loopless _ he := nomatch he
  nodup := List.nodup_nil
  acyclic := edgeGraph_nil ▸ SimpleGraph.isAcyclic_bot

/-- **An edge can be added to a forest** if its ends are not connected. -/
theorem isForest_concat :
    IsForest (edges ++ [(a, b)]) ↔ IsForest edges ∧ ¬ (edgeGraph edges).Reachable a b := by
  constructor
  · intro h
    have hne : a ≠ b := h.loopless (a, b) (by simp)
    have hnodup := h.nodup
    rw [List.map_append, List.nodup_append] at hnodup
    obtain ⟨hnodup, -, hnew⟩ := hnodup
    have hacyclic := h.acyclic
    rw [edgeGraph_concat, SimpleGraph.isAcyclic_sup_fromEdgeSet_iff] at hacyclic
    have hloopless : ∀ e ∈ edges, e.1 ≠ e.2 := fun e he => h.loopless e (List.mem_append_left _ he)
    refine ⟨⟨hloopless, hnodup, hacyclic.1⟩, fun hreach => ?_⟩
    rcases hacyclic.2 hreach with heq | hadj
    · exact hne heq
    · exact hnew _ (mem_edgePairs.mpr (edgeGraph_adj.mp hadj).2) _ (List.mem_singleton_self _) rfl
  · rintro ⟨h, hreach⟩
    have hne : a ≠ b := fun heq => hreach (heq ▸ SimpleGraph.Reachable.refl a)
    have hnew : s(a, b) ∉ edges.map fun e => s(e.1, e.2) := fun hmem =>
      hreach (edgeGraph_adj.mpr ⟨hne, mem_edgePairs.mp hmem⟩).reachable
    refine ⟨fun e he => ?_, ?_, ?_⟩
    · rcases List.mem_append.mp he with he | he
      · exact h.loopless e he
      · obtain rfl := List.mem_singleton.mp he
        exact hne
    · rw [List.map_append, List.map_singleton]
      exact List.nodup_append.mpr ⟨h.nodup, List.nodup_singleton _, fun e he e' he' heq =>
        hnew (List.mem_singleton.mp he' ▸ heq ▸ he)⟩
    · rw [edgeGraph_concat, SimpleGraph.isAcyclic_sup_fromEdgeSet_iff]
      exact ⟨h.acyclic, fun hno => absurd hno hreach⟩

theorem IsForest.of_append {edges' : List (Nat × Nat)} (h : IsForest (edges ++ edges')) :
    IsForest edges := by
  induction edges' using List.reverseRecOn with
  | nil => exact List.append_nil edges ▸ h
  | append_singleton edges' e ih =>
    rw [← List.append_assoc] at h
    exact ih (isForest_concat.mp h).1

/-! ## Joining sets decides forests -/

namespace TreeDecomposition

variable {f : Forest} {rank rep : Nat → Nat} {size : Nat}

/-- The sets are what the edges so far connect. -/
def Tracks (rep : Nat → Nat) (edges : List (Nat × Nat)) : Prop :=
  ∀ i j, rep i = rep j ↔ (edgeGraph edges).Reachable i j

theorem tracks_nil : Tracks id [] := fun i j => by
  rw [edgeGraph_nil, SimpleGraph.reachable_bot]
  rfl

/-- **Joining the sets of both ends** keeps track of an edge. -/
theorem Tracks.concat (h : Tracks rep edges) (a b : Nat) :
    Tracks (fun j => if rep j = rep a then rep b else rep j) (edges ++ [(a, b)]) := by
  have hle : edgeGraph edges ≤ edgeGraph (edges ++ [(a, b)]) := edgeGraph_concat ▸ le_sup_left
  have hold : ∀ {i j}, rep i = rep j → (edgeGraph (edges ++ [(a, b)])).Reachable i j :=
    fun heq => ((h _ _).mp heq).mono hle
  have hjoined : (edgeGraph (edges ++ [(a, b)])).Reachable a b := by
    by_cases hab : a = b
    · exact hab ▸ SimpleGraph.Reachable.refl a
    · exact (edgeGraph_adj.mpr ⟨hab, Or.inl (by simp)⟩).reachable
  intro i j
  constructor
  · intro heq
    simp only at heq
    by_cases hi : rep i = rep a <;> by_cases hj : rep j = rep a
    · exact hold (hi.trans hj.symm)
    · rw [if_pos hi, if_neg hj] at heq
      exact ((hold hi).trans hjoined).trans (hold heq)
    · rw [if_neg hi, if_pos hj] at heq
      exact (hold heq).trans (hjoined.symm.trans (hold hj.symm))
    · rw [if_neg hi, if_neg hj] at heq
      exact hold heq
  · rintro ⟨walk⟩
    induction walk with
    | nil => rfl
    | @cons i k j hadj walk ih =>
      rw [← ih]
      rw [edgeGraph_concat, SimpleGraph.sup_adj, SimpleGraph.edge_adj] at hadj
      rcases hadj with hadj | ⟨⟨rfl, rfl⟩ | ⟨rfl, rfl⟩, -⟩
      · simp only [(h i k).mpr hadj.reachable]
      · simp
      · simp

/-- **Joining goes through exactly for forests** between the bags, by induction
on the edges left. -/
theorem checkForest_iff_of {done : List (Nat × Nat)} (h : f.Represents rank rep)
    (hsize : f.size = size) (htracks : Tracks rep done) (hdone : IsForest done) :
    (∃ f', checkForest size f edges = .ok f')
      ↔ (∀ e ∈ edges, e.1 < size ∧ e.2 < size) ∧ IsForest (done ++ edges) := by
  induction edges generalizing f rank rep done with
  | nil =>
    rw [List.append_nil]
    exact iff_of_true ⟨f, rfl⟩ ⟨(fun _ he => nomatch he), hdone⟩
  | cons e edges ih =>
    obtain ⟨a, b⟩ := e
    have hsplit : done ++ (a, b) :: edges = (done ++ [(a, b)]) ++ edges := by simp
    rw [List.forall_mem_cons, hsplit]
    unfold checkForest
    by_cases ha : a < size
    · by_cases hb : b < size
      · rw [if_neg (Nat.not_le.mpr ha), if_neg (Nat.not_le.mpr hb),
          and_iff_right (⟨ha, hb⟩ : a < size ∧ b < size)]
        rcases h.join?_spec (a := a) (b := b) (hsize ▸ ha) (hsize ▸ hb)
          with ⟨hsame, hjoin⟩ | ⟨hother, f', rank', hjoin, hsize', h'⟩
        · rw [hjoin]
          refine iff_of_false (by simp) fun hforest => ?_
          exact (isForest_concat.mp hforest.2.of_append).2 ((htracks a b).mp hsame)
        · rw [hjoin]
          exact ih h' (hsize'.trans hsize) (htracks.concat a b)
            (isForest_concat.mpr ⟨hdone, mt (htracks a b).mpr hother⟩)
      · rw [if_neg (Nat.not_le.mpr ha), if_pos (Nat.not_lt.mp hb)]
        exact iff_of_false (by simp) fun hall => hb hall.1.1.2
    · rw [if_pos (Nat.not_lt.mp ha)]
      exact iff_of_false (by simp) fun hall => ha hall.1.1.1

theorem checkForest_iff : (∃ f', checkForest size (Forest.singletons size) edges = .ok f')
    ↔ (∀ e ∈ edges, e.1 < size ∧ e.2 < size) ∧ IsForest edges :=
  checkForest_iff_of (Forest.represents_singletons size) (by simp [Forest.singletons]) tracks_nil
    isForest_nil

/-! ## Counting edges between bags -/

variable {d : TreeDecomposition} {v : Var}

/-- **The edges between some bags are counted**, each once. -/
theorem card_edgeSet_induce (h : IsForest edges) (s : Set Nat) [DecidablePred (· ∈ s)] :
    Nat.card ((edgeGraph edges).induce s).edgeSet = edges.countP fun e => e.1 ∈ s ∧ e.2 ∈ s := by
  let within := (edges.filter fun e => e.1 ∈ s ∧ e.2 ∈ s).map fun e => s(e.1, e.2)
  have hnodup : within.Nodup := (List.filter_sublist.map _).nodup h.nodup
  have himage : Sym2.map Subtype.val '' ((edgeGraph edges).induce s).edgeSet = within.toFinset := by
    ext e
    rw [List.coe_toFinset, Set.mem_image]
    constructor
    · rintro ⟨x, hx, rfl⟩
      induction x with
      | _ i j =>
        obtain ⟨-, hmem | hmem⟩ := edgeGraph_adj.mp hx
        · exact List.mem_map.mpr ⟨(↑i, ↑j), List.mem_filter.mpr
            ⟨hmem, decide_eq_true ⟨i.2, j.2⟩⟩, rfl⟩
        · exact List.mem_map.mpr ⟨(↑j, ↑i), List.mem_filter.mpr
            ⟨hmem, decide_eq_true ⟨j.2, i.2⟩⟩, Sym2.eq_swap⟩
    · intro he
      obtain ⟨⟨a, b⟩, hin, rfl⟩ := List.mem_map.mp he
      obtain ⟨hmem, hends⟩ := List.mem_filter.mp hin
      obtain ⟨ha, hb⟩ := of_decide_eq_true hends
      exact ⟨s(⟨a, ha⟩, ⟨b, hb⟩), edgeGraph_adj.mpr ⟨h.loopless _ hmem, Or.inl hmem⟩, rfl⟩
  rw [← Nat.card_image_of_injective (Sym2.map.injective Subtype.val_injective), himage,
    Nat.card_coe_set_eq, Set.ncard_coe_finset, List.toFinset_card_of_nodup hnodup, List.length_map,
    List.countP_eq_length_filter]

/-- **One edge fewer than bags** says that no bag is listed twice and the bags are
connected, as they are part of a forest. -/
theorem connects_iff (h : IsForest d.edges) {bags : List Nat} (hne : bags ≠ []) :
    d.connects bags = true
      ↔ bags.Nodup ∧ ((edgeGraph d.edges).induce {i | i ∈ bags}).Preconnected := by
  have hcount : d.edges.countP (fun e => bags.contains e.1 && bags.contains e.2)
      = Nat.card ((edgeGraph d.edges).induce {i | i ∈ bags}).edgeSet := by
    rw [card_edgeSet_induce h]
    exact List.countP_congr fun e _ => by simp
  have hbags : Nat.card {i | i ∈ bags} = bags.toFinset.card := by
    rw [Nat.card_coe_set_eq, ← List.coe_toFinset, Set.ncard_coe_finset]
  have hle : bags.toFinset.card ≤ bags.length := List.toFinset_card_le bags
  have hnodup : bags.toFinset.card = bags.length ↔ bags.Nodup :=
    Multiset.toFinset_card_eq_card_iff_nodup.trans Multiset.coe_nodup
  have : Finite {i | i ∈ bags} := (List.finite_toSet bags).to_subtype
  have : Nonempty {i | i ∈ bags} := (List.exists_mem_of_ne_nil bags hne).elim fun i hi => ⟨i, hi⟩
  obtain ⟨hfewer, hone⟩ := (h.acyclic.induce {i | i ∈ bags}).card_edgeSet_add_one_le
  have hconnected : ((edgeGraph d.edges).induce {i | i ∈ bags}).Preconnected
      ↔ bags.toFinset.card
        = Nat.card ((edgeGraph d.edges).induce {i | i ∈ bags}).edgeSet + 1 := by
    rw [eq_comm, ← hbags, hone]
    exact ⟨fun hpre => ⟨hpre⟩, fun hall => hall.preconnected⟩
  show decide (d.edges.countP (fun e => bags.contains e.1 && bags.contains e.2) + 1
    = bags.length) = true ↔ _
  rw [decide_eq_true_iff, hconnected, ← hnodup, hcount]
  omega

/-- The bags of a variable are listed once if they list it once. -/
theorem nodup_bagsOf_iff : (d.bagsOf v).Nodup ↔ ∀ i, (d.bag i).count v ≤ 1 := by
  have hcount : ∀ i, (d.bag i).countP (· = v) = (d.bag i).count v := fun i =>
    List.countP_congr fun u _ => by simp
  unfold bagsOf
  rw [List.nodup_flatMap]
  constructor
  · rintro ⟨honce, -⟩ i
    by_cases hi : i < d.bags.size
    · have hi := honce i (List.mem_range.mpr hi)
      rwa [hcount, List.nodup_replicate] at hi
    · have hnil : d.bag i = [] := by simp [bag, Array.getD, hi]
      simp [hnil]
  · intro hall
    refine ⟨fun i _ => ?_, List.nodup_range.imp fun hne => ?_⟩
    · rw [hcount, List.nodup_replicate]
      exact hall i
    · exact List.disjoint_left.mpr fun k hi hj =>
        hne ((List.eq_of_mem_replicate hi).symm.trans (List.eq_of_mem_replicate hj))

/-! ## Tree decompositions -/

end TreeDecomposition

/-- **A graph is symmetric**: neighbours of vertices are vertices, and list them
as neighbours too. -/
def Graph.Symmetric (g : Graph) : Prop :=
  ∀ v ∈ g.vertices, ∀ w ∈ g.neighbours v, w ∈ g.vertices ∧ v ∈ g.neighbours w

namespace TreeDecomposition

/-- **A tree decomposition of a graph**: the tree edges join bags to a forest,
every vertex is in a bag, every edge has both ends in one bag, and the bags of a
vertex are connected. -/
structure Decomposes (d : TreeDecomposition) (g : Graph) : Prop where
  bags : ∀ e ∈ d.edges, e.1 < d.bags.size ∧ e.2 < d.bags.size
  forest : IsForest d.edges
  vertices : ∀ v ∈ g.vertices, ∃ i < d.bags.size, v ∈ d.bag i
  edges : ∀ v ∈ g.vertices, ∀ w ∈ g.neighbours v, ∃ i < d.bags.size, v ∈ d.bag i ∧ w ∈ d.bag i
  connected : ∀ v ∈ g.vertices,
    ((edgeGraph d.edges).induce {i | i < d.bags.size ∧ v ∈ d.bag i}).Preconnected

variable {d : TreeDecomposition} {g : Graph}

theorem covers_bagsOf {v w : Var} :
    d.covers (d.bagsOf v) w = true ↔ ∃ i < d.bags.size, v ∈ d.bag i ∧ w ∈ d.bag i := by
  unfold covers
  rw [List.any_eq_true]
  simp only [mem_bagsOf, List.contains_iff_mem, and_assoc]

theorem setOf_mem_bagsOf (d : TreeDecomposition) (v : Var) :
    {i | i ∈ d.bagsOf v} = {i | i < d.bags.size ∧ v ∈ d.bag i} :=
  Set.ext fun _ => mem_bagsOf

theorem bagsOf_ne_nil {v : Var} : d.bagsOf v ≠ [] ↔ ∃ i < d.bags.size, v ∈ d.bag i :=
  ⟨fun hne => (List.exists_mem_of_ne_nil _ hne).imp fun _ hi => mem_bagsOf.mp hi,
    fun ⟨_, hi⟩ => List.ne_nil_of_mem (mem_bagsOf.mpr hi)⟩

/-- **What passes is a tree decomposition**, as only the smaller end of an edge has
to be checked. -/
theorem decomposes_of_verify (hg : g.Symmetric) (h : d.verify g = .ok ()) :
    d.Decomposes g ∧ ∀ v ∈ g.vertices, ∀ i, (d.bag i).count v ≤ 1 := by
  obtain ⟨hforest, hvertices, hcover, hconnects⟩ := verify_eq_ok_iff.mp h
  obtain ⟨hends, hforest⟩ := checkForest_iff.mp hforest
  have hconnects := fun v hv => (connects_iff hforest (hvertices v hv)).mp (hconnects v hv)
  refine ⟨⟨hends, hforest, fun v hv => bagsOf_ne_nil.mp (hvertices v hv), fun v hv w hw => ?_,
    fun v hv => d.setOf_mem_bagsOf v ▸ (hconnects v hv).2⟩,
    fun v hv => nodup_bagsOf_iff.mp (hconnects v hv).1⟩
  obtain ⟨hwin, hback⟩ := hg v hv w hw
  rcases Nat.lt_trichotomy v.index w.index with hlt | heq | hlt
  · exact covers_bagsOf.mp (hcover v hv w hw hlt)
  · obtain rfl := Var.index_inj.mp heq
    obtain ⟨i, hi, hin⟩ := bagsOf_ne_nil.mp (hvertices v hv)
    exact ⟨i, hi, hin, hin⟩
  · obtain ⟨i, hi, hwi, hvi⟩ := covers_bagsOf.mp (hcover w hwin v hback hlt)
    exact ⟨i, hi, hvi, hwi⟩

/-- **A tree decomposition passes**, unless a bag lists a vertex twice. -/
theorem Decomposes.verify (h : d.Decomposes g)
    (honce : ∀ v ∈ g.vertices, ∀ i, (d.bag i).count v ≤ 1) : d.verify g = .ok () := by
  have hvertices := fun v hv => bagsOf_ne_nil.mpr (h.vertices v hv)
  refine verify_eq_ok_iff.mpr ⟨checkForest_iff.mpr ⟨h.bags, h.forest⟩, hvertices,
    fun v hv w hw _ => covers_bagsOf.mpr (h.edges v hv w hw), fun v hv => ?_⟩
  exact (connects_iff h.forest (hvertices v hv)).mpr
    ⟨nodup_bagsOf_iff.mpr (honce v hv), (d.setOf_mem_bagsOf v).symm ▸ h.connected v hv⟩

/-- **Verifying decides tree decompositions.** What passes is a tree decomposition
of the graph in which no bag lists a vertex of it twice, and whatever is one
passes. -/
theorem verify_decides (hg : g.Symmetric) : d.verify g = .ok ()
    ↔ d.Decomposes g ∧ ∀ v ∈ g.vertices, ∀ i, (d.bag i).count v ≤ 1 :=
  ⟨decomposes_of_verify hg, fun ⟨h, honce⟩ => h.verify honce⟩

/-- A path of three vertices. -/
def threePath : Graph := ⟨[⟨0⟩, ⟨1⟩, ⟨2⟩], ⟨#[[⟨1⟩], [⟨0⟩, ⟨2⟩], [⟨1⟩]]⟩⟩

/-- Its edges as bags pass, and are a decomposition. The same bags in a forest
without an edge do not: the bags of the middle vertex are not connected. -/
theorem verify_decides_threePath : threePath.Symmetric
    ∧ (ofBags #[[⟨0⟩, ⟨1⟩], [⟨2⟩, ⟨1⟩]] [(1, 0)]).verify threePath = .ok ()
    ∧ (ofBags #[[⟨0⟩, ⟨1⟩], [⟨2⟩, ⟨1⟩]] [(1, 0)]).Decomposes threePath
    ∧ ¬ (ofBags #[[⟨0⟩, ⟨1⟩], [⟨2⟩, ⟨1⟩]] []).Decomposes threePath := by
  have hg : threePath.Symmetric := by
    unfold Graph.Symmetric
    decide
  have hpass : (ofBags #[[⟨0⟩, ⟨1⟩], [⟨2⟩, ⟨1⟩]] [(1, 0)]).verify threePath = .ok () := by rfl
  have hfail : (ofBags #[[⟨0⟩, ⟨1⟩], [⟨2⟩, ⟨1⟩]] []).verify threePath
      = .error (.disconnectedVertex ⟨1⟩) := by rfl
  refine ⟨hg, hpass, ((verify_decides hg).mp hpass).1, fun h => ?_⟩
  have honce : ∀ v ∈ threePath.vertices, ∀ i,
      ((ofBags #[[⟨0⟩, ⟨1⟩], [⟨2⟩, ⟨1⟩]] []).bag i).count v ≤ 1 := fun v _ i => by
    refine List.nodup_iff_count_le_one.mp ?_ v
    rcases i with _ | _ | i
    · decide
    · decide
    · exact List.nodup_nil
  exact absurd (((verify_decides hg).mpr ⟨h, honce⟩).symm.trans hfail) (fun heq => nomatch heq)

end TreeDecomposition

end Cleave
