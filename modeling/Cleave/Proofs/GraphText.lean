import Cleave.Graph.Exchange
import Cleave.Proofs.CoOccurrence
import Cleave.Proofs.EliminationOrders

/-!
# The text of a graph

Only the smaller end of an edge lists it, so the lines of a simple graph list every
edge once, and their number is the one in the header, which is half the sum of the
degrees (`Graph.edgeCount_eq_length`). The text is made of places in the list of
vertices (`Graph.text_eq`), and these places stand for the edges again
(`Graph.listsEdges_placedEdges`).
-/

namespace Cleave

namespace Graph

variable {g : Graph} {v w : Var}

/-- The vertex at a place of the list of vertices. -/
def vertexAt (g : Graph) (i : Nat) : Var := g.vertices.getD i default

theorem vertexAt_idxOf (hv : v ∈ g.vertices) : g.vertexAt (g.vertices.idxOf v) = v := by
  have hlt := List.idxOf_lt_length_of_mem hv
  unfold vertexAt
  rw [List.getD_eq_getElem _ _ hlt, List.getElem_idxOf]

theorem idxOf_vertexAt (hnodup : g.vertices.Nodup) {i : Nat} (hi : i < g.vertices.length) :
    g.vertices.idxOf (g.vertexAt i) = i := by
  unfold vertexAt
  rw [List.getD_eq_getElem _ _ hi, hnodup.idxOf_getElem i hi]

theorem vertexNumber?_eq (hv : v ∈ g.vertices) :
    g.vertexNumber? v = some (g.vertices.idxOf v + 1) := by
  have hfind : g.vertices.findIdx? (· = v) = some (g.vertices.idxOf v) := by
    refine List.findIdx?_eq_some_iff_findIdx_eq.mpr ⟨List.idxOf_lt_length_of_mem hv, ?_⟩
    unfold List.idxOf
    congr
  unfold vertexNumber?
  rw [hfind]
  rfl

theorem mem_edges :
    (v, w) ∈ g.edges ↔ v ∈ g.vertices ∧ w ∈ g.neighbours v ∧ v.index < w.index := by
  unfold edges
  rw [List.mem_flatMap]
  constructor
  · rintro ⟨u, hu, hin⟩
    obtain ⟨x, hx, heq⟩ := List.mem_map.mp hin
    obtain ⟨rfl, rfl⟩ := Prod.mk.inj heq
    obtain ⟨hx, hlt⟩ := List.mem_filter.mp hx
    exact ⟨hu, hx, of_decide_eq_true hlt⟩
  · rintro ⟨hv, hw, hlt⟩
    exact ⟨v, hv, List.mem_map.mpr ⟨w, List.mem_filter.mpr ⟨hw, decide_eq_true hlt⟩, rfl⟩⟩

theorem nodup_edges (hg : g.Simple) : g.edges.Nodup := by
  unfold edges
  rw [List.nodup_flatMap]
  refine ⟨fun v hv => ?_, hg.nodup.imp fun hne => List.disjoint_left.mpr fun e he he' => ?_⟩
  · exact ((hg.nodup_neighbours v hv).filter _).map fun _ _ heq => (Prod.mk.inj heq).2
  · obtain ⟨_, -, rfl⟩ := List.mem_map.mp he
    obtain ⟨_, -, heq⟩ := List.mem_map.mp he'
    exact hne (Prod.mk.inj heq).1.symm

/-- **No edge is listed twice**, as only the smaller end lists it. -/
theorem nodup_unordered_edges (hg : g.Simple) : (g.edges.map fun e => s(e.1, e.2)).Nodup := by
  refine List.Nodup.map_on (fun e he e' he' heq => ?_) (nodup_edges hg)
  obtain ⟨-, -, hlt⟩ := mem_edges.mp he
  obtain ⟨-, -, hlt'⟩ := mem_edges.mp he'
  rcases Sym2.eq_iff.mp heq with ⟨h1, h2⟩ | ⟨h1, h2⟩
  · exact Prod.ext h1 h2
  · rw [h1, h2] at hlt
    omega

/-- The ends of a graph make up its edges. -/
theorem mem_image_ends (hg : g.Simple) {e : Sym2 Var} :
    e ∈ g.ends.image (fun p => s(p.1, p.2)) ↔ e ∈ g.simpleGraph.edgeSet := by
  induction e with
  | _ v w =>
    rw [SimpleGraph.mem_edgeSet, simpleGraph, SimpleGraph.fromRel_adj, Finset.mem_image]
    simp only [ends, Finset.mem_sigma, List.mem_toFinset]
    constructor
    · rintro ⟨⟨a, b⟩, ⟨ha, hb⟩, heq⟩
      have hne : a ≠ b := fun h => hg.loopless a ha (h ▸ hb)
      rcases Sym2.eq_iff.mp heq with ⟨rfl, rfl⟩ | ⟨rfl, rfl⟩
      · exact ⟨hne, Or.inl ⟨ha, hb⟩⟩
      · exact ⟨hne.symm, Or.inr ⟨ha, hb⟩⟩
    · rintro ⟨-, ⟨hv, hw⟩ | ⟨hw, hv⟩⟩
      · exact ⟨⟨v, w⟩, ⟨hv, hw⟩, rfl⟩
      · exact ⟨⟨w, v⟩, ⟨hw, hv⟩, Sym2.eq_swap⟩

/-- **Every edge is listed**, from its smaller end. -/
theorem mem_unordered_edges (hg : g.Simple) {e : Sym2 Var} :
    e ∈ g.edges.map (fun e => s(e.1, e.2)) ↔ e ∈ g.simpleGraph.edgeSet := by
  rw [← mem_image_ends hg, Finset.mem_image, List.mem_map]
  simp only [ends, Finset.mem_sigma, List.mem_toFinset]
  constructor
  · rintro ⟨⟨v, w⟩, hin, rfl⟩
    obtain ⟨hv, hw, -⟩ := mem_edges.mp hin
    exact ⟨⟨v, w⟩, ⟨hv, hw⟩, rfl⟩
  · rintro ⟨⟨v, w⟩, ⟨hv, hw⟩, rfl⟩
    rcases Nat.lt_trichotomy v.index w.index with hlt | heq | hlt
    · exact ⟨(v, w), mem_edges.mpr ⟨hv, hw, hlt⟩, rfl⟩
    · obtain rfl := Var.index_inj.mp heq
      exact absurd hw (hg.loopless v hv)
    · exact ⟨(w, v), mem_edges.mpr ⟨hg.mem_vertices v hv w hw, hg.symm v hv w hw, hlt⟩,
        Sym2.eq_swap⟩

/-- **The number in the header** is the number of the lines that follow. -/
theorem edgeCount_eq_length (hg : g.Simple) : g.edgeCount = g.edges.length := by
  have himage : (g.ends.image fun p => s(p.1, p.2))
      = (g.edges.map fun e => s(e.1, e.2)).toFinset :=
    Finset.ext fun e => by
      rw [List.mem_toFinset, mem_unordered_edges hg, mem_image_ends hg]
  rw [edgeCount_eq_card hg, himage, List.toFinset_card_of_nodup (nodup_unordered_edges hg),
    List.length_map]

/-- The edges as pairs of places in the list of vertices. -/
def placedEdges (g : Graph) : List (Nat × Nat) :=
  g.edges.map fun e => (g.vertices.idxOf e.1, g.vertices.idxOf e.2)

/-- The text of a header, and of a line for every pair of places counted from zero. -/
def exchangeText (vertices : Nat) (pairs : List (Nat × Nat)) : String :=
  "p tw " ++ toString vertices ++ " " ++ toString pairs.length ++ "\n" ++ String.join
    (pairs.map fun p => toString (p.1 + 1) ++ " " ++ toString (p.2 + 1) ++ "\n")

/-- **Pairs of places that list the edges** of a graph, every edge once. -/
structure ListsEdges (g : Graph) (pairs : List (Nat × Nat)) : Prop where
  places : ∀ p ∈ pairs, p.1 < g.vertices.length ∧ p.2 < g.vertices.length
  nodup : (pairs.map fun p => s(g.vertexAt p.1, g.vertexAt p.2)).Nodup
  mem : ∀ e, e ∈ pairs.map (fun p => s(g.vertexAt p.1, g.vertexAt p.2))
    ↔ e ∈ g.simpleGraph.edgeSet

theorem listsEdges_placedEdges (hg : g.Simple) : g.ListsEdges g.placedEdges := by
  have hends : ∀ e ∈ g.edges, e.1 ∈ g.vertices ∧ e.2 ∈ g.vertices := fun e he => by
    obtain ⟨hv, hw, -⟩ := mem_edges.mp he
    exact ⟨hv, hg.mem_vertices _ hv _ hw⟩
  have hback : (g.placedEdges.map fun p => s(g.vertexAt p.1, g.vertexAt p.2))
      = g.edges.map fun e => s(e.1, e.2) := by
    unfold placedEdges
    rw [List.map_map]
    refine List.map_congr_left fun e he => ?_
    obtain ⟨hv, hw⟩ := hends e he
    show s(g.vertexAt (g.vertices.idxOf e.1), g.vertexAt (g.vertices.idxOf e.2)) = _
    rw [vertexAt_idxOf hv, vertexAt_idxOf hw]
  refine ⟨fun p hp => ?_, hback ▸ nodup_unordered_edges hg, fun e => hback ▸ mem_unordered_edges hg⟩
  obtain ⟨e, he, rfl⟩ := List.mem_map.mp hp
  obtain ⟨hv, hw⟩ := hends e he
  exact ⟨List.idxOf_lt_length_of_mem hv, List.idxOf_lt_length_of_mem hw⟩

/-- **The text of a simple graph.** -/
theorem text_eq (hg : g.Simple) :
    g.text = .ok (exchangeText g.vertices.length g.placedEdges) := by
  have hlines : g.edges.mapM (fun e => g.edgeLine e.1 e.2) = .ok (g.placedEdges.map fun p =>
      toString (p.1 + 1) ++ " " ++ toString (p.2 + 1) ++ "\n") := by
    unfold placedEdges
    rw [List.map_map, Except.mapM_eq_ok, List.forall₂_map_right_iff, List.forall₂_same]
    intro e he
    obtain ⟨hv, hw, -⟩ := mem_edges.mp he
    unfold edgeLine
    rw [vertexNumber?_eq hv, vertexNumber?_eq (hg.mem_vertices _ hv _ hw)]
    rfl
  refine Except.bind_eq_ok.mpr ⟨_, hlines, ?_⟩
  unfold exchangeText
  rw [edgeCount_eq_length hg, placedEdges, List.length_map]
  rfl

end Graph

end Cleave
