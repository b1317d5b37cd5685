import Cleave.Proofs.SimpleGraphs
import Mathlib.Algebra.BigOperators.Group.Finset.Sigma
import Mathlib.Data.Set.Card
import Mathlib.Data.Sym.Sym2

/-!
# The primal graph is the co-occurrence graph

Rows of a primal graph are found one vertex at a time, from the binary clauses
of the vertex and the long clauses it is filed under, each neighbour kept from a
second entry by a stamp. In the end nothing of this shows
(`Solver.CoOccurrence`): two vertices are neighbours if and only if they occur
together, a row has no repetition, and the number of edges is the number of
unordered pairs, since every pair is counted at both of its ends
(`Graph.edgeCount_eq_ncard`). So the traversals differ in the order of their rows
only (`Solver.Attained.primalGraph_coOccurrence`).
-/

namespace Cleave

theorem Component.ascending_vars_ofLists {vars : List Var} {clauses : List ClauseId} :
    MinFill.Ascending (ofLists vars clauses).vars :=
  pairwise_squeeze (fun _ _ => Var.index_inj.mp) _ (pairwise_mergeSort_key Var.index vars)

/-! ## Counting edges -/

namespace Graph

/-- The edges of a graph as unordered pairs. -/
def edgePairs (g : Graph) : Set (Sym2 Var) := {e | ∃ v w, w ∈ g.neighbours v ∧ e = s(v, w)}

variable {g : Graph}

/-- The ordered pairs of a vertex and a neighbour of it. -/
def ends (g : Graph) : Finset (Σ _ : Var, Var) :=
  g.vertices.toFinset.sigma fun v => (g.neighbours v).toFinset

theorem card_ends (hg : g.Simple) :
    g.ends.card = (g.vertices.map fun v => (g.neighbours v).length).sum := by
  rw [ends, Finset.card_sigma, List.sum_toFinset _ hg.nodup]
  exact congrArg List.sum (List.map_congr_left fun v hv =>
    List.toFinset_card_of_nodup (hg.nodup_neighbours v hv))

/-- **Both ends of an edge**, and nothing else, give the pair of them. -/
theorem filter_ends (hg : g.Simple) {v w : Var} (hv : v ∈ g.vertices) (hw : w ∈ g.neighbours v) :
    (g.ends.filter fun p => s(p.1, p.2) = s(v, w)) = {⟨v, w⟩, ⟨w, v⟩} := by
  have hv' : v ∈ g.neighbours w := hg.symm v hv w hw
  have hw' : w ∈ g.vertices := hg.mem_vertices v hv w hw
  ext ⟨a, b⟩
  simp only [ends, Finset.mem_filter, Finset.mem_sigma, List.mem_toFinset, Sym2.eq_iff,
    Finset.mem_insert, Finset.mem_singleton, Sigma.mk.injEq, heq_eq_eq]
  constructor
  · exact fun h => h.2
  · rintro (⟨rfl, rfl⟩ | ⟨rfl, rfl⟩)
    · exact ⟨⟨hv, hw⟩, Or.inl ⟨rfl, rfl⟩⟩
    · exact ⟨⟨hw', hv'⟩, Or.inr ⟨rfl, rfl⟩⟩

/-- **Every edge is counted at both of its ends.** -/
theorem edgeCount_eq_card (hg : g.Simple) :
    g.edgeCount = (g.ends.image fun p => s(p.1, p.2)).card := by
  have hfibre : ∀ e ∈ g.ends.image fun p => s(p.1, p.2),
      (g.ends.filter fun p => s(p.1, p.2) = e).card = 2 := fun e he => by
    obtain ⟨⟨v, w⟩, hin, rfl⟩ := Finset.mem_image.mp he
    obtain ⟨hv, hw⟩ := Finset.mem_sigma.mp hin
    have hv : v ∈ g.vertices := List.mem_toFinset.mp hv
    have hw : w ∈ g.neighbours v := List.mem_toFinset.mp hw
    rw [filter_ends hg hv hw]
    refine Finset.card_pair fun heq => ?_
    have hvw : v = w := congrArg Sigma.fst heq
    exact hg.loopless v hv (hvw ▸ hw)
  have htwice : g.ends.card = (g.ends.image fun p => s(p.1, p.2)).card * 2 := by
    rw [Finset.card_eq_sum_card_image (fun p => s(p.1, p.2)) g.ends]
    exact Finset.sum_const_nat hfibre
  have hsum : g.vertices.foldl (fun ends v => ends + (g.neighbours v).length) 0 = g.ends.card := by
    rw [card_ends hg, List.sum_eq_foldl, List.foldl_map]
  unfold edgeCount
  rw [hsum, htwice]
  omega

/-- **The edges are the pairs of neighbours**, if only vertices have neighbours. -/
theorem edgeCount_eq_ncard (hg : g.Simple) (hrows : ∀ v, v ∉ g.vertices → g.neighbours v = []) :
    g.edgeCount = g.edgePairs.ncard := by
  have hpairs : g.edgePairs = (g.ends.image fun p => s(p.1, p.2) : Finset (Sym2 Var)) := by
    ext e
    simp only [edgePairs, Set.mem_ofPred_eq, Finset.coe_image, Set.mem_image, Finset.mem_coe, ends,
      Finset.mem_sigma, List.mem_toFinset]
    constructor
    · rintro ⟨v, w, hw, rfl⟩
      have hv : v ∈ g.vertices := by
        by_contra hv
        rw [hrows v hv] at hw
        exact List.not_mem_nil hw
      exact ⟨⟨v, w⟩, ⟨hv, hw⟩, rfl⟩
    · rintro ⟨⟨v, w⟩, ⟨-, hw⟩, rfl⟩
      exact ⟨v, w, hw, rfl⟩
  rw [edgeCount_eq_card hg, hpairs, Set.ncard_coe_finset]

end Graph

/-! ## Primal graphs -/

namespace Solver

variable {F : List Clause} {s : Solver} {c : Component} {traversal : Traversal}

/-- **The co-occurrence graph of a component**, listed row by row. -/
structure CoOccurrence (s : Solver) (c : Component) (g : Graph) : Prop where
  vertices : g.vertices = s.openVars c
  ascending : MinFill.Ascending g.vertices
  neighbours : ∀ u v, u ∈ g.neighbours v
    ↔ u ∈ g.vertices ∧ v ∈ g.vertices ∧ u ≠ v ∧ s.Together c u v
  nodup : ∀ v, (g.neighbours v).Nodup
  symm : ∀ u v, u ∈ g.neighbours v → v ∈ g.neighbours u
  edgeCount : g.edgeCount = g.edgePairs.ncard

/-- A row of the uniform traversal is in order. -/
theorem FoundRow.ascending {v : Var} {row : List Var} (h : s.FoundRow c .uniform v row)
    (hnodup : row.Nodup) : MinFill.Ascending row := by
  obtain ⟨marks, -, -, rfl⟩ := h
  exact MinFill.ascending_mergeSort ((listed_perm _ .uniform).nodup_iff.mp hnodup)

theorem coOccurrence_of_primalGraphWith (hs : Sound F s) (hc : MinFill.Ascending c.vars)
    {marks marks' : Marks} (hmarks : marks.Wf) (hstamps : marks.stamps.size = s.varCount)
    {g : Graph} (hr : s.primalGraphWith marks c traversal = .ok (marks', g)) :
    s.CoOccurrence c g := by
  obtain ⟨-, ⟨hvertices, hcount⟩, hrows⟩ := primalGraphWith_spec hs hmarks hstamps hr
  have hascending : MinFill.Ascending g.vertices := hvertices ▸ hc.filter _
  have hneighbours : ∀ u v, u ∈ g.neighbours v
      ↔ u ∈ g.vertices ∧ v ∈ g.vertices ∧ u ≠ v ∧ s.Together c u v := fun u v => by
    by_cases hv : v ∈ g.vertices
    · obtain ⟨-, -, -, hmem⟩ := (hrows v).2 hv
      rw [hmem, hvertices, and_iff_right (a := v ∈ s.openVars c) (hvertices ▸ hv)]
      exact and_congr_right fun _ => and_congr_right fun _ =>
        ⟨fun h => Together.symm hs h, fun h => Together.symm hs h⟩
    · rw [(hrows v).1 hv]
      exact iff_of_false List.not_mem_nil fun h => hv h.2.1
  have hnodup : ∀ v, (g.neighbours v).Nodup := fun v => by
    by_cases hv : v ∈ g.vertices
    · exact ((hrows v).2 hv).2.2.1
    · rw [(hrows v).1 hv]
      exact List.nodup_nil
  have hsymm : ∀ u v, u ∈ g.neighbours v → v ∈ g.neighbours u := fun u v h => by
    obtain ⟨hu, hv, hne, htogether⟩ := (hneighbours u v).mp h
    exact (hneighbours v u).mpr ⟨hv, hu, hne.symm, htogether.symm hs⟩
  have hsimple : g.Simple := {
    nodup := hascending.nodup
    index_lt := fun v hv => ((hrows v).2 hv).1.trans_eq hcount.symm
    nodup_neighbours := fun v _ => hnodup v
    mem_vertices := fun v _ w hw => ((hneighbours w v).mp hw).1
    loopless := fun v _ hin => ((hneighbours v v).mp hin).2.2.1 rfl
    symm := fun v _ w hw => hsymm w v hw }
  exact {
    vertices := hvertices
    ascending := hascending
    neighbours := hneighbours
    nodup := hnodup
    symm := hsymm
    edgeCount := Graph.edgeCount_eq_ncard hsimple fun v hv => (hrows v).1 hv }

/-- **The primal graph is the co-occurrence graph, in both traversals**, with
whatever marks other traversals left behind. It is found if and only if all
variables are known, the marks stay in order, and uniform rows are ascending. So
the graphs of any two traversals have the same vertices and the same
neighbours. -/
theorem Attained.primalGraph_coOccurrence (h : Attained s) (vars : List Var)
    (clauses : List ClauseId) {marks₁ marks₂ : Marks} (hmarks₁ : marks₁.Wf)
    (hstamps₁ : marks₁.stamps.size = s.varCount) (hmarks₂ : marks₂.Wf)
    (hstamps₂ : marks₂.stamps.size = s.varCount) (traversal₁ traversal₂ : Traversal) :
    ((∃ r, s.primalGraphWith marks₁ (.ofLists vars clauses) traversal₁ = .ok r)
      ↔ ∀ v ∈ vars, v.index < s.varCount)
    ∧ (∀ marks g, s.primalGraphWith marks₁ (.ofLists vars clauses) traversal₁ = .ok (marks, g) →
      (marks.Wf ∧ marks.stamps.size = s.varCount) ∧ s.CoOccurrence (.ofLists vars clauses) g
        ∧ (traversal₁ = .uniform → ∀ v, MinFill.Ascending (g.neighbours v)))
    ∧ ∀ r₁ r₂, s.primalGraphWith marks₁ (.ofLists vars clauses) traversal₁ = .ok r₁ →
      s.primalGraphWith marks₂ (.ofLists vars clauses) traversal₂ = .ok r₂ →
      r₁.2.vertices = r₂.2.vertices
        ∧ ∀ v, (r₁.2.neighbours v).Perm (r₂.2.neighbours v) := by
  have hs := h.sound
  have hc : MinFill.Ascending (Component.ofLists vars clauses).vars :=
    Component.ascending_vars_ofLists
  refine ⟨?_, fun marks g hr => ?_, fun r₁ r₂ hr₁ hr₂ => ?_⟩
  · rw [hs.exists_primalGraphWith]
    exact forall_congr' fun v => by rw [Component.mem_vars_ofLists]
  · have hgraph := coOccurrence_of_primalGraphWith hs hc hmarks₁ hstamps₁ hr
    obtain ⟨hkept, -, hrows⟩ := primalGraphWith_spec hs hmarks₁ hstamps₁ hr
    refine ⟨hkept, hgraph, ?_⟩
    rintro rfl v
    by_cases hv : v ∈ g.vertices
    · exact ((hrows v).2 hv).2.1.ascending (hgraph.nodup v)
    · rw [(hrows v).1 hv]
      exact List.Pairwise.nil
  · have hgraph₁ := coOccurrence_of_primalGraphWith hs hc hmarks₁ hstamps₁ hr₁
    have hgraph₂ := coOccurrence_of_primalGraphWith hs hc hmarks₂ hstamps₂ hr₂
    have hvertices := hgraph₁.vertices.trans hgraph₂.vertices.symm
    refine ⟨hvertices, fun v => (List.perm_ext_iff_of_nodup (hgraph₁.nodup v)
      (hgraph₂.nodup v)).mpr fun u => ?_⟩
    rw [hgraph₁.neighbours, hgraph₂.neighbours, hvertices]

/-- A clause of two literals and one of three that overlap. -/
def overlapping : Formula :=
  { clauses := [[Var.pos ⟨0⟩, Var.pos ⟨1⟩], [Var.pos ⟨1⟩, Var.pos ⟨2⟩, Var.pos ⟨3⟩]] }

/-- The variable of both clauses has three neighbours, and there are four edges. -/
theorem Attained.primalGraph_coOccurrence_overlapping : ∃ (s : Solver) (r₁ r₂ : Marks × Graph),
    Attained s
    ∧ s.primalGraphWith (Marks.empty.resize s.varCount) (.ofLists [⟨3⟩, ⟨0⟩, ⟨2⟩, ⟨1⟩] [0])
      .arityClassed = .ok r₁
    ∧ s.primalGraphWith r₁.1 (.ofLists [⟨3⟩, ⟨0⟩, ⟨2⟩, ⟨1⟩] [0]) .uniform = .ok r₂
    ∧ r₁.2.neighbours ⟨1⟩ = [⟨0⟩, ⟨2⟩, ⟨3⟩] ∧ (r₁.2.neighbours ⟨1⟩).Perm (r₂.2.neighbours ⟨1⟩)
    ∧ s.Together (.ofLists [⟨3⟩, ⟨0⟩, ⟨2⟩, ⟨1⟩] [0]) ⟨2⟩ ⟨1⟩ ∧ r₁.2.edgePairs.ncard = 4 := by
  have hsorted : Component.ofLists [⟨3⟩, ⟨0⟩, ⟨2⟩, ⟨1⟩] [0] = ⟨[⟨0⟩, ⟨1⟩, ⟨2⟩, ⟨3⟩], [0]⟩ := by cbv
  have hrun : ∃ s, s = Solver.ofFormula overlapping {} ∧ 3 < s.varCount
      ∧ (s.primalGraphWith (Marks.empty.resize s.varCount) (.ofLists [⟨3⟩, ⟨0⟩, ⟨2⟩, ⟨1⟩] [0])
        .arityClassed).toOption.any
        (fun r => r.2.neighbours ⟨1⟩ == [⟨0⟩, ⟨2⟩, ⟨3⟩] && r.2.edgeCount == 4) = true := by
    refine ⟨_, rfl, ?_⟩
    rw [ofFormula_of_ascending (f := overlapping) (by decide) rfl, hsorted]
    decide +kernel
  obtain ⟨s, rfl, hcount, hrun⟩ := hrun
  obtain ⟨r₁, hr₁, hresult⟩ := (Option.any_eq_true _ _).mp hrun
  have hr₁ := Except.toOption_eq_some.mp hr₁
  simp only [Bool.and_eq_true, beq_iff_eq] at hresult
  obtain ⟨hrow, hedges⟩ := hresult
  have hs : Attained (Solver.ofFormula overlapping {}) := .ofFormula overlapping {}
  have hfresh := Marks.wf_empty_resize (Solver.ofFormula overlapping {}).varCount
  have hroom : (Marks.empty.resize (Solver.ofFormula overlapping {}).varCount).stamps.size
      = (Solver.ofFormula overlapping {}).varCount := VarTable.size_resize _ (Nat.zero_le _)
  have hknown : ∀ v ∈ ([⟨3⟩, ⟨0⟩, ⟨2⟩, ⟨1⟩] : List Var),
      v.index < (Solver.ofFormula overlapping {}).varCount := fun v hv => by
    have hle : ∀ v ∈ ([⟨3⟩, ⟨0⟩, ⟨2⟩, ⟨1⟩] : List Var), v.index ≤ 3 := by decide
    exact (hle v hv).trans_lt hcount
  obtain ⟨-, hgraph, -⟩ := hs.primalGraph_coOccurrence [⟨3⟩, ⟨0⟩, ⟨2⟩, ⟨1⟩] [0] hfresh hroom hfresh
    hroom .arityClassed .arityClassed
  obtain ⟨⟨hmarks, hstamps⟩, hcooccur, -⟩ := hgraph r₁.1 r₁.2 hr₁
  obtain ⟨hfound, -, hsame⟩ := hs.primalGraph_coOccurrence [⟨3⟩, ⟨0⟩, ⟨2⟩, ⟨1⟩] [0] hmarks hstamps
    hfresh hroom .uniform .arityClassed
  obtain ⟨r₂, hr₂⟩ := hfound.mpr hknown
  have htogether := ((hcooccur.neighbours ⟨2⟩ ⟨1⟩).mp (by rw [hrow]; decide)).2.2.2
  exact ⟨_, r₁, r₂, hs, hr₁, hr₂, hrow, ((hsame r₂ r₁ hr₂ hr₁).2 ⟨1⟩).symm, htogether,
    hcooccur.edgeCount.symm.trans hedges⟩

end Solver

end Cleave
