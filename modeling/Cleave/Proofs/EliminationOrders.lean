import Cleave.Proofs.LeafRemoval
import Cleave.Proofs.Rankings

/-!
# Elimination orders

Where an elimination order comes from does not matter for a static order: it lists
vertices of the graph, each at most once (`Solver.EliminatedBy.lists`). Min-fill takes
a vertex out of the heap when it lists it, and leaf removal asks whether it listed a
vertex before; an answer from outside cannot name anything else, as its bags are read
through the vertices (`TreeDecomposition.read_eq_ok`). Of a simple graph all vertices
are listed, unless min-fill gave up (`Solver.EliminatedBy.perm`).
-/

namespace Cleave

variable {g : Graph} {v : Var}

/-- **A mapping that may fail** gives a result for every element, or fails. -/
theorem Except.mapM_eq_ok {ε α β : Type} {f : α → Except ε β} {as : List α} {bs : List β} :
    as.mapM f = .ok bs ↔ List.Forall₂ (fun a b => f a = .ok b) as bs := by
  induction as generalizing bs with
  | nil =>
    rw [List.mapM_nil, List.forall₂_nil_left_iff]
    exact ⟨fun h => (Except.ok.inj h).symm, fun h => h ▸ rfl⟩
  | cons a as ih =>
    rw [List.mapM_cons, Except.bind_eq_ok, List.forall₂_cons_left_iff]
    refine exists_congr fun b => ?_
    rw [Except.bind_eq_ok]
    constructor
    · rintro ⟨hb, bs', hbs, h⟩
      exact ⟨bs', hb, ih.mp hbs, (Except.ok.inj h).symm⟩
    · rintro ⟨bs', hb, hbs, rfl⟩
      exact ⟨hb, bs', ih.mpr hbs, rfl⟩

/-! ## Min-fill -/

namespace MinFill

/-- **The vertices that go** were in the heap, and each goes once. -/
theorem stages_nodup {e : Elimination} (hi : e.heap.Indexed) (fuel : Nat) :
    ((stages fuel e).map Prod.fst).Nodup ∧ ∀ v ∈ (stages fuel e).map Prod.fst, v ∈ e.left := by
  induction fuel generalizing e with
  | zero => exact ⟨List.nodup_nil, fun _ hv => absurd hv List.not_mem_nil⟩
  | succ fuel ih =>
    unfold stages
    split
    · exact ⟨List.nodup_nil, fun _ hv => absurd hv List.not_mem_nil⟩
    · rename_i v heap hpop
      obtain ⟨hv, hremoved⟩ := hi.pop hpop
      obtain ⟨hindexed, hperm⟩ := hremoved.indexed.rekeyAll
        (Graph.sorted (e.adjacency[v] ++ e.adjacency[v].flatMap fun a =>
          (eliminate e.adjacency v e.adjacency[v])[a]))
        (key (eliminate e.adjacency v e.adjacency[v]))
      have hleft : ∀ w, w ∈ (step e v heap).left ↔ w ∈ e.left ∧ w ≠ v := fun w =>
        hperm.mem_iff.trans (hremoved.mem w)
      obtain ⟨hnodup, hmem⟩ := ih (e := step e v heap) hindexed
      refine ⟨List.nodup_cons.mpr ⟨fun hin => ((hleft v).mp (hmem v hin)).2 rfl, hnodup⟩,
        List.forall_mem_cons.mpr ⟨hv, fun w hw => ((hleft w).mp (hmem w hw)).1⟩⟩

/-- The order of the stages is the elimination order, also if there are none. -/
theorem eliminationOrder_decompositionOf (count width : Nat) (stages : List Stage) :
    (decompositionOf count width stages).eliminationOrder = stages.map Prod.fst := by
  cases stages with
  | nil => rfl
  | cons x rest => rfl

end MinFill

open MinFill

/-- **Min-fill lists a vertex once**, also where the graph is not simple, and its order
is the one to eliminate by. -/
theorem nodup_order_of_minFill (hlt : ∀ v ∈ g.vertices, v.index < g.varCount)
    {bound : Option Nat} {d : TreeDecomposition} (h : minFill g bound = some d) :
    d.order.Nodup ∧ d.eliminationOrder = d.order := by
  rw [minFill_eq] at h
  split at h
  · obtain rfl := Option.some.inj h
    have hsize : ((VarHeap.empty : VarHeap EliminationKey).resize g.varCount).positions.size
        = g.varCount := VarTable.size_resize _ (Nat.zero_le _)
    obtain ⟨hindexed, -⟩ := (VarHeap.indexed_empty_resize g.varCount).insertAll
      (fun v hv => hsize.symm ▸ hlt v hv) (key (start g).adjacency)
    exact ⟨(stages_nodup (e := start g) hindexed g.vertices.length).1,
      eliminationOrder_decompositionOf _ _ _⟩
  · cases h

/-! ## Leaf removal -/

namespace TreeDecomposition

variable {d : TreeDecomposition}

/-- What is eliminated is eliminated once and lies in a bag. -/
def Bagged (d : TreeDecomposition) (done : List Var) : Prop :=
  done.Nodup ∧ ∀ v ∈ done, ∃ i, v ∈ d.bag i

theorem Bagged.foldl {done : List Var} (h : d.Bagged done) (shared : Var → Bool) {vs : List Var}
    (hvs : ∀ v ∈ vs, ∃ i, v ∈ d.bag i) : d.Bagged
      (vs.foldl (fun done v => if shared v || done.contains v then done else v :: done) done) := by
  refine List.foldlRecOn vs _ h fun done h v hv => ?_
  split
  · exact h
  · rename_i hnew
    rw [Bool.or_eq_true, not_or, List.contains_iff_mem] at hnew
    exact ⟨List.nodup_cons.mpr ⟨hnew.2, h.1⟩, List.forall_mem_cons.mpr ⟨hvs v hv, h.2⟩⟩

theorem Bagged.eliminateLeaf {done : List Var} (h : d.Bagged done) (leaf : Nat)
    (parent : Option Nat) : d.Bagged (d.eliminateLeaf leaf parent done) :=
  h.foldl _ fun _ hv => ⟨leaf, hv⟩

/-- **Leaf removal orders members of bags**, whatever the bags and edges are, by
induction on the rounds. -/
theorem Bagged.pruneAll {p : Pruning} (h : d.Bagged p.eliminated) (fuel : Nat) :
    d.Bagged (d.pruneAll fuel p).eliminated := by
  induction fuel generalizing p with
  | zero => exact h
  | succ fuel ih =>
    unfold TreeDecomposition.pruneAll
    split
    · exact h
    · rename_i leaf leaves hleaves
      refine ih ?_
      unfold prune
      split
      · exact h
      · have hleaf := h.eliminateLeaf leaf (d.parent? (p.removed.setIfInBounds leaf true) leaf)
        cases hp : d.parent? (p.removed.setIfInBounds leaf true) leaf <;> simpa only [hp] using hleaf

/-! ## What is read -/

variable {vertices : List Var} {program : String}

/-- What is changed was there before. -/
theorem mem_of_mem_modify {α : Type} {xs : List α} {i : Nat} {f : α → α} {x : α}
    (h : x ∈ xs.modify i f) : x ∈ xs ∨ ∃ y ∈ xs, x = f y := by
  obtain ⟨j, hj⟩ := List.mem_iff_getElem?.mp h
  rw [List.getElem?_modify] at hj
  obtain ⟨y, hy, rfl⟩ := Option.map_eq_some_iff.mp hj
  split
  · exact Or.inr ⟨y, List.mem_of_getElem? hy, rfl⟩
  · exact Or.inl (List.mem_of_getElem? hy)

/-- **A word names a vertex**, or none. -/
theorem mem_of_vertex {word : List Char} (h : vertex vertices word = .ok v) : v ∈ vertices := by
  obtain ⟨n, -, h⟩ := Except.bind_eq_ok.mp h
  split at h
  · rename_i u hu
    obtain rfl := Except.ok.inj h
    split at hu
    · cases hu
    · exact List.mem_of_getElem? hu
  · cases h

theorem mem_of_vertices {words : List (List Char)} {members : List Var}
    (h : List.Forall₂ (fun word v => vertex vertices word = .ok v) words members) :
    ∀ v ∈ members, v ∈ vertices := by
  induction h with
  | nil => exact fun _ hv => absurd hv List.not_mem_nil
  | cons hword _ ih => exact List.forall_mem_cons.mpr ⟨mem_of_vertex hword, ih⟩

/-- Some bags that list vertices only. -/
def Over (vertices : List Var) (bags : Array (List Var)) : Prop :=
  ∀ bag ∈ bags.toList, ∀ v ∈ bag, v ∈ vertices

theorem over_replicate (vertices : List Var) (count : Nat) :
    Over vertices (Array.replicate count []) := fun bag hbag v hv => by
  rw [Array.toList_replicate] at hbag
  exact absurd (List.eq_of_mem_replicate hbag ▸ hv) List.not_mem_nil

/-- **A bag is filled with vertices.** -/
theorem Over.fillBag {filled bags : Array (List Var)} {rest : List (List Char)}
    (hover : Over vertices filled) (h : fillBag vertices (some filled) rest = .ok bags) :
    Over vertices bags := by
  obtain ⟨n, -, h⟩ := Except.bind_eq_ok.mp h
  split at h
  · cases h
  · obtain ⟨members, hmembers, h⟩ := Except.bind_eq_ok.mp h
    obtain rfl := Except.ok.inj h
    intro bag hbag v hv
    rw [Array.toList_modify] at hbag
    rcases mem_of_mem_modify hbag with hbag | ⟨old, hold, rfl⟩
    · exact hover bag hbag v hv
    · rcases List.mem_append.mp hv with hv | hv
      · exact hover old hold v hv
      · exact mem_of_vertices (Except.mapM_eq_ok.mp hmembers) v hv

/-- The bags of a draft list vertices only. -/
def Draft.Known (vertices : List Var) (d : Draft) : Prop :=
  ∀ bags, d.bags = some bags → Over vertices bags

/-- **A line keeps to the vertices.** -/
theorem Draft.Known.readLine {d d' : Draft} (hd : d.Known vertices) {line : List Char}
    (h : readLine vertices d line = .ok (.ok d')) : d'.Known vertices := by
  unfold TreeDecomposition.readLine at h
  split at h
  · exact Except.ok.inj (Except.ok.inj h) ▸ hd
  split at h
  · exact Except.ok.inj (Except.ok.inj h) ▸ hd
  split at h
  · split at h
    · cases h
    · split at h
      · cases h
      · obtain rfl := Except.ok.inj (Except.ok.inj h)
        exact fun _ heq => Option.some.inj heq ▸ over_replicate vertices _
  split at h
  · obtain ⟨bags, hbags, rfl⟩ := Except.map_eq_ok.mp (Except.ok.inj h)
    cases hfilled : d.bags with
    | none =>
      rw [hfilled] at hbags
      cases hbags
    | some filled =>
      rw [hfilled] at hbags
      exact fun _ heq => Option.some.inj heq ▸ (hd filled hfilled).fillBag hbags
  · obtain ⟨edge, -, rfl⟩ := Except.map_eq_ok.mp (Except.ok.inj h)
    exact hd

theorem Draft.Known.readLines {d d' : Draft} (hd : d.Known vertices) {lines : List (List Char)}
    {start : Nat} (h : readLines vertices program start d lines = .ok (.ok d')) :
    d'.Known vertices := by
  induction lines generalizing d start with
  | nil => exact Except.ok.inj (Except.ok.inj h) ▸ hd
  | cons line lines ih =>
    obtain ⟨r, hline, h⟩ := Except.bind_eq_ok.mp h
    cases r with
    | error reason => cases h
    | ok d₁ => exact ih (hd.readLine hline) h

/-- **What is read lists vertices only.** -/
theorem read_eq_ok {text : List Char} {d : TreeDecomposition}
    (h : read vertices program text = .ok (.ok d)) :
    ∃ bags edges, d = ofBags bags edges ∧ Over vertices bags := by
  obtain ⟨r, hlines, h⟩ := Except.bind_eq_ok.mp h
  cases r with
  | error e => cases h
  | ok draft =>
    have hstart : Draft.Known vertices {} := fun _ h => nomatch h
    have hknown := hstart.readLines hlines
    simp only at h
    split at h
    · rename_i bags hbags
      obtain rfl := Except.ok.inj (Except.ok.inj h)
      exact ⟨bags, _, rfl, hknown bags hbags⟩
    · cases h

end TreeDecomposition

/-- **An answer that is accepted** has bags of vertices and passes the checks. -/
theorem Decomposer.decompose_eq_ok {decomposer : Decomposer} {d : TreeDecomposition}
    (h : decomposer.decompose g = .ok (.ok d)) :
    ∃ bags edges, d = .ofBags bags edges ∧ TreeDecomposition.Over g.vertices bags
      ∧ d.verify g = .ok () := by
  obtain ⟨text, -, h⟩ := Except.bind_eq_ok.mp h
  cases houtput : (decomposer.run text).output decomposer.program decomposer.limit with
  | error e =>
    rw [houtput] at h
    cases h
  | ok output =>
    rw [houtput] at h
    obtain ⟨r, hread, h⟩ := Except.bind_eq_ok.mp h
    cases r with
    | error e => cases h
    | ok read =>
      cases hverify : read.verify g with
      | error fault =>
        simp only [hverify] at h
        cases h
      | ok u =>
        simp only [hverify] at h
        obtain rfl := Except.ok.inj (Except.ok.inj h)
        obtain ⟨bags, edges, rfl, hover⟩ := TreeDecomposition.read_eq_ok hread
        exact ⟨bags, edges, rfl, hover, hverify⟩

namespace Solver

variable {F : List Clause} {s s' : Solver} {c : Component} {run : String → ToolRun}
  {elimination : List Var}

namespace EliminatedBy

/-- **Vertices are listed**, each at most once, wherever the order comes from. -/
theorem lists (h : s.EliminatedBy run g elimination)
    (hlt : ∀ v ∈ g.vertices, v.index < g.varCount) :
    elimination.Nodup ∧ ∀ v ∈ elimination, v ∈ g.vertices := by
  cases h with
  | @decomposer program d hprogram hd =>
    obtain ⟨bags, edges, rfl, hover, -⟩ := Decomposer.decompose_eq_ok hd
    have hstart : (TreeDecomposition.ofBags bags edges).Bagged
        (TreeDecomposition.ofBags bags edges).startPruning.eliminated :=
      ⟨List.nodup_nil, fun _ hv => nomatch hv⟩
    obtain ⟨hnodup, hmem⟩ := hstart.pruneAll (2 * bags.size)
    refine ⟨List.nodup_reverse.mpr hnodup, fun v hv => ?_⟩
    obtain ⟨i, hi⟩ := hmem v (List.mem_reverse.mp hv)
    rcases (TreeDecomposition.ofBags bags edges).bag_eq_nil_or_mem i with hnil | hbag
    · exact absurd (hnil ▸ hi) List.not_mem_nil
    · exact hover _ hbag v hi
  | minFill hprogram hd =>
    obtain ⟨hnodup, horder⟩ := nodup_order_of_minFill hlt hd
    exact horder ▸ ⟨hnodup, minFill_order hd⟩
  | fallback => exact ⟨List.nodup_nil, fun _ hv => nomatch hv⟩

/-- **All vertices of a simple graph are listed**, unless min-fill gave up. -/
theorem perm (h : s.EliminatedBy run g elimination) (hg : g.Simple) :
    elimination.Perm g.vertices ∨ elimination = [] ∧ s.options.decomposer = none
      ∧ Cleave.minFill g (some s.options.widthBound) = none := by
  cases h with
  | decomposer hprogram hd =>
    obtain ⟨bags, edges, rfl, hover, hverify⟩ := Decomposer.decompose_eq_ok hd
    have hsymm : g.Symmetric := fun v hv w hw => ⟨hg.mem_vertices v hv w hw, hg.symm v hv w hw⟩
    obtain ⟨-, hrun, hmem⟩ := TreeDecomposition.pruneAll_spec
      (TreeDecomposition.decomposes_of_verify hsymm hverify).1 hover
    refine Or.inl ((List.reverse_perm _).trans ?_)
    exact (List.perm_ext_iff_of_nodup hrun.eliminates.nodup hg.nodup).mpr hmem
  | minFill hprogram hd =>
    obtain ⟨d', -, hperm, -, -, hbound⟩ := hg.minFill_eq_some
    have horder := (nodup_order_of_minFill hg.index_lt hd).2
    rw [hbound] at hd
    split at hd
    · obtain rfl := Option.some.inj hd
      exact Or.inl (horder ▸ hperm)
    · cases hd
  | fallback hprogram hd => exact Or.inr ⟨rfl, hprogram, hd⟩

end EliminatedBy

/-- **A static order ranks all variables**, for any component. -/
theorem ranks_computeOrder (hs : Sound F s) (h : s.computeOrder c run = .ok (.ok s')) :
    s'.order.Ranks s'.varCount := by
  obtain ⟨g, elimination, stats, hg, helim, rfl⟩ := computeOrder_spec h
  obtain ⟨-, hcount, hlt, -⟩ := primalGraph_spec hs hg
  obtain ⟨hnodup, hmem⟩ := helim.lists hlt
  show (VarOrder.ofElimination ..).Ranks _
  rw [VarOrder.ofElimination_eq]
  exact VarOrder.ranks_ofList (VarOrder.perm_elimination_remaining hnodup
    (fun v hv => (hlt v (hmem v hv)).trans_eq hcount) (s.variableWeights c))

end Solver

end Cleave
