import Cleave.Graph.MinFill
import Cleave.Proofs.TreeChecks
import Mathlib.Data.List.Nodup
import Mathlib.Order.Nat

/-!
# The bags of an elimination

An elimination takes the vertices of a graph out one by one, and each leaves
its neighbours of that moment behind. It is perfect if those neighbours all
come later and are pairwise joined by what comes later (`MinFill.Perfect`).

The bag of a vertex is hung under the bag of its neighbour that goes next. That
one contains all other neighbours, as they are joined to it (`Perfect.parent`).
So the bags with a given vertex, apart from the vertex's own, each have their
edge within these bags, and the own bag's edge leads out of them: they are one
more than the edges among them (`Perfect.connects`).
-/

namespace Cleave

namespace MinFill

/-- One vertex that is eliminated, with its neighbours at that moment. -/
abbrev Stage := Var × List Var

/-- Two variables are neighbours when the first of them goes. -/
def Joined (stages : List Stage) (a b : Var) : Prop :=
  ∃ x ∈ stages, (x.1 = a ∧ b ∈ x.2) ∨ (x.1 = b ∧ a ∈ x.2)

/-- **A perfect elimination**: the neighbours of a vertex go later, and are
pairwise neighbours then. -/
inductive Perfect : List Stage → Prop where
  | nil : Perfect []
  | cons {v : Var} {later : List Var} {rest : List Stage} (hv : v ∉ rest.map Prod.fst)
      (hnodup : later.Nodup) (hlater : ∀ a ∈ later, a ∈ rest.map Prod.fst)
      (hjoined : ∀ a ∈ later, ∀ b ∈ later, a ≠ b → Joined rest a b) (h : Perfect rest) :
      Perfect ((v, later) :: rest)

/-- The vertex that goes at a position. -/
def vertexAt (stages : List Stage) (i : Nat) : Var := (stages.getD i default).1

/-- Its neighbours at that moment. -/
def laterAt (stages : List Stage) (i : Nat) : List Var := (stages.getD i default).2

variable {stages : List Stage} {i j k : Nat} {a b v : Var}

theorem Joined.cons {x : Stage} (h : Joined stages a b) : Joined (x :: stages) a b := by
  obtain ⟨y, hy, hab⟩ := h
  exact ⟨y, List.mem_cons_of_mem _ hy, hab⟩

theorem mem_stages_iff {x : Stage} :
    x ∈ stages ↔ ∃ i < stages.length, vertexAt stages i = x.1 ∧ laterAt stages i = x.2 := by
  rw [List.mem_iff_getElem]
  constructor
  · rintro ⟨i, hi, rfl⟩
    refine ⟨i, hi, ?_⟩
    simp [vertexAt, laterAt, hi]
  · rintro ⟨i, hi, hv, hl⟩
    refine ⟨i, hi, Prod.ext ?_ ?_⟩
    · rw [← hv]
      simp [vertexAt, hi]
    · rw [← hl]
      simp [laterAt, hi]

theorem mem_vertices_iff : v ∈ stages.map Prod.fst ↔ ∃ i < stages.length, vertexAt stages i = v := by
  rw [List.mem_map]
  constructor
  · rintro ⟨x, hx, rfl⟩
    obtain ⟨i, hi, hv, -⟩ := mem_stages_iff.mp hx
    exact ⟨i, hi, hv⟩
  · rintro ⟨i, hi, rfl⟩
    exact ⟨(vertexAt stages i, laterAt stages i), mem_stages_iff.mpr ⟨i, hi, rfl, rfl⟩, rfl⟩

namespace Perfect

variable (h : Perfect stages)

include h

theorem nodup : (stages.map Prod.fst).Nodup := by
  induction h with
  | nil => exact List.nodup_nil
  | cons hv _ _ _ _ ih => exact List.nodup_cons.mpr ⟨hv, ih⟩

/-- Every vertex goes once. -/
theorem vertexAt_inj (hi : i < stages.length) (hj : j < stages.length)
    (heq : vertexAt stages i = vertexAt stages j) : i = j := by
  have hmap : ∀ k, k < stages.length →
      (stages.map Prod.fst)[k]? = some (vertexAt stages k) := fun k hk => by
    simp [vertexAt, hk]
  refine (List.getElem?_inj ((List.length_map Prod.fst).symm ▸ hi) h.nodup).mp ?_
  rw [hmap i hi, hmap j hj, heq]

theorem nodup_laterAt (i : Nat) : (laterAt stages i).Nodup := by
  induction h generalizing i with
  | nil => exact List.nodup_nil
  | cons _ hnodup _ _ _ ih =>
    cases i with
    | zero => exact hnodup
    | succ i => exact ih i

/-- **The neighbours of a vertex go later.** -/
theorem exists_later (ha : a ∈ laterAt stages i) :
    ∃ j, i < j ∧ j < stages.length ∧ vertexAt stages j = a := by
  induction h generalizing i with
  | nil => exact absurd ha List.not_mem_nil
  | @cons v later rest _ _ hlater _ _ ih =>
    cases i with
    | zero =>
      obtain ⟨j, hj, hv⟩ := mem_vertices_iff.mp (hlater a ha)
      exact ⟨j + 1, Nat.succ_pos j, Nat.succ_lt_succ hj, hv⟩
    | succ i =>
      obtain ⟨j, hij, hj, hv⟩ := ih ha
      exact ⟨j + 1, Nat.succ_lt_succ hij, Nat.succ_lt_succ hj, hv⟩

/-- **Two neighbours of a vertex** are neighbours when the first of them goes. -/
theorem mem_laterAt (hjk : j < k) (hk : k < stages.length)
    (hj : vertexAt stages j ∈ laterAt stages i) (hk' : vertexAt stages k ∈ laterAt stages i) :
    vertexAt stages k ∈ laterAt stages j := by
  induction h generalizing i j k with
  | nil => exact absurd hk (Nat.not_lt_zero _)
  | @cons v later rest hv hnodup hlater hjoined hrest ih =>
    have h : Perfect ((v, later) :: rest) := .cons hv hnodup hlater hjoined hrest
    -- the first of the two comes after position `i`, so both are positions of the rest
    obtain ⟨j', hij, hj', heq⟩ := h.exists_later hj
    obtain rfl := h.vertexAt_inj hj' (hjk.trans hk) heq
    obtain ⟨j, rfl⟩ := Nat.exists_eq_add_one_of_ne_zero (Nat.ne_zero_of_lt hij)
    obtain ⟨k, rfl⟩ := Nat.exists_eq_add_one_of_ne_zero (Nat.ne_zero_of_lt hjk)
    have hk := Nat.lt_of_succ_lt_succ hk
    have hjk := Nat.lt_of_succ_lt_succ hjk
    cases i with
    | succ i => exact ih hjk hk hj hk'
    | zero =>
      have hne : vertexAt rest j ≠ vertexAt rest k := fun heq =>
        absurd (hrest.vertexAt_inj (hjk.trans hk) hk heq) (Nat.ne_of_lt hjk)
      obtain ⟨x, hx, hxjk⟩ := hjoined _ hj _ hk' hne
      obtain ⟨m, hm, hxv, hxl⟩ := mem_stages_iff.mp hx
      rw [← hxv, ← hxl] at hxjk
      rcases hxjk with ⟨hvj, hin⟩ | ⟨hvk, hin⟩
      · rwa [hrest.vertexAt_inj hm (hjk.trans hk) hvj] at hin
      · obtain rfl := hrest.vertexAt_inj hm hk hvk
        obtain ⟨j', hlt, hj', heq⟩ := hrest.exists_later hin
        obtain rfl := hrest.vertexAt_inj hj' (hjk.trans hk) heq
        exact absurd hlt (Nat.not_lt.mpr hjk.le)

end Perfect

/-! ## The tree of the bags -/

/-- The bag of a position: the vertex and its neighbours. -/
def bagAt (stages : List Stage) (i : Nat) : List Var := laterAt stages i ++ [vertexAt stages i]

/-- The position of the neighbour that goes next. -/
def parent? (stages : List Stage) (i : Nat) : Option Nat :=
  ((laterAt stages i).map fun a => (stages.map Prod.fst).idxOf a).min?

theorem vertexAt_idxOf (hv : v ∈ stages.map Prod.fst) :
    vertexAt stages ((stages.map Prod.fst).idxOf v) = v := by
  have hlt := List.idxOf_lt_length_iff.mpr hv
  have hget : (stages.map Prod.fst)[(stages.map Prod.fst).idxOf v] = v := List.getElem_idxOf hlt
  rw [List.length_map] at hlt
  rw [List.getElem_map] at hget
  unfold vertexAt
  rwa [List.getD_eq_getElem?_getD, List.getElem?_eq_getElem hlt, Option.getD_some]

theorem mem_bagAt : a ∈ bagAt stages i ↔ a ∈ laterAt stages i ∨ a = vertexAt stages i := by
  unfold bagAt
  rw [List.mem_append, List.mem_singleton]

theorem parent?_eq_none : parent? stages i = none ↔ laterAt stages i = [] := by
  unfold parent?
  rw [List.min?_eq_none_iff, List.map_eq_nil_iff]

namespace Perfect

variable (h : Perfect stages)

include h

theorem idxOf_vertexAt (hi : i < stages.length) :
    (stages.map Prod.fst).idxOf (vertexAt stages i) = i := by
  have hin : vertexAt stages i ∈ stages.map Prod.fst := mem_vertices_iff.mpr ⟨i, hi, rfl⟩
  have hlt := List.idxOf_lt_length_iff.mpr hin
  rw [List.length_map] at hlt
  exact h.vertexAt_inj hlt hi (vertexAt_idxOf hin)

/-- A vertex is none of its neighbours. -/
theorem not_mem_laterAt (i : Nat) : vertexAt stages i ∉ laterAt stages i := fun hin => by
  obtain ⟨j, hij, hj, heq⟩ := h.exists_later hin
  exact absurd (h.vertexAt_inj hj (hij.trans hj) heq) (Nat.ne_of_gt hij)

theorem nodup_bagAt (i : Nat) : (bagAt stages i).Nodup := by
  unfold bagAt
  refine List.nodup_append.mpr ⟨h.nodup_laterAt i, List.nodup_singleton _, fun a ha b hb heq => ?_⟩
  obtain rfl := List.mem_singleton.mp hb
  exact h.not_mem_laterAt i (heq ▸ ha)

/-- **The parent of a bag** comes later and contains the neighbours. -/
theorem parent {p : Nat} (hp : parent? stages i = some p) :
    i < p ∧ p < stages.length ∧ ∀ a ∈ laterAt stages i, a ∈ bagAt stages p := by
  obtain ⟨hin, hmin⟩ := List.min?_eq_some_iff.mp hp
  obtain ⟨w, hw, rfl⟩ := List.mem_map.mp hin
  obtain ⟨j, hij, hj, rfl⟩ := h.exists_later hw
  rw [h.idxOf_vertexAt hj] at hmin ⊢
  refine ⟨hij, hj, fun a ha => mem_bagAt.mpr ?_⟩
  obtain ⟨k, -, hk, rfl⟩ := h.exists_later ha
  have hle : j ≤ k := by
    have := hmin _ (List.mem_map_of_mem ha)
    rwa [h.idxOf_vertexAt hk] at this
  rcases Nat.eq_or_lt_of_le hle with rfl | hlt
  · exact Or.inr rfl
  · exact Or.inl (h.mem_laterAt hlt hk hw ha)

/-- A vertex lies in bags up to its own only. -/
theorem le_of_mem_bagAt (hk : k < stages.length) (hin : vertexAt stages k ∈ bagAt stages i)
    (hi : i < stages.length) : i ≤ k := by
  rcases mem_bagAt.mp hin with hin | heq
  · obtain ⟨j, hij, hj, heq⟩ := h.exists_later hin
    exact (h.vertexAt_inj hj hk heq) ▸ hij.le
  · exact (h.vertexAt_inj hk hi heq).symm.le

/-- **The tree edges** lead from every bag to its parent. -/
theorem treeEdges_eq {count : Nat} (hcount : ∀ v ∈ stages.map Prod.fst, v.index < count) :
    treeEdges count (stages.map Prod.fst) (stages.map fun x => x.2 ++ [x.1])
      = (List.range stages.length).filterMap fun i => (parent? stages i).map (i, ·) := by
  have hzip : ((stages.map Prod.fst).zip (stages.map fun x => x.2 ++ [x.1])).zipIdx
      = (List.range stages.length).map fun i => ((vertexAt stages i, bagAt stages i), i) := by
    refine List.ext_getElem (by simp) fun i hi _ => ?_
    simp only [List.length_zipIdx, List.length_zip, List.length_map, Nat.min_self] at hi
    simp [vertexAt, laterAt, bagAt, hi]
  unfold treeEdges
  simp only
  rw [hzip, List.filterMap_map]
  refine List.filterMap_congr fun i hi => ?_
  have hi := List.mem_range.mp hi
  have hfilter : (bagAt stages i).filter (· != vertexAt stages i) = laterAt stages i := by
    unfold bagAt
    rw [List.filter_append, List.filter_eq_self.mpr]
    · simp
    · intro a ha
      exact bne_iff_ne.mpr fun heq => h.not_mem_laterAt i (heq ▸ ha)
  have hmap := List.map_congr_left fun a (ha : a ∈ laterAt stages i) =>
    VarTable.get_positions h.nodup hcount (mem_vertices_iff.mpr (by
      obtain ⟨j, -, hj, heq⟩ := h.exists_later ha
      exact ⟨j, hj, heq⟩))
  simp only [Function.comp_apply]
  rw [hfilter, hmap]
  unfold parent?
  cases (laterAt stages i).map fun a => (stages.map Prod.fst).idxOf a with
  | nil => rfl
  | cons p rest => rw [List.min?_cons']; rfl

end Perfect

/-! ## The checks -/

/-- One position more is counted if it was not counted before. -/
theorem countP_or_eq {l : List Nat} (hnodup : l.Nodup) (hk : k ∈ l) {p : Nat → Bool}
    (hpk : p k = false) : l.countP (fun i => p i || i == k) = l.countP p + 1 := by
  induction l with
  | nil => cases hk
  | cons x l ih =>
    obtain ⟨hx, hnodup⟩ := List.nodup_cons.mp hnodup
    rcases List.mem_cons.mp hk with rfl | hk
    · have hrest : l.countP (fun i => p i || i == k) = l.countP p := List.countP_congr fun i hi => by
        have hne : i ≠ k := fun heq => hx (heq ▸ hi)
        simp [hne]
      simp [hpk, hrest]
    · have hne : x ≠ k := fun heq => hx (heq ▸ hk)
      rw [List.countP_cons, List.countP_cons, ih hnodup hk]
      simp only [beq_eq_false_iff_ne.mpr hne, Bool.or_false]
      omega

/-- The decomposition with the bags of an elimination. -/
def decompositionOf (count width : Nat) (stages : List Stage) : TreeDecomposition :=
  { width := width
    order := stages.map Prod.fst
    bags := (stages.map fun x => x.2 ++ [x.1]).toArray
    edges := treeEdges count (stages.map Prod.fst) (stages.map fun x => x.2 ++ [x.1]) }

theorem size_bags_decompositionOf (count width : Nat) :
    (decompositionOf count width stages).bags.size = stages.length := by
  simp [decompositionOf]

theorem bag_decompositionOf {count width : Nat} (hi : i < stages.length) :
    (decompositionOf count width stages).bag i = bagAt stages i := by
  simp [decompositionOf, TreeDecomposition.bag, bagAt, laterAt, vertexAt, hi]

theorem mem_bagsOf_decompositionOf {count width : Nat} :
    i ∈ (decompositionOf count width stages).bagsOf v ↔ i < stages.length ∧ v ∈ bagAt stages i := by
  rw [TreeDecomposition.mem_bagsOf, size_bags_decompositionOf]
  exact and_congr_right fun hi => by rw [bag_decompositionOf hi]

namespace Perfect

variable {count width : Nat} (h : Perfect stages)

include h

theorem bagsOf_decompositionOf (v : Var) : (decompositionOf count width stages).bagsOf v
    = (List.range stages.length).filter fun i => (bagAt stages i).contains v := by
  rw [TreeDecomposition.bagsOf_of_nodup, size_bags_decompositionOf]
  · refine List.filter_congr fun i hi => ?_
    rw [bag_decompositionOf (List.mem_range.mp hi)]
  · intro i
    rcases Nat.lt_or_ge i stages.length with hi | hi
    · rw [bag_decompositionOf hi]
      exact h.nodup_bagAt i
    · have hnil : (decompositionOf count width stages).bag i = [] := by
        simp [decompositionOf, TreeDecomposition.bag, hi]
      rw [hnil]
      exact List.nodup_nil

theorem edge_eq (hcount : ∀ v ∈ stages.map Prod.fst, v.index < count) {e : Nat × Nat}
    (he : e ∈ (decompositionOf count width stages).edges) :
    e.1 < stages.length ∧ parent? stages e.1 = some e.2 := by
  rw [show (decompositionOf count width stages).edges = _ from h.treeEdges_eq hcount] at he
  obtain ⟨i, hi, heq⟩ := List.mem_filterMap.mp he
  obtain ⟨p, hp, rfl⟩ := Option.map_eq_some_iff.mp heq
  exact ⟨List.mem_range.mp hi, hp⟩

theorem edges_pairwise (hcount : ∀ v ∈ stages.map Prod.fst, v.index < count) :
    (decompositionOf count width stages).edges.Pairwise (·.1 < ·.1) := by
  rw [show (decompositionOf count width stages).edges = _ from h.treeEdges_eq hcount]
  refine List.Pairwise.filterMap _ (fun i j hij e he e' he' => ?_) List.pairwise_lt_range
  obtain ⟨p, -, rfl⟩ := Option.map_eq_some_iff.mp he
  obtain ⟨q, -, rfl⟩ := Option.map_eq_some_iff.mp he'
  exact hij

/-- The bags of a vertex are its own and those in which it goes later. -/
theorem bagsOf_vertexAt (hk : k < stages.length) :
    (decompositionOf count width stages).bagsOf (vertexAt stages k)
      = (List.range stages.length).filter fun i =>
          (laterAt stages i).contains (vertexAt stages k) || i == k := by
  rw [h.bagsOf_decompositionOf]
  refine List.filter_congr fun i hi => Bool.eq_iff_iff.mpr ?_
  have hsame : vertexAt stages k = vertexAt stages i ↔ i = k :=
    ⟨fun heq => h.vertexAt_inj (List.mem_range.mp hi) hk heq.symm, fun heq => heq ▸ rfl⟩
  simp [mem_bagAt, hsame]

/-- **The edge of a bag** joins two bags of a vertex if the vertex goes later than
the bag. -/
theorem spans_iff (hi : i < stages.length) (hk : k < stages.length) :
    (((parent? stages i).map (i, ·)).map fun e =>
      ((decompositionOf count width stages).bagsOf (vertexAt stages k)).contains e.1
        && ((decompositionOf count width stages).bagsOf (vertexAt stages k)).contains e.2).getD false
          = true
    ↔ (laterAt stages i).contains (vertexAt stages k) = true := by
  cases hp : parent? stages i with
  | none => simp [parent?_eq_none.mp hp]
  | some p =>
    obtain ⟨hip, hlt, hall⟩ := h.parent hp
    simp only [Option.map_some, Option.getD_some, Bool.and_eq_true, List.contains_iff_mem,
      mem_bagsOf_decompositionOf]
    refine ⟨fun ⟨⟨_, hin⟩, _, hin'⟩ => (mem_bagAt.mp hin).resolve_right fun heq => ?_,
      fun hin => ⟨⟨hi, mem_bagAt.mpr (Or.inl hin)⟩, hlt, hall _ hin⟩⟩
    -- the parent of the vertex's own bag no longer contains the vertex
    obtain rfl := h.vertexAt_inj hk hi heq
    exact absurd (h.le_of_mem_bagAt hk hin' hlt) (Nat.not_le.mpr hip)

/-- **The bags of a vertex are connected**: all but its own lie under a parent
among them. -/
theorem connects (hcount : ∀ v ∈ stages.map Prod.fst, v.index < count)
    (hk : k < stages.length) : (decompositionOf count width stages).connects
      ((decompositionOf count width stages).bagsOf (vertexAt stages k)) = true := by
  have hedges : (decompositionOf count width stages).edges
      = (List.range stages.length).filterMap fun i => (parent? stages i).map (i, ·) :=
    h.treeEdges_eq hcount
  have hown : (laterAt stages k).contains (vertexAt stages k) = false :=
    Bool.eq_false_iff.mpr (mt List.contains_iff_mem.mp (h.not_mem_laterAt k))
  unfold TreeDecomposition.connects
  refine decide_eq_true ?_
  rw [hedges, List.countP_filterMap]
  refine (congrArg (· + 1) (List.countP_congr fun i hi =>
    h.spans_iff (List.mem_range.mp hi) hk)).trans ?_
  rw [h.bagsOf_vertexAt hk, ← List.countP_eq_length_filter]
  exact (countP_or_eq List.nodup_range (List.mem_range.mpr hk) hown).symm

/-- **The bags of a perfect elimination are a tree decomposition** of every graph
whose edges are neighbours at some step. -/
theorem verify {g : Graph} (hcount : ∀ v ∈ stages.map Prod.fst, v.index < count)
    (hvertices : ∀ v ∈ g.vertices, v ∈ stages.map Prod.fst)
    (hedges : ∀ v ∈ g.vertices, ∀ w ∈ g.neighbours v, Joined stages v w) :
    (decompositionOf count width stages).verify g = .ok () := by
  rw [TreeDecomposition.verify_eq_ok_iff]
  refine ⟨?_, fun v hv => ?_, fun v hv w hw _ => ?_, fun v hv => ?_⟩
  · refine TreeDecomposition.checkForest_upward (Forest.represents_singletons _)
      Array.size_range (h.edges_pairwise hcount) (fun e he => ?_) (fun i => Nat.le_refl i)
      fun e _ => rfl
    obtain ⟨hip, hlt, -⟩ := h.parent (h.edge_eq hcount he).2
    exact ⟨hip, (size_bags_decompositionOf count width).symm ▸ hlt⟩
  · obtain ⟨k, hk, rfl⟩ := mem_vertices_iff.mp (hvertices v hv)
    exact List.ne_nil_of_mem (mem_bagsOf_decompositionOf.mpr ⟨hk, mem_bagAt.mpr (Or.inr rfl)⟩)
  · obtain ⟨x, hx, hvw⟩ := hedges v hv w hw
    obtain ⟨i, hi, hxv, hxl⟩ := mem_stages_iff.mp hx
    have hboth : v ∈ bagAt stages i ∧ w ∈ bagAt stages i := by
      rw [← hxv, ← hxl] at hvw
      rcases hvw with ⟨rfl, hin⟩ | ⟨rfl, hin⟩
      · exact ⟨mem_bagAt.mpr (Or.inr rfl), mem_bagAt.mpr (Or.inl hin)⟩
      · exact ⟨mem_bagAt.mpr (Or.inl hin), mem_bagAt.mpr (Or.inr rfl)⟩
    refine List.any_eq_true.mpr ⟨i, mem_bagsOf_decompositionOf.mpr ⟨hi, hboth.1⟩, ?_⟩
    rw [bag_decompositionOf hi]
    exact List.contains_iff_mem.mpr hboth.2
  · obtain ⟨k, hk, rfl⟩ := mem_vertices_iff.mp (hvertices v hv)
    exact h.connects hcount hk

end Perfect

end MinFill

end Cleave
