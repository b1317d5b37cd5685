import Cleave.Proofs.EliminationBags
import Cleave.Proofs.HeapMembers
import Cleave.Proofs.Meaning

/-!
# Min-fill elimination is perfect

The members of the heap are the vertices that are left, and the adjacency lists
are those of the graph on them (`MinFill.Elimination.Live`). A step takes one
vertex away and joins its neighbours pairwise (`Current.mem_eliminate`), so what
were neighbours of it go later and are joined by then: the whole run is a
perfect elimination of the graph (`MinFill.stages_spec`), and its bags are a
tree decomposition.

Which vertices go, and with which neighbours, does not depend on the bound
(`MinFill.stages`). A bound only makes the run give up, at the first vertex that
has too many neighbours (`minFill_eq`).
-/

namespace Cleave

/-- **A simple graph**: its vertices are listed once and have room, and every
vertex lists its neighbours once, which are other vertices that list it. -/
structure Graph.Simple (g : Graph) : Prop where
  nodup : g.vertices.Nodup
  index_lt : ∀ v ∈ g.vertices, v.index < g.varCount
  nodup_neighbours : ∀ v ∈ g.vertices, (g.neighbours v).Nodup
  mem_vertices : ∀ v ∈ g.vertices, ∀ w ∈ g.neighbours v, w ∈ g.vertices
  loopless : ∀ v ∈ g.vertices, v ∉ g.neighbours v
  symm : ∀ v ∈ g.vertices, ∀ w ∈ g.neighbours v, v ∈ g.neighbours w

namespace MinFill

variable {a b v w : Var} {xs ys : List Var} {t : VarTable (List Var)} {vs ws : List Var}

/-! ## Ascending lists -/

/-- A list of variables in strictly ascending order. -/
def Ascending (xs : List Var) : Prop := xs.Pairwise fun v w => v.index < w.index

theorem Ascending.nodup (h : Ascending xs) : xs.Nodup :=
  h.imp fun hlt heq => Nat.ne_of_lt hlt (congrArg Var.index heq)

theorem ascending_mergeSort (h : xs.Nodup) : Ascending (xs.mergeSort Var.ble) := by
  have hle : (xs.mergeSort Var.ble).Pairwise fun v w => v.index ≤ w.index :=
    pairwise_mergeSort_key Var.index xs
  have hnodup : (xs.mergeSort Var.ble).Nodup := (List.mergeSort_perm _ _).nodup_iff.mpr h
  exact hle.imp₂ (fun _ _ hle hne => Nat.lt_of_le_of_ne hle fun heq => hne (Var.index_inj.mp heq)) hnodup

theorem mem_insertSorted : w ∈ insertSorted v xs ↔ w = v ∨ w ∈ xs := by
  fun_induction insertSorted v xs with
  | case1 => simp
  | case2 x rest hlt => simp
  | case3 rest hlt => simp
  | case4 x rest hlt hne ih =>
    rw [List.mem_cons, ih, List.mem_cons]
    exact or_left_comm

theorem Ascending.insertSorted (h : Ascending xs) : Ascending (insertSorted v xs) := by
  fun_induction MinFill.insertSorted v xs with
  | case1 => exact List.pairwise_singleton _ _
  | case2 x rest hlt =>
    refine List.pairwise_cons.mpr ⟨fun y hy => ?_, h⟩
    rcases List.mem_cons.mp hy with rfl | hy
    · exact hlt
    · exact hlt.trans (List.rel_of_pairwise_cons h hy)
  | case3 rest hlt => exact h
  | case4 x rest hlt hne ih =>
    refine List.pairwise_cons.mpr ⟨fun y hy => ?_, ih h.of_cons⟩
    rcases mem_insertSorted.mp hy with rfl | hy
    · exact Nat.lt_of_le_of_ne (Nat.not_lt.mp hlt) fun heq => hne (Var.index_inj.mp heq).symm
    · exact List.rel_of_pairwise_cons h hy

/-- A list of neighbours of `a`, joined with others. -/
def joinedWith (a : Var) (others list : List Var) : List Var :=
  others.foldl (fun list b => if a = b then list else insertSorted b list) list

theorem mem_joinedWith : b ∈ joinedWith a ys xs ↔ b ∈ xs ∨ (b ∈ ys ∧ b ≠ a) := by
  unfold joinedWith
  induction ys generalizing xs with
  | nil => simp
  | cons y ys ih =>
    rw [List.foldl_cons, ih, List.mem_cons]
    by_cases hay : a = y
    · subst hay
      rw [if_pos rfl]
      tauto
    · rw [if_neg hay, mem_insertSorted]
      by_cases hby : b = y
      · subst hby
        simp [Ne.symm hay]
      · simp [hby]

theorem Ascending.joinedWith (h : Ascending xs) (a : Var) (ys : List Var) :
    Ascending (joinedWith a ys xs) := by
  unfold MinFill.joinedWith
  induction ys generalizing xs with
  | nil => exact h
  | cons y ys ih =>
    rw [List.foldl_cons]
    split
    · exact ih h
    · exact ih h.insertSorted

/-! ## Eliminating a vertex -/

/-- **The graph on the vertices that are left**: every one of them lists its
neighbours in order, which are other ones that list it. -/
structure Current (t : VarTable (List Var)) (vs : List Var) : Prop where
  ascending : ∀ a ∈ vs, Ascending t[a]
  mem : ∀ a ∈ vs, ∀ b ∈ t[a], b ∈ vs
  loopless : ∀ a ∈ vs, a ∉ t[a]
  symm : ∀ a ∈ vs, ∀ b ∈ t[a], a ∈ t[b]

namespace Current

variable (h : Current t vs)

include h

/-- The list of a vertex after another one was eliminated. -/
theorem get_eliminate (hv : v ∈ vs) (hne : a ≠ v) :
    (eliminate t v t[v])[a] = if a ∈ t[v] then joinedWith a t[v] (t[a].erase v) else t[a] := by
  have hget := VarTable.get_foldl_modify (fun a list => joinedWith a t[v] (list.erase v))
    (h.ascending v hv).nodup (t.set v []) a
  refine hget.trans ?_
  rw [VarTable.get_set_ne _ hne.symm, VarTable.size_set]
  by_cases ha : a ∈ t[v]
  · -- a neighbour lists the vertex, so it has an entry
    have hlt : a.index < t.size := by
      by_contra hge
      have hback := h.symm v hv a ha
      rw [VarTable.get_of_size_le _ (Nat.not_lt.mp hge)] at hback
      cases hback
    rw [if_pos ⟨ha, hlt⟩, if_pos ha]
  · rw [if_neg fun hc => ha hc.1, if_neg ha]

/-- **Eliminating a vertex** removes it from the lists, and joins its neighbours
pairwise. -/
theorem mem_eliminate (hv : v ∈ vs) (ha : a ∈ vs) (hne : a ≠ v) :
    b ∈ (eliminate t v t[v])[a] ↔ (b ∈ t[a] ∧ b ≠ v) ∨ (a ∈ t[v] ∧ b ∈ t[v] ∧ b ≠ a) := by
  rw [h.get_eliminate hv hne]
  by_cases hav : a ∈ t[v]
  · rw [if_pos hav, mem_joinedWith, (h.ascending a ha).nodup.mem_erase_iff, and_comm (a := b ≠ v)]
    simp only [hav, true_and]
  · rw [if_neg hav]
    have hvb : b ∈ t[a] → b ≠ v := fun hb heq => hav (h.symm a ha v (heq ▸ hb))
    simp only [hav, false_and, or_false]
    exact ⟨fun hb => ⟨hb, hvb hb⟩, And.left⟩

/-- **The vertices left make up a graph again.** -/
theorem eliminate (hv : v ∈ vs) (hleft : ∀ w, w ∈ ws ↔ w ∈ vs ∧ w ≠ v) :
    Current (eliminate t v t[v]) ws where
  ascending := fun a ha => by
    obtain ⟨ha, hne⟩ := (hleft a).mp ha
    rw [h.get_eliminate hv hne]
    split
    · exact Ascending.joinedWith ((h.ascending a ha).sublist List.erase_sublist) a _
    · exact h.ascending a ha
  mem := fun a ha b hb => by
    obtain ⟨ha, hne⟩ := (hleft a).mp ha
    refine (hleft b).mpr ?_
    rcases (h.mem_eliminate hv ha hne).mp hb with ⟨hb, hbv⟩ | ⟨-, hb, -⟩
    · exact ⟨h.mem a ha b hb, hbv⟩
    · exact ⟨h.mem v hv b hb, fun heq => h.loopless v hv (heq ▸ hb)⟩
  loopless := fun a ha hin => by
    obtain ⟨ha, hne⟩ := (hleft a).mp ha
    rcases (h.mem_eliminate hv ha hne).mp hin with ⟨hin, -⟩ | ⟨-, -, hself⟩
    · exact h.loopless a ha hin
    · exact hself rfl
  symm := fun a ha b hb => by
    obtain ⟨ha, hne⟩ := (hleft a).mp ha
    rcases (h.mem_eliminate hv ha hne).mp hb with ⟨hb, hbv⟩ | ⟨hav, hb, hba⟩
    · exact (h.mem_eliminate hv (h.mem a ha b hb) hbv).mpr (Or.inl ⟨h.symm a ha b hb, hne⟩)
    · have hbv : b ≠ v := fun heq => h.loopless v hv (heq ▸ hb)
      exact (h.mem_eliminate hv (h.mem v hv b hb) hbv).mpr (Or.inr ⟨hb, hav, hba.symm⟩)

end Current

/-- **An elimination of a graph**: it is perfect, it takes all vertices, and the
two ends of every edge are neighbours when the first of them goes. -/
structure Eliminates (stages : List Stage) (t : VarTable (List Var)) (vs : List Var) : Prop where
  perfect : Perfect stages
  perm : (stages.map Prod.fst).Perm vs
  joined : ∀ a ∈ vs, ∀ b ∈ t[a], Joined stages a b

theorem Eliminates.nil (t : VarTable (List Var)) : Eliminates [] t [] :=
  ⟨.nil, .refl _, fun _ ha => absurd ha List.not_mem_nil⟩

/-- **One vertex first**, then the others: its neighbours are joined by then. -/
theorem Eliminates.cons {rest : List Stage} (hrest : Eliminates rest (eliminate t v t[v]) ws)
    (h : Current t vs) (hv : v ∈ vs) (hleft : ∀ w, w ∈ ws ↔ w ∈ vs ∧ w ≠ v)
    (hperm : vs.Perm (v :: ws)) : Eliminates ((v, t[v]) :: rest) t vs := by
  have hlater : ∀ a ∈ t[v], a ∈ ws := fun a ha =>
    (hleft a).mpr ⟨h.mem v hv a ha, fun heq => h.loopless v hv (heq ▸ ha)⟩
  have hnot : v ∉ rest.map Prod.fst := fun hin => ((hleft v).mp (hrest.perm.mem_iff.mp hin)).2 rfl
  refine ⟨.cons hnot (h.ascending v hv).nodup (fun a ha => hrest.perm.mem_iff.mpr (hlater a ha))
    (fun a ha b hb hab => ?_) hrest.perfect, (hrest.perm.cons v).trans hperm.symm, fun a ha b hb => ?_⟩
  · obtain ⟨hin, hne⟩ := (hleft a).mp (hlater a ha)
    exact hrest.joined a (hlater a ha) b
      ((h.mem_eliminate hv hin hne).mpr (Or.inr ⟨ha, hb, hab.symm⟩))
  · by_cases hav : a = v
    · subst hav
      exact ⟨_, List.mem_cons_self, Or.inl ⟨rfl, hb⟩⟩
    by_cases hbv : b = v
    · subst hbv
      exact ⟨_, List.mem_cons_self, Or.inr ⟨rfl, h.symm a ha b hb⟩⟩
    exact (hrest.joined a ((hleft a).mpr ⟨ha, hav⟩) b
      ((h.mem_eliminate hv ha hav).mpr (Or.inl ⟨hb, hbv⟩))).cons

/-! ## A run -/

namespace Elimination

variable {e : Elimination} {heap : VarHeap EliminationKey}

/-- The vertices that are left. -/
def left (e : Elimination) : List Var := e.heap.heap.toList

/-- **An elimination under way**: the members of the heap are the vertices of the
current graph. -/
structure Live (e : Elimination) : Prop where
  indexed : e.heap.Indexed
  current : Current e.adjacency e.left

/-- **A step takes one vertex away**; re-keying leaves the members that are there
after popping. -/
theorem Live.step (h : e.Live) (hpop : e.heap.pop? = some (v, heap)) :
    v ∈ e.left ∧ (step e v heap).Live ∧ (∀ w, w ∈ (step e v heap).left ↔ w ∈ e.left ∧ w ≠ v)
      ∧ e.left.Perm (v :: (step e v heap).left) := by
  obtain ⟨hv, hremoved⟩ := h.indexed.pop hpop
  obtain ⟨hindexed, hperm⟩ := hremoved.indexed.rekeyAll
    (Graph.sorted (e.adjacency[v] ++ e.adjacency[v].flatMap fun a =>
      (eliminate e.adjacency v e.adjacency[v])[a]))
    (key (eliminate e.adjacency v e.adjacency[v]))
  have hsame : (MinFill.step e v heap).left.Perm heap.heap.toList := hperm
  have hleft : ∀ w, w ∈ (MinFill.step e v heap).left ↔ w ∈ e.left ∧ w ≠ v := fun w =>
    hsame.mem_iff.trans (hremoved.mem w)
  exact ⟨hv, ⟨hindexed, h.current.eliminate hv hleft⟩, hleft,
    (hremoved.perm h.indexed hv).trans (hsame.symm.cons v)⟩

/-- **Before the first step** the current graph is the given one. -/
theorem live_start {g : Graph} (hg : g.Simple) : (start g).Live
    ∧ (∀ v, v ∈ (start g).left ↔ v ∈ g.vertices)
    ∧ ∀ v ∈ g.vertices, ∀ w, w ∈ (start g).adjacency[v] ↔ w ∈ g.neighbours v := by
  have hget : ∀ v ∈ g.vertices,
      (start g).adjacency[v] = (g.neighbours v).mergeSort Var.ble := fun v hv => by
    have hfold := VarTable.get_foldl_set (fun v => (g.neighbours v).mergeSort Var.ble)
      g.vertices (VarTable.sized g.varCount) v
    rw [VarTable.size_sized, if_pos ⟨hv, hg.index_lt v hv⟩] at hfold
    exact hfold
  have hadjacent : ∀ v ∈ g.vertices, ∀ w, w ∈ (start g).adjacency[v] ↔ w ∈ g.neighbours v :=
    fun v hv w => by rw [hget v hv, List.mem_mergeSort]
  have hsize : ((VarHeap.empty : VarHeap EliminationKey).resize g.varCount).positions.size
      = g.varCount := VarTable.size_resize _ (Nat.zero_le _)
  obtain ⟨hindexed, hmem⟩ := (VarHeap.indexed_empty_resize g.varCount).insertAll
    (fun v hv => hsize.symm ▸ hg.index_lt v hv) (key (start g).adjacency)
  have hleft : ∀ v, v ∈ (start g).left ↔ v ∈ g.vertices := fun v =>
    (hmem v).trans (or_iff_left List.not_mem_nil)
  refine ⟨⟨hindexed, fun a ha => ?_, fun a ha b hb => ?_, fun a ha hin => ?_, fun a ha b hb => ?_⟩,
    hleft, hadjacent⟩
  all_goals have ha := (hleft a).mp ha
  · rw [hget a ha]
    exact ascending_mergeSort (hg.nodup_neighbours a ha)
  · exact (hleft b).mpr (hg.mem_vertices a ha b ((hadjacent a ha b).mp hb))
  · exact hg.loopless a ha ((hadjacent a ha a).mp hin)
  · have hb := (hadjacent a ha b).mp hb
    exact (hadjacent b (hg.mem_vertices a ha b hb) a).mpr (hg.symm a ha b hb)

end Elimination

/-- **The vertices that go**, each with its neighbours at that moment, in up to
`fuel` steps. -/
def stages : Nat → Elimination → List Stage
  | 0, _ => []
  | fuel + 1, e =>
    match e.heap.pop? with
    | none => []
    | some (v, heap) => (v, e.adjacency[v]) :: stages fuel (step e v heap)

/-- **A run is an elimination** of the current graph, by induction on the vertices
left. -/
theorem stages_spec {e : Elimination} (fuel : Nat) (h : e.Live) (hfuel : e.left.length ≤ fuel) :
    Eliminates (stages fuel e) e.adjacency e.left := by
  induction fuel generalizing e with
  | zero =>
    rw [List.eq_nil_of_length_eq_zero (Nat.le_zero.mp hfuel)]
    exact .nil _
  | succ fuel ih =>
    unfold stages
    split
    · rename_i hpop
      rw [show e.left = [] from VarHeap.pop?_eq_none hpop]
      exact .nil _
    · rename_i v heap hpop
      obtain ⟨hv, hlive, hleft, hperm⟩ := h.step hpop
      have hlength := hperm.length_eq
      rw [List.length_cons] at hlength
      exact (ih hlive (by omega)).cons h.current hv hleft hperm

/-! ## The bound -/

/-- The largest number of neighbours a vertex goes with. -/
def widthOf (stages : List Stage) : Nat := stages.foldl (fun width x => max width x.2.length) 0

theorem widthOf_le_iff {stages : List Stage} {bound : Nat} :
    widthOf stages ≤ bound ↔ ∀ x ∈ stages, x.2.length ≤ bound :=
  (foldl_max_le_iff fun x : Stage => x.2.length).trans (and_iff_right (Nat.zero_le _))

/-- An elimination that has come through some stages. -/
structure Elimination.Past (e : Elimination) (past : List Stage) : Prop where
  width : e.width = widthOf past
  order : e.order = (past.map Prod.fst).reverse
  bags : e.bags = (past.map fun x => x.2 ++ [x.1]).reverse

/-- The decomposition of the stages an elimination has come through. -/
def Elimination.decomposition (count : Nat) (e : Elimination) : TreeDecomposition :=
  { width := e.width
    order := e.order.reverse
    bags := e.bags.reverse.toArray
    edges := treeEdges count e.order.reverse e.bags.reverse }

variable {e : Elimination} {past : List Stage}

theorem Elimination.Past.decomposition_eq (h : e.Past past) (count : Nat) :
    e.decomposition count = decompositionOf count (widthOf past) past := by
  unfold Elimination.decomposition decompositionOf
  rw [h.width, h.order, h.bags, List.reverse_reverse, List.reverse_reverse]

/-- At the end of a run no stages are left. -/
theorem Elimination.Past.at_end (h : e.Past past) (count : Nat) : some (e.decomposition count)
    = some (decompositionOf count (widthOf (past ++ [])) (past ++ [])) := by
  rw [List.append_nil, h.decomposition_eq]

theorem Elimination.Past.step (h : e.Past past) (v : Var) (heap : VarHeap EliminationKey) :
    (step e v heap).Past (past ++ [(v, e.adjacency[v])]) where
  width := by
    unfold widthOf
    rw [List.foldl_append]
    exact congrArg (max · e.adjacency[v].length) h.width
  order := by
    rw [List.map_append, List.reverse_append]
    exact congrArg (v :: ·) h.order
  bags := by
    rw [List.map_append, List.reverse_append]
    exact congrArg ((e.adjacency[v] ++ [v]) :: ·) h.bags

/-- No vertex goes with more neighbours than a bound allows. -/
def Within (bound : Option Nat) (stages : List Stage) : Bool :=
  stages.all fun x => !bound.any (· < x.2.length)

theorem within_none (stages : List Stage) : Within none stages = true :=
  List.all_eq_true.mpr fun _ _ => rfl

theorem within_some_iff {stages : List Stage} {bound : Nat} :
    Within (some bound) stages = true ↔ widthOf stages ≤ bound := by
  rw [widthOf_le_iff]
  unfold Within
  simp [List.all_eq_true]

/-- **A run with a bound** comes through the stages of one without, or gives
up. -/
theorem run_eq (bound : Option Nat) (count fuel : Nat) (h : e.Past past) :
    (run bound fuel e).map (·.decomposition count)
      = if Within bound (stages fuel e) then
          some (decompositionOf count (widthOf (past ++ stages fuel e)) (past ++ stages fuel e))
        else none := by
  induction fuel generalizing e past with
  | zero => exact h.at_end count
  | succ fuel ih =>
    cases hpop : e.heap.pop? with
    | none =>
      simp only [run, stages, hpop]
      exact h.at_end count
    | some popped =>
      obtain ⟨v, heap⟩ := popped
      simp only [run, stages, hpop]
      unfold Within
      rw [List.all_cons]
      by_cases hover : bound.any (· < e.adjacency[v].length) = true
      · rw [if_pos hover, hover]
        rfl
      · rw [if_neg hover, ih (h.step v heap), Bool.eq_false_iff.mpr hover, List.append_assoc]
        rfl

end MinFill

open MinFill

/-- **What min-fill gives**: the decomposition of its stages, unless one of them
goes beyond the bound. -/
theorem minFill_eq (g : Graph) (bound : Option Nat) :
    minFill g bound = if Within bound (stages g.vertices.length (start g)) then
        some (decompositionOf g.varCount (widthOf (stages g.vertices.length (start g)))
          (stages g.vertices.length (start g)))
      else none := by
  have hstart : (start g).Past [] := ⟨rfl, rfl, rfl⟩
  exact run_eq bound g.varCount g.vertices.length hstart

/-- The size of the largest bag. -/
def TreeDecomposition.largestBag (d : TreeDecomposition) : Nat :=
  (d.bags.toList.map List.length).max?.getD 0

/-- **The width** is the size of the largest bag, less one. -/
theorem MinFill.width_decompositionOf (count : Nat) (stages : List Stage) :
    widthOf stages = (decompositionOf count (widthOf stages) stages).largestBag - 1 := by
  have hfold : ∀ (stages : List Stage) (width : Nat),
      stages.foldl (fun size x => max size (x.2 ++ [x.1]).length) (width + 1)
        = stages.foldl (fun width x => max width x.2.length) width + 1 := fun stages width => by
    refine (List.foldl_hom (· + 1) fun width x => ?_)
    rw [List.length_append, List.length_singleton, Nat.add_max_add_right]
  cases stages with
  | nil => rfl
  | cons x stages =>
    unfold TreeDecomposition.largestBag decompositionOf widthOf
    simp only [List.map_cons, List.map_map, List.max?_cons', List.foldl_map, Option.getD_some,
      Function.comp_apply, List.foldl_cons, Nat.zero_max]
    rw [List.length_append, List.length_singleton, hfold]
    rfl

/-- **Min-fill decomposes simple graphs.** -/
theorem Graph.Simple.minFill_eq_some {g : Graph} (hg : g.Simple) :
    ∃ d, minFill g none = some d ∧ d.order.Perm g.vertices ∧ d.verify g = .ok ()
      ∧ d.width = d.largestBag - 1
      ∧ ∀ w, minFill g (some w) = if d.width ≤ w then some d else none := by
  obtain ⟨hlive, hleft, hadjacent⟩ := Elimination.live_start hg
  have hall : (start g).left.Perm g.vertices :=
    (List.perm_ext_iff_of_nodup hlive.indexed.nodup hg.nodup).mpr hleft
  have heliminates := stages_spec g.vertices.length hlive hall.length_eq.le
  have hvertices := heliminates.perm.trans hall
  have hsome := (minFill_eq g none).trans (if_pos (within_none _))
  refine ⟨_, hsome, hvertices, ?_, width_decompositionOf _ _, fun w => ?_⟩
  · exact heliminates.perfect.verify (fun v hv => hg.index_lt v (hvertices.mem_iff.mp hv))
      (fun v hv => hvertices.mem_iff.mpr hv) fun v hv w hw =>
        heliminates.joined v ((hleft v).mpr hv) w ((hadjacent v hv w).mpr hw)
  · rw [minFill_eq]
    simp only [within_some_iff]
    rfl

end Cleave
