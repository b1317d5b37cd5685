import Cleave.Proofs.HeapOrder
import Cleave.Proofs.SimpleGraphs
import Mathlib.Combinatorics.SimpleGraph.Basic
import Mathlib.Data.Prod.Lex
import Mathlib.Data.Set.Card

/-!
# Min-fill elimination is greedy

Eliminating vertices of a graph one after the other gives a sequence of graphs
(`Graph.eliminationGraph`), in which every vertex has a rank: the number of
edges missing among its neighbours, then the number of these, then its index
(`Graph.rank`). Min-fill never looks at all ranks. It keeps them in a heap and
recomputes those of the neighbours of the vertex that goes, and of their
neighbours.

That is enough. For any other vertex neither its list of neighbours changes nor
theirs (`MinFill.Current.key_eliminate`), so the keys in the heap stay those of
the current graph, which are the ranks in the elimination graph
(`MinFill.Faithful`). As the heap is in order, the vertex it gives is the one of
the smallest rank (`Graph.Built.minFill_greedy`).
-/

namespace Cleave

variable {a b v w : Var}

/-! ## Elimination graphs -/

namespace Graph

/-- The edges of a graph, between all variables. -/
def simpleGraph (g : Graph) : SimpleGraph Var :=
  .fromRel fun v w => v ∈ g.vertices ∧ w ∈ g.neighbours v

/-- **Eliminating a vertex**: its neighbours become a clique, and it is removed. -/
def eliminated (G : SimpleGraph Var) (v : Var) : SimpleGraph Var where
  Adj a b := a ≠ v ∧ b ≠ v ∧ a ≠ b ∧ (G.Adj a b ∨ (G.Adj v a ∧ G.Adj v b))
  symm := ⟨fun _ _ ⟨ha, hb, hne, hadj⟩ =>
    ⟨hb, ha, hne.symm, hadj.imp (fun h => h.symm) fun h => ⟨h.2, h.1⟩⟩⟩
  loopless := ⟨fun _ h => h.2.2.1 rfl⟩

/-- **What is left of a graph** after some vertices were eliminated. -/
def eliminationGraph (g : Graph) (past : List Var) : SimpleGraph Var :=
  past.foldl eliminated g.simpleGraph

theorem eliminationGraph_concat (g : Graph) (past : List Var) (v : Var) :
    g.eliminationGraph (past ++ [v]) = eliminated (g.eliminationGraph past) v :=
  List.foldl_concat eliminated _ v past

/-- The pairs of neighbours of a vertex that are not joined, smaller one first. -/
def missingPairs (G : SimpleGraph Var) (v : Var) : Set (Var × Var) :=
  {p | G.Adj v p.1 ∧ G.Adj v p.2 ∧ p.1.index < p.2.index ∧ ¬ G.Adj p.1 p.2}

/-- **The rank of a vertex**: the number of edges missing among its neighbours,
the number of its neighbours, and its index, compared in this order. -/
noncomputable def rank (G : SimpleGraph Var) (v : Var) : Nat ×ₗ Nat ×ₗ Nat :=
  toLex ((missingPairs G v).ncard, toLex ((G.neighborSet v).ncard, v.index))

end Graph

/-! ## The order of keys -/

namespace EliminationKey

/-- The numbers of a key, to be compared one after the other. -/
def numbers (k : EliminationKey) : Nat ×ₗ Nat ×ₗ Nat := toLex (k.fill, toLex (k.degree, k.index))

/-- **Keys compare the wrong way round**: smaller numbers rank higher. -/
theorem isLE_compare_iff {k l : EliminationKey} :
    (compare k l).isLE = true ↔ l.numbers ≤ k.numbers := by
  show (((compare l.fill k.fill).then (compare l.degree k.degree)).then
    (compare l.index k.index)).isLE = true ↔ _
  unfold numbers
  rw [Prod.Lex.toLex_le_toLex, Prod.Lex.toLex_le_toLex]
  rcases Nat.lt_trichotomy l.fill k.fill with hf | hf | hf
  · rw [Nat.compare_eq_lt.mpr hf]
    exact iff_of_true rfl (Or.inl hf)
  · rw [Nat.compare_eq_eq.mpr hf]
    rcases Nat.lt_trichotomy l.degree k.degree with hd | hd | hd
    · rw [Nat.compare_eq_lt.mpr hd]
      exact iff_of_true rfl (Or.inr ⟨hf, Or.inl hd⟩)
    · rw [Nat.compare_eq_eq.mpr hd]
      show (compare l.index k.index).isLE = true ↔ _
      rw [Nat.isLE_compare]
      simp [hf, hd]
    · rw [Nat.compare_eq_gt.mpr hd]
      refine iff_of_false Bool.false_ne_true ?_
      simp only []
      omega
  · rw [Nat.compare_eq_gt.mpr hf]
    refine iff_of_false Bool.false_ne_true ?_
    simp only []
    omega

instance : Std.TransOrd EliminationKey :=
  have _ : Std.TransCmp fun k l : EliminationKey => compare l.fill k.fill :=
    (inferInstance : Std.TransCmp (compareOn EliminationKey.fill)).opposite
  have _ : Std.TransCmp fun k l : EliminationKey => compare l.degree k.degree :=
    (inferInstance : Std.TransCmp (compareOn EliminationKey.degree)).opposite
  have _ : Std.TransCmp fun k l : EliminationKey => compare l.index k.index :=
    (inferInstance : Std.TransCmp (compareOn EliminationKey.index)).opposite
  (inferInstance : Std.TransCmp (compareLex
    (compareLex (fun k l : EliminationKey => compare l.fill k.fill)
      (fun k l => compare l.degree k.degree)) (fun k l => compare l.index k.index)))

end EliminationKey

namespace MinFill

open Cleave.Graph

variable {t : VarTable (List Var)} {vs xs past : List Var} {G : SimpleGraph Var} {g : Graph}
  {e : Elimination} {heap : VarHeap EliminationKey}

/-! ## Counting what is missing -/

theorem ncard_eq_length {α : Type} {S : Set α} {xs : List α} (hnodup : xs.Nodup)
    (hmem : ∀ x, x ∈ S ↔ x ∈ xs) : S.ncard = xs.length := by
  classical
  have hS : S = (xs.toFinset : Set α) := by
    ext x
    rw [Finset.mem_coe, List.mem_toFinset]
    exact hmem x
  rw [hS, Set.ncard_coe_finset, List.toFinset_card_of_nodup hnodup]

/-- **The missing edges counted are pairs**, each with the smaller vertex first. -/
theorem exists_missingPairs (hxs : Ascending xs) (hadj : ∀ a ∈ xs, ∀ b, b ∈ t[a] ↔ G.Adj a b) :
    ∃ pairs : List (Var × Var), pairs.Nodup ∧ pairs.length = missingEdges t xs
      ∧ ∀ p, p ∈ pairs ↔ p.1 ∈ xs ∧ p.2 ∈ xs ∧ p.1.index < p.2.index ∧ ¬ G.Adj p.1 p.2 := by
  induction xs with
  | nil => exact ⟨[], List.nodup_nil, rfl, fun p => by simp⟩
  | cons a rest ih =>
    obtain ⟨hfirst, hrest⟩ := List.pairwise_cons.mp hxs
    obtain ⟨pairs, hnodup, hlength, hmem⟩ := ih hrest fun b hb => hadj b (List.mem_cons_of_mem _ hb)
    have hnot : a ∉ rest := fun hin => absurd (hfirst a hin) (lt_irrefl _)
    have hjoined : ∀ b, (!t[a].contains b) = true ↔ ¬ G.Adj a b := fun b => by
      rw [Bool.not_eq_true', ← Bool.not_eq_true, List.contains_iff_mem,
        hadj a List.mem_cons_self]
    refine ⟨(rest.filter fun b => !t[a].contains b).map (Prod.mk a) ++ pairs, ?_, ?_, fun p => ?_⟩
    · refine List.nodup_append.mpr ⟨((hrest.nodup).filter _).map (Prod.mk_right_injective a), hnodup,
        fun p hp q hq heq => ?_⟩
      obtain ⟨b, -, rfl⟩ := List.mem_map.mp hp
      have hfst : a = q.1 := congrArg Prod.fst heq
      exact hnot (hfst ▸ ((hmem q).mp hq).1)
    · rw [List.length_append, List.length_map, hlength, missingEdges, List.countP_eq_length_filter]
    · rw [List.mem_append, hmem]
      constructor
      · rintro (hp | ⟨h₁, h₂, hlt⟩)
        · obtain ⟨b, hb, rfl⟩ := List.mem_map.mp hp
          obtain ⟨hb, hnone⟩ := List.mem_filter.mp hb
          exact ⟨List.mem_cons_self, List.mem_cons_of_mem _ hb, hfirst b hb, (hjoined b).mp hnone⟩
        · exact ⟨List.mem_cons_of_mem _ h₁, List.mem_cons_of_mem _ h₂, hlt⟩
      · obtain ⟨x, y⟩ := p
        rintro ⟨hx, hy, hlt, hnone⟩
        replace hlt : x.index < y.index := hlt
        -- the second one is larger than some member, so it is not the first member
        have hlater : y ∈ rest := (List.mem_cons.mp hy).resolve_left fun heq => by
          replace heq : y = a := heq
          subst heq
          rcases List.mem_cons.mp hx with heq | hx
          · exact lt_irrefl y.index (congrArg Var.index heq ▸ hlt)
          · exact lt_asymm hlt (hfirst x hx)
        rcases List.mem_cons.mp hx with heq | hx
        · obtain rfl : x = a := heq
          exact Or.inl (List.mem_map.mpr ⟨y, List.mem_filter.mpr ⟨hlater, (hjoined y).mpr hnone⟩, rfl⟩)
        · exact Or.inr ⟨hx, hlater, hlt, hnone⟩

/-- **The numbers of a key are the rank** in the graph that the lists describe. -/
theorem numbers_key (h : Current t vs) (hadj : ∀ a ∈ vs, ∀ b, b ∈ t[a] ↔ G.Adj a b) (hv : v ∈ vs) :
    (key t v).numbers = rank G v := by
  obtain ⟨pairs, hnodup, hlength, hmem⟩ := exists_missingPairs (h.ascending v hv)
    fun a ha => hadj a (h.mem v hv a ha)
  have hfill : (missingPairs G v).ncard = missingEdges t t[v] := by
    rw [← hlength]
    refine ncard_eq_length hnodup fun p => ?_
    rw [hmem, hadj v hv, hadj v hv]
    rfl
  have hdegree : (G.neighborSet v).ncard = t[v].length :=
    ncard_eq_length (h.ascending v hv).nodup fun b => (hadj v hv b).symm
  unfold rank
  rw [hfill, hdegree]
  rfl

/-! ## What an elimination leaves alone -/

theorem missingEdges_congr {t' : VarTable (List Var)} (hsame : ∀ a ∈ xs, t'[a] = t[a]) :
    missingEdges t' xs = missingEdges t xs := by
  induction xs with
  | nil => rfl
  | cons a rest ih =>
    unfold missingEdges
    rw [hsame a List.mem_cons_self, ih fun b hb => hsame b (List.mem_cons_of_mem _ hb)]

/-- **Keys change only around the vertex that goes**: neither a vertex that is no
neighbour of it, nor one that is no neighbour of those afterwards, has another
key. -/
theorem Current.key_eliminate (h : Current t vs) (hv : v ∈ vs) (hw : w ∈ vs) (hne : w ≠ v)
    (hnear : w ∉ t[v]) (hnext : ∀ a ∈ t[v], w ∉ (MinFill.eliminate t v t[v])[a]) :
    key (MinFill.eliminate t v t[v]) w = key t w := by
  have hsame : ∀ {a}, a ≠ v → a ∉ t[v] → (MinFill.eliminate t v t[v])[a] = t[a] :=
    fun ha hnot => (h.get_eliminate hv ha).trans (if_neg hnot)
  have hlist := hsame hne hnear
  have htheirs : ∀ a ∈ t[w], (MinFill.eliminate t v t[v])[a] = t[a] := fun a ha => by
    have hav : a ≠ v := fun heq => hnear (h.symm w hw v (heq ▸ ha))
    refine hsame hav fun hin => hnext a hin ?_
    exact (h.mem_eliminate hv (h.mem v hv a hin) hav).mpr (Or.inl ⟨h.symm w hw a ha, hne⟩)
  unfold key
  simp only [hlist, missingEdges_congr htheirs]

/-! ## One step -/

/-- **An elimination that follows the elimination graph**: the adjacency lists are
those of the graph that is left, and the heap is in order and has the keys that
the lists give. -/
structure Faithful (g : Graph) (past : List Var) (e : Elimination) : Prop where
  live : e.Live
  lawful : e.heap.Lawful
  keys : ∀ v ∈ e.left, e.heap.keys[v] = key e.adjacency v
  adj : ∀ a ∈ e.left, ∀ b, b ∈ e.adjacency[a] ↔ (g.eliminationGraph past).Adj a b
  order : e.order = past.reverse

namespace Faithful

/-- The keys in the heap are the ranks. -/
theorem numbers_keys (h : Faithful g past e) (hv : v ∈ e.left) :
    e.heap.keys[v].numbers = rank (g.eliminationGraph past) v := by
  rw [h.keys v hv]
  exact numbers_key h.live.current h.adj hv

/-- **The vertex taken** has the smallest rank. -/
theorem rank_lt (h : Faithful g past e) (hpop : e.heap.pop? = some (v, heap)) (hw : w ∈ e.left)
    (hne : w ≠ v) : rank (g.eliminationGraph past) v < rank (g.eliminationGraph past) w := by
  have hv := (h.live.indexed.pop hpop).1
  have hle := EliminationKey.isLE_compare_iff.mp ((h.lawful.pop hpop).2 w hw)
  rw [h.numbers_keys hv, h.numbers_keys hw] at hle
  refine lt_of_le_of_ne hle fun heq => hne (Var.index_inj.mp ?_)
  exact (congrArg (fun r => (ofLex (ofLex r).2).2) heq).symm

/-- **A step follows the elimination graph.** What is not re-keyed is not near the
vertex that went. -/
theorem step (h : Faithful g past e) (hpop : e.heap.pop? = some (v, heap)) :
    Faithful g (past ++ [v]) (step e v heap) := by
  obtain ⟨hv, hlive, hleft, -⟩ := h.live.step hpop
  obtain ⟨-, hremoved⟩ := h.live.indexed.pop hpop
  have hcurrent := h.live.current
  obtain ⟨hlawful, hkeys⟩ := (h.lawful.pop hpop).1.rekeyAll
    (sorted (e.adjacency[v] ++ e.adjacency[v].flatMap fun a =>
      (eliminate e.adjacency v e.adjacency[v])[a]))
    (key (eliminate e.adjacency v e.adjacency[v]))
  refine ⟨hlive, hlawful, fun w hw => ?_, fun a ha b => ?_, ?_⟩
  · obtain ⟨hin, hne⟩ := (hleft w).mp hw
    refine (hkeys w ((hremoved.mem w).mpr ⟨hin, hne⟩)).trans ?_
    show _ = key (eliminate e.adjacency v e.adjacency[v]) w
    split
    · rfl
    · rename_i hfar
      rw [mem_sorted, List.mem_append, not_or, List.mem_flatMap] at hfar
      rw [hremoved.keys, h.keys w hin]
      exact (hcurrent.key_eliminate hv hin hne hfar.1 fun a ha hw => hfar.2 ⟨a, ha, hw⟩).symm
  · obtain ⟨hin, hne⟩ := (hleft a).mp ha
    rw [eliminationGraph_concat]
    refine (hcurrent.mem_eliminate hv hin hne).trans ?_
    rw [h.adj a hin, h.adj v hv, h.adj v hv]
    constructor
    · rintro (⟨hab, hbv⟩ | ⟨hva, hvb, hba⟩)
      · exact ⟨hne, hbv, hab.ne, Or.inl hab⟩
      · exact ⟨hne, hvb.ne', hba.symm, Or.inr ⟨hva, hvb⟩⟩
    · rintro ⟨-, hbv, hab, hadj | ⟨hva, hvb⟩⟩
      · exact Or.inl ⟨hadj, hbv⟩
      · exact Or.inr ⟨hva, hvb, hab.symm⟩
  · show v :: e.order = _
    rw [h.order, List.reverse_append]
    rfl

/-- **Before the first step** nothing is eliminated. -/
theorem start (hg : g.Simple) : Faithful g [] (start g) := by
  obtain ⟨hlive, hleft, hadjacent⟩ := Elimination.live_start hg
  have hsize : ((VarHeap.empty : VarHeap EliminationKey).resize g.varCount).positions.size
      = g.varCount := VarTable.size_resize _ (Nat.zero_le _)
  obtain ⟨hlawful, hkeys⟩ := (VarHeap.lawful_empty_resize g.varCount).insertAll
    (fun v hv => hsize.symm ▸ hg.index_lt v hv) (key (MinFill.start g).adjacency)
  refine ⟨hlive, hlawful, fun v hv => ?_, fun a ha b => ?_, rfl⟩
  · exact (hkeys v).trans (if_pos ((hleft v).mp hv))
  · have ha := (hleft a).mp ha
    rw [hadjacent a ha]
    show _ ↔ g.simpleGraph.Adj a b
    constructor
    · exact fun hb => (SimpleGraph.fromRel_adj _ a b).mpr
        ⟨fun heq => hg.loopless a ha (heq ▸ hb), Or.inl ⟨ha, hb⟩⟩
    · intro hab
      rcases ((SimpleGraph.fromRel_adj _ a b).mp hab).2 with ⟨-, hb⟩ | ⟨hb, ha'⟩
      · exact hb
      · exact hg.symm b hb a ha'

end Faithful

/-! ## A run -/

/-- **A greedy choice**: the vertex at the top of the heap comes first among those
left, the heap has the keys that a recomputation gives, which are the ranks in the
elimination graph, and no other vertex has a rank as small. -/
structure Greedy (g : Graph) (past : List Var) (v : Var) (rest : List Var) (e : Elimination) :
    Prop where
  top : ∃ heap, e.heap.pop? = some (v, heap)
  left : e.left.Perm (v :: rest)
  keys : ∀ w ∈ e.left, e.heap.keys[w] = key e.adjacency w
    ∧ e.heap.keys[w].numbers = rank (g.eliminationGraph past) w
  smallest : ∀ w ∈ rest, rank (g.eliminationGraph past) v < rank (g.eliminationGraph past) w

/-- **Every step of a run is greedy**, by induction on the steps. -/
theorem Faithful.run (fuel : Nat) (h : Faithful g past e) (hfuel : e.left.length ≤ fuel) :
    ∃ e' order, run none fuel e = some e' ∧ e'.order.reverse = past ++ order ∧ order.Perm e.left
      ∧ ∀ before v rest, order = before ++ v :: rest → ∃ e₁, MinFill.run none before.length e = some e₁
        ∧ Greedy g (past ++ before) v rest e₁ := by
  induction fuel generalizing e past with
  | zero =>
    have hempty := List.eq_nil_of_length_eq_zero (Nat.le_zero.mp hfuel)
    refine ⟨e, [], rfl, by rw [h.order, List.reverse_reverse, List.append_nil], hempty ▸ .refl _,
      fun before v rest hsplit => ?_⟩
    cases before <;> cases hsplit
  | succ fuel ih =>
    cases hpop : e.heap.pop? with
    | none =>
      have hempty : e.left = [] := VarHeap.pop?_eq_none hpop
      refine ⟨e, [], by simp only [MinFill.run, hpop], by rw [h.order, List.reverse_reverse,
        List.append_nil], hempty ▸ .refl _, fun before v rest hsplit => ?_⟩
      cases before <;> cases hsplit
    | some popped =>
      obtain ⟨v, heap⟩ := popped
      have hrun : ∀ n, MinFill.run none (n + 1) e = MinFill.run none n (MinFill.step e v heap) :=
        fun n => by
          simp only [MinFill.run, hpop]
          rfl
      obtain ⟨hv, -, hleft, hperm⟩ := h.live.step hpop
      have hlength := hperm.length_eq
      rw [List.length_cons] at hlength
      obtain ⟨e', order, hr, horder, hrest, hgreedy⟩ := ih (h.step hpop) (by omega)
      rw [List.append_assoc] at horder
      refine ⟨e', v :: order, (hrun fuel).trans hr, horder, (hrest.cons v).trans hperm.symm,
        fun before u rest hsplit => ?_⟩
      cases before with
      | nil =>
        obtain ⟨rfl, rfl⟩ := List.cons.inj hsplit
        refine ⟨e, rfl, ⟨heap, hpop⟩, hperm.trans (hrest.symm.cons v), fun w hw => ?_, fun w hw => ?_⟩
        all_goals rw [List.append_nil]
        · exact ⟨h.keys w hw, h.numbers_keys hw⟩
        · obtain ⟨hin, hne⟩ := (hleft w).mp (hrest.mem_iff.mp hw)
          exact h.rank_lt hpop hin hne
      | cons u' before =>
        obtain ⟨rfl, hafter⟩ := List.cons.inj hsplit
        obtain ⟨e₁, hr₁, hg₁⟩ := hgreedy before u rest hafter
        rw [List.append_assoc] at hg₁
        exact ⟨e₁, (hrun before.length).trans hr₁, hg₁⟩

end MinFill

open MinFill

/-- **Min-fill elimination is exactly greedy.** Wherever its order is cut, the run
that far leaves the vertices that follow, the keys in its heap are those that
recomputing gives in the graph that eliminating the earlier ones leaves, and the
next vertex is the one of the smallest rank there. -/
theorem Graph.Built.minFill_greedy {g : Graph} (h : g.Built) :
    ∃ d, minFill g none = some d ∧ d.order.Perm g.vertices
      ∧ ∀ past v rest, d.order = past ++ v :: rest →
        ∃ e, run none past.length (start g) = some e ∧ Greedy g past v rest e := by
  obtain ⟨hlive, hleft, -⟩ := Elimination.live_start h.simple
  have hall : (start g).left.Perm g.vertices :=
    (List.perm_ext_iff_of_nodup hlive.indexed.nodup h.simple.nodup).mpr hleft
  obtain ⟨e, order, hr, horder, hperm, hgreedy⟩ :=
    (Faithful.start h.simple).run g.vertices.length hall.length_eq.le
  have hd : minFill g none = some (e.decomposition g.varCount) := by
    unfold minFill
    rw [hr]
    rfl
  have hd' : (e.decomposition g.varCount).order = order := horder
  exact ⟨_, hd, hd' ▸ hperm.trans hall, fun past v rest hsplit =>
    hgreedy past v rest (hd'.symm.trans hsplit)⟩

/-- A path that starts in the middle of its numbers: 1, 0, 2, 3. -/
def pathEdges : List (Var × Var) := [(⟨1⟩, ⟨0⟩), (⟨0⟩, ⟨2⟩), (⟨2⟩, ⟨3⟩)]

/-- The ends of a path go before the middle, which has the smaller number. -/
theorem Graph.Built.minFill_greedy_path : ∃ g d e,
    Graph.ofEdges [⟨0⟩, ⟨1⟩, ⟨2⟩, ⟨3⟩] pathEdges = .ok g ∧ minFill g none = some d
      ∧ d.order = [⟨1⟩, ⟨0⟩, ⟨2⟩, ⟨3⟩] ∧ run none 1 (start g) = some e
      ∧ Greedy g [⟨1⟩] ⟨0⟩ [⟨2⟩, ⟨3⟩] e := by
  have hedges : ∀ e ∈ pathEdges, e.1 ∈ [⟨0⟩, ⟨1⟩, ⟨2⟩, ⟨3⟩] ∧ e.2 ∈ [⟨0⟩, ⟨1⟩, ⟨2⟩, ⟨3⟩] := by decide
  obtain ⟨g, hg, -⟩ := Graph.ofEdges_spec hedges
  obtain ⟨d, hd, -, hgreedy⟩ := (Graph.Built.ofEdges hedges hg).minFill_greedy
  have horder : (Graph.ofEdges [⟨0⟩, ⟨1⟩, ⟨2⟩, ⟨3⟩] pathEdges).toOption.bind
      (fun g => (minFill g none).map (·.order)) = some [⟨1⟩, ⟨0⟩, ⟨2⟩, ⟨3⟩] := by cbv
  rw [hg] at horder
  have horder : (minFill g none).map (·.order) = some [⟨1⟩, ⟨0⟩, ⟨2⟩, ⟨3⟩] := horder
  rw [hd] at horder
  have horder : d.order = [⟨1⟩, ⟨0⟩, ⟨2⟩, ⟨3⟩] := Option.some.inj horder
  obtain ⟨e, he, hchoice⟩ := hgreedy [⟨1⟩] ⟨0⟩ [⟨2⟩, ⟨3⟩] horder
  exact ⟨g, d, e, hg, hd, horder, he, hchoice⟩

end Cleave
