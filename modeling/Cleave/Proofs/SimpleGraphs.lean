import Cleave.Proofs.Decomposition
import Cleave.Proofs.MinFill
import Cleave.Proofs.PrimalRows

/-!
# The graphs that are built are simple

A graph of an edge list has an edge where the list has one
(`Graph.ofEdges_spec`). In the primal graph of a component two
vertices are neighbours if they occur together (`Solver.Together`): while the
clauses of a vertex are gone through, marks keep the neighbours apart from what
was met before (`Solver.Gathered`). Both relations are symmetric, and neither
list has a repetition or the vertex itself. So min-fill decomposes whatever
graph is built (`Graph.Built.minFill_decomposes`).
-/

namespace Cleave

variable {v w : Var}

/-! ## Edge lists -/

namespace Graph

variable {vertices : List Var} {edges : List (Var × Var)} {t t' : VarTable (List Var)}

theorem mem_sorted {vs : List Var} : v ∈ sorted vs ↔ v ∈ vs :=
  (Component.mem_vars_ofLists : v ∈ (Component.ofLists vs []).vars ↔ v ∈ vs)

theorem nodup_sorted (vs : List Var) : (sorted vs).Nodup :=
  (Component.nodup_vars_ofLists : (Component.ofLists vs []).vars.Nodup)

/-- **Joining two variables** makes them neighbours of each other, unless they
are the same. -/
theorem join_spec {e : Var × Var} (ha : e.1.index < t.size) (hb : e.2.index < t.size) :
    ∃ t', join t e = .ok t' ∧ t'.size = t.size
      ∧ ∀ v w, w ∈ t'[v] ↔ w ∈ t[v] ∨ (v ≠ w ∧ (e = (v, w) ∨ e = (w, v))) := by
  obtain ⟨a, b⟩ := e
  unfold join
  by_cases hab : a = b
  · subst hab
    refine ⟨t, if_pos rfl, rfl, fun v w => (or_iff_left fun hc => hc.1 ?_).symm⟩
    rcases hc.2 with heq | heq <;> obtain ⟨rfl, rfl⟩ := Prod.mk.inj heq <;> rfl
  · simp only [if_neg hab, if_neg (Nat.not_le.mpr ha), if_neg (Nat.not_le.mpr hb)]
    refine ⟨_, rfl, by rw [VarTable.size_modify, VarTable.size_modify], fun v w => ?_⟩
    rw [VarTable.get_modify, VarTable.get_modify, VarTable.size_modify]
    simp only [ha, hb, and_true, Prod.mk.injEq]
    by_cases hbv : b = v
    · subst hbv
      grind
    · grind

/-- **Joining the ends of all edges**, by induction on the edges. -/
theorem foldlM_join_spec (hedges : ∀ e ∈ edges, e.1.index < t.size ∧ e.2.index < t.size) :
    ∃ t', edges.foldlM join t = .ok t' ∧ t'.size = t.size
      ∧ ∀ v w, w ∈ t'[v] ↔ w ∈ t[v] ∨ (v ≠ w ∧ ((v, w) ∈ edges ∨ (w, v) ∈ edges)) := by
  induction edges generalizing t with
  | nil => exact ⟨t, rfl, rfl, fun v w => by simp⟩
  | cons e edges ih =>
    obtain ⟨ha, hb⟩ := hedges e List.mem_cons_self
    obtain ⟨t₁, hjoin, hsize, hmem⟩ := join_spec ha hb
    obtain ⟨t₂, hrest, hsize', hmem'⟩ := ih (t := t₁) fun e he =>
      hsize.symm ▸ hedges e (List.mem_cons_of_mem _ he)
    refine ⟨t₂, ?_, hsize'.trans hsize, fun v w => ?_⟩
    · rw [List.foldlM_cons, hjoin]
      exact hrest
    · rw [hmem', hmem, List.mem_cons, List.mem_cons, eq_comm (a := (v, w)), eq_comm (a := (w, v))]
      tauto

/-- **A graph from edges between its vertices** is built, and has just these
edges but for loops. -/
theorem ofEdges_spec (hedges : ∀ e ∈ edges, e.1 ∈ vertices ∧ e.2 ∈ vertices) :
    ∃ g, ofEdges vertices edges = .ok g ∧ g.vertices = sorted vertices
      ∧ (∀ v ∈ g.vertices, v.index < g.varCount ∧ (g.neighbours v).Nodup)
      ∧ ∀ v ∈ g.vertices, ∀ w, w ∈ g.neighbours v ↔ v ≠ w ∧ ((v, w) ∈ edges ∨ (w, v) ∈ edges) := by
  let count := (sorted vertices).foldl (fun bound v => max bound (v.index + 1)) 0
  have hcount : ∀ v ∈ vertices, v.index < count := fun v hv =>
    Var.index_lt_foldl_max (mem_sorted.mpr hv) 0
  have hsized : (VarTable.sized count : VarTable (List Var)).size = count := VarTable.size_sized count
  obtain ⟨t, hfold, hsize, hmem⟩ := foldlM_join_spec (t := VarTable.sized count) fun e he =>
    hsized.symm ▸ ⟨hcount _ (hedges e he).1, hcount _ (hedges e he).2⟩
  rw [hsized] at hsize
  have hget : ∀ v ∈ vertices,
      ((sorted vertices).foldl (fun t v => t.modify v sorted) t)[v] = sorted t[v] := fun v hv => by
    rw [VarTable.get_foldl_modify (fun _ => sorted) (nodup_sorted vertices),
      if_pos ⟨mem_sorted.mpr hv, hsize.symm ▸ hcount v hv⟩]
  refine ⟨⟨sorted vertices, (sorted vertices).foldl (fun t v => t.modify v sorted) t⟩, ?_, rfl,
    fun v hv => ⟨?_, ?_⟩, fun v hv w => ?_⟩
  · exact Except.bind_eq_ok.mpr ⟨t, hfold, rfl⟩
  · show v.index < ((sorted vertices).foldl (fun t v => t.modify v sorted) t).size
    rw [VarTable.size_foldl_modify (fun _ => sorted), hsize]
    exact hcount v (mem_sorted.mp hv)
  · show (((sorted vertices).foldl (fun t v => t.modify v sorted) t)[v]).Nodup
    rw [hget v (mem_sorted.mp hv)]
    exact nodup_sorted _
  · show w ∈ ((sorted vertices).foldl (fun t v => t.modify v sorted) t)[v] ↔ _
    rw [hget v (mem_sorted.mp hv), mem_sorted, hmem, VarTable.get_sized]
    exact or_iff_right List.not_mem_nil

theorem simple_ofEdges (hedges : ∀ e ∈ edges, e.1 ∈ vertices ∧ e.2 ∈ vertices) {g : Graph}
    (hr : ofEdges vertices edges = .ok g) : g.Simple := by
  obtain ⟨g', hr', hvertices, hrows, hmem⟩ := ofEdges_spec hedges
  obtain rfl := Except.ok.inj (hr.symm.trans hr')
  have hin : ∀ v, v ∈ g.vertices ↔ v ∈ vertices := fun v => hvertices ▸ mem_sorted
  have hclosed : ∀ v ∈ g.vertices, ∀ w ∈ g.neighbours v, w ∈ g.vertices := fun v hv w hw => by
    rw [hin]
    rcases ((hmem v hv w).mp hw).2 with he | he
    · exact (hedges _ he).2
    · exact (hedges _ he).1
  exact {
    nodup := hvertices ▸ nodup_sorted vertices
    index_lt := fun v hv => (hrows v hv).1
    nodup_neighbours := fun v hv => (hrows v hv).2
    mem_vertices := hclosed
    loopless := fun v hv hin => ((hmem v hv v).mp hin).1 rfl
    symm := fun v hv w hw => by
      obtain ⟨hne, he⟩ := (hmem v hv w).mp hw
      exact (hmem w (hclosed v hv w hw) v).mpr ⟨hne.symm, he.symm⟩ }

end Graph

/-! ## Primal graphs -/

namespace Solver

variable {F : List Clause} {s : Solver} {c : Component} {isVertex : VarTable Bool}
  {n : Neighbourhood} {met met' : Var → Prop} {count : Nat} {traversal : Traversal}

/-- **Two variables occur together**: in a given binary clause, or in a given
long clause of the component that is active. -/
inductive Together (s : Solver) (c : Component) (v w : Var) : Prop where
  | binary {l m : Lit} (hl : l.var = v) (hm : m.var = w) (hpair : m ∈ s.store.partners l)
  | long {id : ClauseId} (hgives : s.store.Gives id) (hactive : s.ActiveIn c id)
      (hv : s.Mentions id v) (hw : s.Mentions id w)

theorem Together.symm (hs : Sound F s) (h : s.Together c v w) : s.Together c w v := by
  cases h with
  | binary hl hm hpair => exact .binary hm hl (hs.store.symmetric _ _ hpair)
  | long hgives hactive hv hw => exact .long hgives hactive hw hv

/-- **A neighbourhood under way**: the vertices met so far other than `v`, each
once, and just these and `v` are marked. -/
structure Gathered (isVertex : VarTable Bool) (count : Nat) (v : Var) (met : Var → Prop)
    (n : Neighbourhood) : Prop where
  wf : n.marks.Wf
  size : n.marks.stamps.size = count
  marked : ∀ w, n.marks.isMarked w = true ↔ w = v ∨ w ∈ n.found
  mem_found : ∀ w, w ∈ n.found ↔ isVertex[w] = true ∧ w ≠ v ∧ met w
  nodup : n.found.Nodup

namespace Gathered

theorem congr (h : Gathered isVertex count v met n) (hmet : ∀ w, met w ↔ met' w) :
    Gathered isVertex count v met' n :=
  { h with mem_found := fun w => by rw [h.mem_found, hmet] }

/-- Meeting a variable that is no vertex, or was met before, changes nothing. -/
theorem again (h : Gathered isVertex count v met n)
    (hw : isVertex[w] = true → w = v ∨ w ∈ n.found) :
    Gathered isVertex count v (fun u => met u ∨ u = w) n :=
  { h with
    mem_found := fun u => by
      rw [h.mem_found]
      refine and_congr_right fun hu => and_congr_right fun hne =>
        ⟨Or.inl, fun hmet => hmet.elim id fun heq => ?_⟩
      subst heq
      exact ((h.mem_found u).mp ((hw hu).resolve_left hne)).2.2 }

/-- **Meeting a variable.** -/
theorem add (hvertex : ∀ u : Var, isVertex[u] = true → u.index < count)
    (h : Gathered isVertex count v met n) (w : Var) :
    Gathered isVertex count v (fun u => met u ∨ u = w) (n.add isVertex w) := by
  unfold Neighbourhood.add
  by_cases hw : isVertex[w] = true
  · rw [if_pos hw]
    by_cases hmarked : n.marks.isMarked w = true
    · have hmark : n.marks.mark w = (false, n.marks) := if_pos hmarked
      simp only [hmark]
      exact h.again fun _ => (h.marked w).mp hmarked
    · have hfirst : (n.marks.mark w).1 = true := by
        rw [Marks.mark_fst, Bool.eq_false_iff.mpr hmarked]
        rfl
      have hmark : n.marks.mark w = (true, (n.marks.mark w).2) := Prod.ext hfirst rfl
      have hnew := mt (h.marked w).mpr hmarked
      rw [hmark]
      refine ⟨h.wf.mark w, (Marks.size_mark _ _).trans h.size, fun u => ?_, fun u => ?_,
        List.nodup_cons.mpr ⟨fun hin => hnew (Or.inr hin), h.nodup⟩⟩
      · rw [Marks.isMarked_mark (h.size.symm ▸ hvertex w hw), Bool.or_eq_true, h.marked,
          decide_eq_true_iff, List.mem_cons]
        tauto
      · rw [List.mem_cons, h.mem_found]
        have hne : w ≠ v := fun heq => hnew (Or.inl heq)
        constructor
        · rintro (rfl | ⟨hu, huv, hmet⟩)
          · exact ⟨hw, hne, Or.inr rfl⟩
          · exact ⟨hu, huv, Or.inl hmet⟩
        · rintro ⟨hu, huv, hmet | rfl⟩
          · exact Or.inr ⟨hu, huv, hmet⟩
          · exact Or.inl rfl
  · rw [if_neg hw]
    exact h.again fun hc => absurd hc hw

variable (hvertex : ∀ u : Var, isVertex[u] = true → u.index < count)

include hvertex

/-- **Meeting the variables of some literals.** -/
theorem addLits (h : Gathered isVertex count v met n) (ls : List Lit) :
    Gathered isVertex count v (fun u => met u ∨ ∃ l ∈ ls, l.var = u)
      (ls.foldl (fun n l => n.add isVertex l.var) n) := by
  induction ls generalizing n met with
  | nil => exact h.congr fun w => by simp
  | cons l ls ih =>
    refine (ih (h.add hvertex l.var)).congr fun w => ?_
    simp only [List.mem_cons, exists_eq_or_imp, eq_comm (a := w), or_assoc]

/-- **Meeting the variables of some long clauses.** -/
theorem addClauses (h : Gathered isVertex count v met n) (s : Solver) (ids : List ClauseId) :
    Gathered isVertex count v (fun u => met u ∨ ∃ id ∈ ids, s.Mentions id u)
      (ids.foldl (fun n id => (s.store.lits id).foldl (fun n l => n.add isVertex l.var) n) n) := by
  induction ids generalizing n met with
  | nil => exact h.congr fun w => by simp
  | cons id ids ih =>
    refine (ih (h.addLits hvertex (s.store.lits id))).congr fun w => ?_
    simp only [List.mem_cons, exists_eq_or_imp, or_assoc]
    rfl

end Gathered

theorem vertexFlags_iff (hvars : ∀ v ∈ c.vars, v.index < s.varCount) :
    (s.vertexFlags c)[v] = true ↔ v ∈ s.openVars c :=
  VarTable.get_marking.trans
    (and_iff_left_of_imp fun hv => hvars v (mem_openVars.mp hv).1)

theorem activeFlags_iff {id : ClauseId} (hgives : s.store.Gives id) :
    s.activeFlags c id = true ↔ s.ActiveIn c id := by
  unfold activeFlags ActiveIn
  rw [Bool.and_eq_true, Bool.not_eq_true', getD_flags, and_iff_left hgives.1]

/-- **The neighbourhood of a vertex** has what occurs together with it. -/
theorem gathered_gatherNeighbours (hs : Sound F s) (c : Component)
    {marks : Marks} (hmarks : marks.Wf) (hsize : marks.stamps.size = s.varCount)
    (hv : v.index < s.varCount) (traversal : Traversal) :
    Gathered (s.vertexFlags c) s.varCount v (s.Together c v)
      (s.gatherNeighbours c traversal marks v) := by
  have hvertex : ∀ u : Var, (s.vertexFlags c)[u] = true → u.index < s.varCount := fun u hu =>
    (VarTable.get_marking.mp hu).2
  have hcleared : marks.clear.stamps.size = s.varCount := (Marks.size_clear marks).trans hsize
  have hstart : Gathered (s.vertexFlags c) s.varCount v (fun _ => False)
      ⟨(marks.clear.mark v).2, []⟩ := by
    refine ⟨hmarks.clear.mark v, (Marks.size_mark _ _).trans hcleared, fun w => ?_, fun w => ?_,
      List.nodup_nil⟩
    · rw [Marks.isMarked_mark (hcleared.symm ▸ hv), hmarks.isMarked_clear]
      simp
    · simp
  refine (((hstart.addLits hvertex (v.lits.flatMap s.store.partners)).addClauses hvertex s
    ((s.clausesOf v traversal).filter (s.activeFlags c)))).congr fun w => ⟨?_, ?_⟩
  · rintro ((hno | ⟨m, hm, rfl⟩) | ⟨id, hid, hw⟩)
    · exact hno.elim
    · obtain ⟨l, hl, hpair⟩ := List.mem_flatMap.mp hm
      exact .binary (Var.mem_lits.mp hl) rfl hpair
    · obtain ⟨hid, hactive⟩ := List.mem_filter.mp hid
      obtain ⟨hgives, hmentions⟩ := (hs.mem_clausesOf traversal).mp hid
      exact .long hgives ((activeFlags_iff hgives).mp hactive) hmentions hw
  · intro htogether
    cases htogether with
    | @binary l m hl hm hpair =>
      exact Or.inl (Or.inr ⟨m, List.mem_flatMap.mpr ⟨l, Var.mem_lits.mpr hl, hpair⟩, hm⟩)
    | @long id hgives hactive hv hw =>
      exact Or.inr ⟨id, List.mem_filter.mpr ⟨(hs.mem_clausesOf traversal).mpr ⟨hgives, hv⟩,
        (activeFlags_iff hgives).mpr hactive⟩, hw⟩

/-- **The neighbours of a vertex in the primal graph** are the other vertices
that occur together with it, each listed once. -/
def IsRow (s : Solver) (c : Component) (v : Var) (row : List Var) : Prop :=
  row.Nodup ∧ ∀ w, w ∈ row ↔ w ∈ s.openVars c ∧ w ≠ v ∧ s.Together c v w

/-- A row as a traversal finds it with marks in order. -/
def FoundRow (s : Solver) (c : Component) (traversal : Traversal) (v : Var) (row : List Var) :
    Prop :=
  ∃ marks : Marks, marks.Wf ∧ marks.stamps.size = s.varCount
    ∧ row = listed (s.gatherNeighbours c traversal marks v).found.reverse traversal

theorem listed_perm (found : List Var) (traversal : Traversal) :
    (listed found traversal).Perm found := by
  cases traversal with
  | uniform => exact List.mergeSort_perm _ _
  | arityClassed => exact .refl _

/-- **What is found is right**, whatever was marked before. -/
theorem FoundRow.isRow (hs : Sound F s) (hvars : ∀ v ∈ c.vars, v.index < s.varCount) {v : Var}
    (hv : v.index < s.varCount) {row : List Var} (h : s.FoundRow c traversal v row) :
    s.IsRow c v row := by
  obtain ⟨marks, hmarks, hstamps, rfl⟩ := h
  have hgathered := gathered_gatherNeighbours hs c hmarks hstamps hv traversal
  have hperm := (listed_perm (s.gatherNeighbours c traversal marks v).found.reverse traversal).trans
    (List.reverse_perm _)
  refine ⟨hperm.nodup_iff.mpr hgathered.nodup, fun w => ?_⟩
  rw [hperm.mem_iff, hgathered.mem_found, vertexFlags_iff hvars]

/-- **Row by row**, by induction on the vertices left. The marks are handed on in
order, and no other rows are touched. -/
theorem foldl_addRow_spec (hs : Sound F s) (c : Component) (traversal : Traversal) {vs : List Var}
    (hvs : ∀ v ∈ vs, v.index < s.varCount) (rows : Marks × VarTable (List Var))
    (hmarks : rows.1.Wf) (hstamps : rows.1.stamps.size = s.varCount)
    (hsize : rows.2.size = s.varCount) :
    ((vs.foldl (s.addRow c traversal) rows).1.Wf
      ∧ (vs.foldl (s.addRow c traversal) rows).1.stamps.size = s.varCount
      ∧ (vs.foldl (s.addRow c traversal) rows).2.size = s.varCount)
    ∧ ∀ v, (v ∉ vs → (vs.foldl (s.addRow c traversal) rows).2[v] = rows.2[v])
      ∧ (v ∈ vs → s.FoundRow c traversal v (vs.foldl (s.addRow c traversal) rows).2[v]) := by
  induction vs generalizing rows with
  | nil => exact ⟨⟨hmarks, hstamps, hsize⟩, fun v => ⟨fun _ => rfl, fun hv => nomatch hv⟩⟩
  | cons u vs ih =>
    have hu := hvs u List.mem_cons_self
    have hgathered := gathered_gatherNeighbours hs c hmarks hstamps hu traversal
    obtain ⟨hkept, hrows⟩ := ih (fun v hv => hvs v (List.mem_cons_of_mem _ hv))
      (s.addRow c traversal rows u) hgathered.wf hgathered.size
      ((VarTable.size_set _ _ _).trans hsize)
    refine ⟨hkept, fun v => ⟨fun hv => ?_, fun hv => ?_⟩⟩
    · obtain ⟨hne, hv⟩ := not_or.mp (mt List.mem_cons.mpr hv)
      exact ((hrows v).1 hv).trans (VarTable.get_set_ne _ (Ne.symm hne) _)
    · by_cases hlater : v ∈ vs
      · exact (hrows v).2 hlater
      · obtain rfl := (List.mem_cons.mp hv).resolve_right hlater
        exact ⟨rows.1, hmarks, hstamps, ((hrows v).1 hlater).trans
          (VarTable.get_set_self (hsize.symm ▸ hu) _)⟩

/-- **What a primal graph is**, whatever marks it is found with: its vertices are
the open variables, each has a row, and nothing else does. -/
theorem primalGraphWith_spec (hs : Sound F s) {marks : Marks} (hmarks : marks.Wf)
    (hstamps : marks.stamps.size = s.varCount) {g : Graph} {marks' : Marks}
    (hr : s.primalGraphWith marks c traversal = .ok (marks', g)) :
    (marks'.Wf ∧ marks'.stamps.size = s.varCount)
    ∧ (g.vertices = s.openVars c ∧ g.varCount = s.varCount)
    ∧ ∀ v, (v ∉ g.vertices → g.neighbours v = [])
      ∧ (v ∈ g.vertices → v.index < s.varCount ∧ s.FoundRow c traversal v (g.neighbours v)
        ∧ s.IsRow c v (g.neighbours v)) := by
  rw [hs.primalGraphWith_eq] at hr
  obtain ⟨u, hreq, heq⟩ := Except.map_eq_ok.mp hr
  obtain ⟨rfl, rfl⟩ := Prod.mk.inj heq
  have hvars := requireVars_iff.mp hreq
  have hopen : ∀ v ∈ s.openVars c, v.index < s.varCount := fun v hv =>
    hvars v (mem_openVars.mp hv).1
  obtain ⟨⟨hwf, hsize, hrooms⟩, hrows⟩ := foldl_addRow_spec hs c traversal hopen
    (marks, VarTable.sized s.varCount) hmarks hstamps (VarTable.size_sized _)
  refine ⟨⟨hwf, hsize⟩, ⟨rfl, hrooms⟩, fun v => ⟨fun hv => ?_, fun hv => ?_⟩⟩
  · exact ((hrows v).1 hv).trans (VarTable.get_sized _ _)
  · have hfound := (hrows v).2 hv
    exact ⟨hopen v hv, hfound, hfound.isRow hs hvars (hopen v hv)⟩

theorem primalGraph_spec (hs : Sound F s) {g : Graph}
    (hr : s.primalGraph c traversal = .ok g) :
    g.vertices = s.openVars c ∧ g.varCount = s.varCount
      ∧ (∀ v ∈ g.vertices, v.index < g.varCount)
      ∧ ∀ v ∈ g.vertices, s.IsRow c v (g.neighbours v) := by
  obtain ⟨⟨marks, g'⟩, hwith, rfl⟩ := Except.map_eq_ok.mp hr
  obtain ⟨-, ⟨hvertices, hcount⟩, hrows⟩ := primalGraphWith_spec hs (Marks.wf_empty_resize _)
    (VarTable.size_resize _ (Nat.zero_le _)) hwith
  exact ⟨hvertices, hcount, fun v hv => ((hrows v).2 hv).1.trans_eq hcount.symm,
    fun v hv => ((hrows v).2 hv).2.2⟩

theorem simple_primalGraph (hs : Sound F s) (hnodup : c.vars.Nodup) {g : Graph}
    (hr : s.primalGraph c traversal = .ok g) : g.Simple := by
  obtain ⟨hvertices, -, hlt, hrows⟩ := primalGraph_spec hs hr
  have hmem : ∀ v ∈ g.vertices, ∀ w, w ∈ g.neighbours v
      ↔ w ∈ g.vertices ∧ w ≠ v ∧ s.Together c v w := fun v hv w =>
    hvertices.symm ▸ (hrows v hv).2 w
  exact {
    nodup := hvertices ▸ hnodup.filter _
    index_lt := hlt
    nodup_neighbours := fun v hv => (hrows v hv).1
    mem_vertices := fun v hv w hw => ((hmem v hv w).mp hw).1
    loopless := fun v hv hin => ((hmem v hv v).mp hin).2.1 rfl
    symm := fun v hv w hw => by
      obtain ⟨hin, hne, htogether⟩ := (hmem v hv w).mp hw
      exact (hmem w hin v).mpr ⟨hv, hne.symm, htogether.symm hs⟩ }

end Solver

/-! ## Decomposing them -/

/-- **The graphs that are built**: from edges between listed vertices, or over a
component in a state that calls lead to. -/
inductive Graph.Built : Graph → Prop where
  | ofEdges {vertices : List Var} {edges : List (Var × Var)} {g : Graph}
      (hedges : ∀ e ∈ edges, e.1 ∈ vertices ∧ e.2 ∈ vertices)
      (hr : Graph.ofEdges vertices edges = .ok g) : Built g
  | primal {s : Solver} {vars : List Var} {clauses : List ClauseId} {traversal : Traversal}
      {g : Graph} (h : Solver.Attained s)
      (hr : s.primalGraph (.ofLists vars clauses) traversal = .ok g) : Built g

theorem Graph.Built.simple {g : Graph} (h : g.Built) : g.Simple := by
  cases h with
  | ofEdges hedges hr => exact Graph.simple_ofEdges hedges hr
  | primal h hr => exact Solver.simple_primalGraph h.sound Component.nodup_vars_ofLists hr

/-- **Min-fill gives valid tree decompositions.** Whatever it returns eliminates
all vertices, passes the checks and has the width of its largest bag, which the
bound allows. Without a bound it always returns one, and with a bound the same
one if its width allows it. -/
theorem Graph.Built.minFill_decomposes {g : Graph} (h : g.Built) :
    (∀ bound d, minFill g bound = some d →
      d.order.Perm g.vertices ∧ d.verify g = .ok () ∧ d.width = d.largestBag - 1
        ∧ ∀ w, bound = some w → d.width ≤ w)
    ∧ ∃ d, minFill g none = some d
      ∧ ∀ w, minFill g (some w) = if d.width ≤ w then some d else none := by
  obtain ⟨d, hd, horder, hverify, hwidth, hbound⟩ := h.simple.minFill_eq_some
  refine ⟨fun bound d' hd' => ?_, d, hd, hbound⟩
  cases bound with
  | none =>
    obtain rfl := Option.some.inj (hd'.symm.trans hd)
    exact ⟨horder, hverify, hwidth, fun w hw => nomatch hw⟩
  | some w =>
    rw [hbound w] at hd'
    split at hd'
    · rename_i hle
      obtain rfl := Option.some.inj hd'
      exact ⟨horder, hverify, hwidth, fun w' hw => Option.some.inj hw ▸ hle⟩
    · cases hd'

/-- A cycle of four vertices. -/
def cycleEdges : List (Var × Var) := [(⟨0⟩, ⟨1⟩), (⟨1⟩, ⟨2⟩), (⟨2⟩, ⟨3⟩), (⟨3⟩, ⟨0⟩)]

/-- The cycle has width 2. -/
theorem Graph.Built.minFill_decomposes_cycle : ∃ g d,
    Graph.ofEdges [⟨0⟩, ⟨1⟩, ⟨2⟩, ⟨3⟩] cycleEdges = .ok g ∧ minFill g none = some d
      ∧ d.order.Perm g.vertices ∧ d.verify g = .ok () ∧ d.width = 2
      ∧ minFill g (some 2) = some d ∧ minFill g (some 1) = none := by
  have hedges : ∀ e ∈ cycleEdges, e.1 ∈ [⟨0⟩, ⟨1⟩, ⟨2⟩, ⟨3⟩] ∧ e.2 ∈ [⟨0⟩, ⟨1⟩, ⟨2⟩, ⟨3⟩] := by decide
  obtain ⟨g, hg, -⟩ := Graph.ofEdges_spec hedges
  obtain ⟨hall, d, hd, hbound⟩ := (Graph.Built.ofEdges hedges hg).minFill_decomposes
  have hwidth : (Graph.ofEdges [⟨0⟩, ⟨1⟩, ⟨2⟩, ⟨3⟩] cycleEdges).toOption.bind
      (fun g => (minFill g none).map (·.width)) = some 2 := by cbv
  rw [hg] at hwidth
  have hwidth : (minFill g none).map (·.width) = some 2 := hwidth
  rw [hd] at hwidth
  have hwidth : d.width = 2 := Option.some.inj hwidth
  obtain ⟨horder, hverify, -⟩ := hall none d hd
  refine ⟨g, d, hg, hd, horder, hverify, hwidth, ?_, ?_⟩
  · rw [hbound, hwidth]
    rfl
  · rw [hbound, hwidth]
    rfl

end Cleave
