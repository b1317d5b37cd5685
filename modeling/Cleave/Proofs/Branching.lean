import Cleave.Proofs.Learning
import Cleave.Solver.Branching

/-!
# Decisions are open variables of the component

Whatever the heuristic, the next decision is about an open variable of the
component, and there is none only if every variable is assigned. How the
scores come about does not matter for this; for the min-fill heuristic it
rests on the heap, which never holds anything but vertices of the graph
(`VarHeap.Within`).
-/

namespace Cleave

/-! ## The heap holds what was inserted -/

namespace VarHeap

variable {κ : Type} {h : VarHeap κ} {vs : List Var}

/-- All members are among the listed variables. -/
def Within (h : VarHeap κ) (vs : List Var) : Prop := ∀ v ∈ h.heap.toList, v ∈ vs

theorem memberAt_mem {pos : Nat} (hpos : pos < h.heap.size) : h.memberAt pos ∈ h.heap.toList := by
  simp [memberAt, Array.getD, hpos]

theorem Within.swap (hw : h.Within vs) (a b : Nat) : (h.swap a b).Within vs := by
  intro v hv
  have hperm := swapIfInBounds_perm h.heap.toList a b
  exact hw v (hperm.mem_iff.mp hv)

variable [Ord κ] [Inhabited κ]

theorem Within.siftUp (hw : h.Within vs) (pos : Nat) : (h.siftUp pos).Within vs := by
  fun_induction VarHeap.siftUp h pos with
  | case1 => exact hw
  | case2 => exact hw
  | case3 h pos hpos parent hle ih => exact ih (hw.swap _ _)

theorem Within.siftDown (hw : h.Within vs) (pos : Nat) : (h.siftDown pos).Within vs := by
  fun_induction VarHeap.siftDown h pos with
  | case1 => exact hw
  | case2 h pos hne ih => exact ih (hw.swap _ _)

/-- Re-keying a member keeps the members. -/
theorem Within.rekey (hw : h.Within vs) {v : Var} (hv : h.contains v = true) (key : κ) :
    (h.insert v key).Within vs := by
  unfold contains at hv
  unfold insert
  simp only
  split
  · split
    · refine Within.siftUp ?_ _
      exact hw
    · refine Within.siftDown ?_ _
      exact hw
  · rename_i hnone
    have hnone : h.positions[v] = none := hnone
    rw [hnone] at hv
    exact absurd hv (by simp)

theorem Within.insert (hw : h.Within vs) {v : Var} (hv : v ∈ vs) (key : κ) :
    (h.insert v key).Within vs := by
  by_cases hc : h.contains v = true
  · exact hw.rekey hc key
  · unfold VarHeap.insert
    simp only
    split
    · rename_i pos hsome
      have hsome : h.positions[v] = some pos := hsome
      exact absurd (by unfold contains; rw [hsome]; rfl) hc
    · refine Within.siftUp ?_ _
      intro w hw'
      have hw' : w ∈ h.heap.toList ∨ w = v := by simpa using hw'
      rcases hw' with hw' | rfl
      · exact hw w hw'
      · exact hv

theorem Within.remove (hw : h.Within vs) (v : Var) : (h.remove v).Within vs := by
  unfold VarHeap.remove
  split
  · exact hw
  · rename_i pos hpos
    have hsub : ∀ w ∈ (h.heap.setIfInBounds pos (h.memberAt (h.heap.size - 1))).pop.toList,
        w ∈ vs := by
      intro w hw'
      have hw' : w ∈ (h.heap.setIfInBounds pos (h.memberAt (h.heap.size - 1))).toList := by
        rw [Array.toList_pop] at hw'
        exact (List.dropLast_sublist _).subset hw'
      rw [Array.toList_setIfInBounds] at hw'
      by_cases hempty : h.heap.size = 0
      · have hnil : h.heap.toList = [] := by simpa using hempty
        rw [hnil] at hw'
        exact absurd hw' (by simp)
      · rcases List.mem_or_eq_of_mem_set hw' with hold | rfl
        · exact hw w hold
        · exact hw _ (memberAt_mem (by omega))
    simp only
    split
    · refine Within.siftUp (Within.siftDown ?_ _) _
      exact hsub
    · exact hsub

theorem Within.pop (hw : h.Within vs) {v : Var} {h' : VarHeap κ} (hp : h.pop? = some (v, h')) :
    v ∈ vs ∧ h'.Within vs := by
  unfold pop? at hp
  split at hp
  · exact absurd hp (by simp)
  · rename_i hne
    obtain ⟨rfl, rfl⟩ := Prod.mk.inj (Option.some.inj hp)
    exact ⟨hw _ (memberAt_mem (Nat.pos_of_ne_zero hne)), hw.remove _⟩

end VarHeap

/-! ## Min-fill eliminates vertices -/

namespace MinFill

/-- The heap and the order hold vertices only. -/
structure Elimination.Within (e : Elimination) (vs : List Var) : Prop where
  heap : e.heap.Within vs
  order : ∀ v ∈ e.order, v ∈ vs

theorem start_within (g : Graph) : (start g).Within g.vertices := by
  refine ⟨?_, by simp [start]⟩
  refine List.foldlRecOn g.vertices _ (motive := fun h : VarHeap EliminationKey =>
    h.Within g.vertices) ?_ fun h hw v hv => VarHeap.Within.insert hw hv _
  exact fun v hv => absurd hv (by simp [VarHeap.resize, VarHeap.empty])

theorem step_within {e : Elimination} {vs : List Var} (he : e.Within vs) {v : Var} (hv : v ∈ vs)
    {heap : VarHeap EliminationKey} (hw : heap.Within vs) : (step e v heap).Within vs := by
  refine ⟨?_, fun w hw' => ?_⟩
  · refine List.foldlRecOn _ _ (motive := fun h : VarHeap EliminationKey => h.Within vs) hw
      fun h hw w _ => ?_
    split
    · exact VarHeap.Within.rekey hw (by assumption) _
    · exact hw
  · rcases List.mem_cons.mp hw' with rfl | hw'
    · exact hv
    · exact he.order w hw'

/-- **A run eliminates vertices only**, by induction on its length. -/
theorem run_within {bound : Option Nat} (fuel : Nat) {e e' : Elimination} {vs : List Var}
    (he : e.Within vs) (h : run bound fuel e = some e') : e'.Within vs := by
  induction fuel generalizing e with
  | zero => exact Option.some.inj h ▸ he
  | succ fuel ih =>
    unfold run at h
    split at h
    · exact Option.some.inj h ▸ he
    · rename_i v heap hpop
      obtain ⟨hv, hw⟩ := he.heap.pop hpop
      split at h
      · exact absurd h (by simp)
      · exact ih (step_within he hv hw) h

end MinFill

theorem minFill_order {g : Graph} {bound : Option Nat} {d : TreeDecomposition}
    (h : minFill g bound = some d) : ∀ v ∈ d.order, v ∈ g.vertices := by
  obtain ⟨e, he, rfl⟩ := Option.map_eq_some_iff.mp h
  intro v hv
  exact (MinFill.run_within _ (MinFill.start_within g) he).order v (List.mem_reverse.mp hv)

/-! ## The next decision -/

namespace Component

variable {vars : List Var} {clauses : List ClauseId}

theorem mem_vars_ofLists {v : Var} : v ∈ (ofLists vars clauses).vars ↔ v ∈ vars := by
  unfold ofLists
  rw [mem_squeeze, List.mem_mergeSort]

theorem mem_clauses_ofLists {id : ClauseId} :
    id ∈ (ofLists vars clauses).clauses ↔ id ∈ clauses := by
  unfold ofLists
  rw [mem_squeeze, List.mem_mergeSort]

end Component

namespace Solver

variable {s : Solver}

/-- The best variable is one of them, and there is one unless there are none. -/
theorem bestVar_spec {κ : Type} {better : κ → κ → Bool} {score : Var → Except Fault κ}
    (vs : List Var) (best : Option (Var × κ)) {o : Option Var}
    (h : bestVar better score vs best = .ok o) :
    (∀ v, o = some v → v ∈ vs ∨ best.map (·.1) = some v) ∧ (o = none → vs = [] ∧ best = none) := by
  induction vs generalizing best with
  | nil =>
    obtain rfl := Except.ok.inj h
    exact ⟨fun v hv => Or.inr hv, fun hn => ⟨rfl, Option.map_eq_none_iff.mp hn⟩⟩
  | cons w rest ih =>
    unfold bestVar at h
    obtain ⟨value, -, h⟩ := Except.bind_eq_ok.mp h
    split at h
    · obtain ⟨h1, h2⟩ := ih _ h
      refine ⟨fun v hv => ?_, fun hn => absurd (h2 hn).2 (by simp)⟩
      rcases h1 v hv with hm | hw
      · exact Or.inl (List.mem_cons_of_mem _ hm)
      · have hw : w = v := by simpa using hw
        exact Or.inl (hw ▸ List.mem_cons_self)
    · rename_i hbest
      obtain ⟨h1, h2⟩ := ih _ h
      refine ⟨fun v hv => (h1 v hv).imp_left (List.mem_cons_of_mem _), fun hn => ?_⟩
      rw [(h2 hn).2] at hbest
      exact absurd rfl hbest

theorem firstByRank_spec (s : Solver) (vs : List Var) :
    (∀ v, s.firstByRank vs = some v → v ∈ vs) ∧ (s.firstByRank vs = none → vs = []) := by
  cases vs with
  | nil => exact ⟨fun v hv => absurd hv (by simp [firstByRank]), fun _ => rfl⟩
  | cons w rest =>
    refine ⟨fun v hv => ?_, fun hn => absurd hn (by simp [firstByRank])⟩
    obtain rfl := Option.some.inj hv
    refine List.foldlRecOn rest _ (motive := (· ∈ w :: rest)) List.mem_cons_self
      fun best hbest x hx => ?_
    split
    · exact List.mem_cons_of_mem _ hx
    · exact hbest

/-- The vertices of a primal graph are the open variables. -/
theorem vertices_primalGraph {c : Component} {traversal : Traversal} {g : Graph}
    (h : s.primalGraph c traversal = .ok g) : g.vertices = s.openVars c := by
  obtain ⟨⟨marks, g'⟩, hwith, rfl⟩ := Except.map_eq_ok.mp h
  obtain ⟨-, -, hwith⟩ := Except.bind_eq_ok.mp hwith
  obtain ⟨rows, -, hwith⟩ := Except.bind_eq_ok.mp hwith
  obtain ⟨-, rfl⟩ := Prod.mk.inj (Except.ok.inj hwith)
  rfl

theorem minFillVar_spec {c : Component} {o : Option Var} (h : s.minFillVar c = .ok o) :
    (∀ v, o = some v → v ∈ s.openVars c) ∧ (o = none → s.openVars c = []) := by
  unfold minFillVar at h
  simp only at h
  split at h
  · rename_i hempty
    obtain rfl := Except.ok.inj h
    refine ⟨by simp, fun _ => ?_⟩
    have hnil : (Component.ofLists (s.openVars c) c.clauses).vars = [] :=
      List.isEmpty_iff.mp hempty
    refine List.eq_nil_iff_forall_not_mem.mpr fun v hv => ?_
    have hv' : v ∈ (Component.ofLists (s.openVars c) c.clauses).vars := Component.mem_vars_ofLists.mpr hv
    rw [hnil] at hv'
    exact absurd hv' List.not_mem_nil
  · rename_i hempty
    obtain ⟨graph, hgraph, h⟩ := Except.bind_eq_ok.mp h
    have hvertices : ∀ v ∈ graph.vertices, v ∈ s.openVars c := by
      intro v hv
      rw [vertices_primalGraph hgraph] at hv
      exact Component.mem_vars_ofLists.mp (List.mem_filter.mp hv).1
    split at h
    · rename_i v hlast
      obtain rfl := Except.ok.inj h
      refine ⟨fun w hw => ?_, by simp⟩
      obtain rfl := Option.some.inj hw
      obtain ⟨d, hd, hget⟩ := Option.bind_eq_some_iff.mp hlast
      exact hvertices _ (minFill_order hd _ (List.mem_of_getLast? hget))
    · obtain rfl := Except.ok.inj h
      refine ⟨fun w hw => Component.mem_vars_ofLists.mp (List.mem_of_head? hw), fun hn => ?_⟩
      have hnil : (Component.ofLists (s.openVars c) c.clauses).vars = [] :=
        List.head?_eq_none_iff.mp hn
      exact absurd (List.isEmpty_iff.mpr hnil) hempty

theorem nextVar_spec {c : Component} {o : Option Var} (h : s.nextVar c = .ok o) :
    (∀ v, o = some v → v ∈ s.openVars c) ∧ (o = none → s.openVars c = []) := by
  have hbest : ∀ {κ : Type} {better : κ → κ → Bool} {score : Var → Except Fault κ},
      bestVar better score (s.openVars c) none = .ok o →
      (∀ v, o = some v → v ∈ s.openVars c) ∧ (o = none → s.openVars c = []) := by
    intro κ better score hb
    obtain ⟨h1, h2⟩ := bestVar_spec _ _ hb
    exact ⟨fun v hv => (h1 v hv).resolve_right (by simp), fun hn => (h2 hn).1⟩
  unfold nextVar at h
  split at h
  · obtain rfl := Except.ok.inj h
    exact firstByRank_spec s _
  · exact hbest h
  · exact hbest h
  · exact hbest h
  · exact minFillVar_spec h

/-- **The next decision** is about an open variable; without one, no variable
of the component is open. -/
theorem nextDecision_spec {c : Component} {o : Option Lit} (h : s.nextDecision c = .ok o) :
    (∀ l, o = some l → l.var ∈ c.vars ∧ s.trail.isAssigned l.var = false)
      ∧ (o = none → ∀ v ∈ c.vars, s.trail.isAssigned v = true) := by
  unfold nextDecision at h
  obtain ⟨v, hv, h⟩ := Except.bind_eq_ok.mp h
  obtain rfl := Except.ok.inj h
  obtain ⟨h1, h2⟩ := nextVar_spec hv
  refine ⟨fun l hl => ?_, fun hn w hw => ?_⟩
  · obtain ⟨w, rfl, rfl⟩ := Option.map_eq_some_iff.mp hl
    have hmem := List.mem_filter.mp (h1 w rfl)
    exact ⟨hmem.1, by simpa [Occurrences.phase, Var.lit] using hmem.2⟩
  · have hnil := h2 (Option.map_eq_none_iff.mp hn)
    by_contra ha
    have hmem : w ∈ s.openVars c := List.mem_filter.mpr ⟨hw, by simpa using ha⟩
    rw [hnil] at hmem
    exact absurd hmem List.not_mem_nil

end Solver

end Cleave
