import Cleave.Proofs.Flood

/-!
# The rows of a primal graph

The index of a sound state misfiles no clause (`Solver.Sound.filedLits_eq`). So
both traversals always come through, each a plain fold over the clauses of a
vertex (`Solver.Sound.neighboursOf_eq`), and the graph is found row by row, with
marks that are handed on from one row to the next
(`Solver.Sound.primalGraphWith_eq`).
-/

namespace Cleave

/-- A loop with no fault is a fold. -/
theorem Except.foldlM_eq_ok {ε α β : Type} {f : β → α → Except ε β} {g : β → α → β} {as : List α}
    (h : ∀ b, ∀ a ∈ as, f b a = .ok (g b a)) (b : β) : as.foldlM f b = .ok (as.foldl g b) := by
  induction as generalizing b with
  | nil => rfl
  | cons a as ih =>
    rw [List.foldlM_cons, h b a List.mem_cons_self, List.foldl_cons]
    exact ih (fun b a ha => h b a (List.mem_cons_of_mem _ ha)) (g b a)

namespace Solver

variable {F : List Clause} {s : Solver} {c : Component} {v : Var} {traversal : Traversal}

/-- Which vertices the primal graph has. -/
def vertexFlags (s : Solver) (c : Component) : VarTable Bool :=
  VarTable.marking s.varCount (s.openVars c)

/-- Which clauses it is made of. -/
def activeFlags (s : Solver) (c : Component) (id : ClauseId) : Bool :=
  (c.clauses.foldl (fun t id => t.setIfInBounds id true)
    (Array.replicate s.store.long.size false)).getD id false && !s.isSatisfied id

/-- The neighbours of a vertex that a traversal without a fault finds. -/
def gatherNeighbours (s : Solver) (c : Component) (traversal : Traversal) (marks : Marks)
    (v : Var) : Neighbourhood :=
  ((s.clausesOf v traversal).filter (s.activeFlags c)).foldl
    (fun n id => (s.store.lits id).foldl (fun n l => n.add (s.vertexFlags c) l.var) n)
    ((v.lits.flatMap s.store.partners).foldl (fun n l => n.add (s.vertexFlags c) l.var)
      ⟨(marks.clear.mark v).2, []⟩)

/-- **A traversal has no fault.** -/
theorem Sound.neighboursOf_eq (hs : Sound F s) (c : Component) (traversal : Traversal)
    (marks : Marks) (v : Var) : s.neighboursOf (s.vertexFlags c) (s.activeFlags c) traversal marks v
      = .ok (s.gatherNeighbours c traversal marks v) := by
  unfold neighboursOf gatherNeighbours
  rw [← map_filedOf, List.filter_map, List.foldl_map]
  refine Except.foldlM_eq_ok (fun n filed hfiled => ?_) _
  unfold addClauseVars
  rw [hs.filedLits_eq (List.mem_of_mem_filter hfiled)]
  rfl

/-- The neighbours of a vertex in the order of a traversal. -/
def listed (found : List Var) : Traversal → List Var
  | .uniform => found.mergeSort Var.ble
  | .arityClassed => found

/-- One row of the primal graph, found with marks that are handed on. -/
def addRow (s : Solver) (c : Component) (traversal : Traversal)
    (rows : Marks × VarTable (List Var)) (v : Var) : Marks × VarTable (List Var) :=
  let n := s.gatherNeighbours c traversal rows.1 v
  (n.marks, rows.2.set v (listed n.found.reverse traversal))

/-- **The graph row by row.** -/
theorem Sound.primalGraphWith_eq (hs : Sound F s) (marks : Marks) (c : Component)
    (traversal : Traversal) : s.primalGraphWith marks c traversal = (s.requireVars c).map fun _ =>
      let rows := (s.openVars c).foldl (s.addRow c traversal) (marks, VarTable.sized s.varCount)
      (rows.1, ⟨s.openVars c, rows.2⟩) := by
  unfold primalGraphWith
  cases hreq : s.requireVars c with
  | error e => rfl
  | ok u =>
    refine Except.bind_eq_ok.mpr ⟨u, rfl, Except.bind_eq_ok.mpr ⟨_, ?_, rfl⟩⟩
    refine Except.foldlM_eq_ok (fun rows v _ => ?_) _
    refine Except.bind_eq_ok.mpr ⟨_, hs.neighboursOf_eq c traversal rows.1 v, ?_⟩
    cases traversal <;> rfl

/-- **A graph has no other fault than an unknown variable.** -/
theorem Sound.exists_primalGraphWith (hs : Sound F s) {marks : Marks} :
    (∃ r, s.primalGraphWith marks c traversal = .ok r) ↔ ∀ v ∈ c.vars, v.index < s.varCount := by
  rw [hs.primalGraphWith_eq, ← requireVars_iff]
  constructor
  · rintro ⟨r, hr⟩
    obtain ⟨u, hreq, -⟩ := Except.map_eq_ok.mp hr
    exact hreq
  · intro hreq
    exact ⟨_, Except.map_eq_ok.mpr ⟨_, hreq, rfl⟩⟩

theorem Sound.exists_primalGraph (hs : Sound F s) (hvars : ∀ v ∈ c.vars, v.index < s.varCount)
    (traversal : Traversal) : ∃ graph, s.primalGraph c traversal = .ok graph := by
  obtain ⟨r, hr⟩ := hs.exists_primalGraphWith.mpr hvars
  exact ⟨r.2, Except.map_eq_ok.mpr ⟨r, hr, rfl⟩⟩

end Solver

end Cleave
