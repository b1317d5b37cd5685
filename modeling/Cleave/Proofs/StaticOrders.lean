import Cleave.Proofs.Upkeep

/-!
# The static order

The static order ranks all variables in every state. Every operation keeps it so
(`VarOrder.Ranks` in `Solver.Upkeep`): new variables are ranked last, a substitution
starts over, and an order that is computed lists the variables of an elimination
order, each of which is listed once, and then all others (`ranks_computeOrder`).

What is computed is said by `Solver.StaticOrder`: the elimination order backwards,
which has all vertices of the primal graph unless min-fill gave up, then the other
variables by weight.
-/

namespace Cleave

namespace Solver

variable {F : List Clause} {s s' : Solver} {c : Component} {run : String → ToolRun}

/-- **The branching order made of an elimination order** of a primal graph. -/
structure StaticOrder (s : Solver) (c : Component) (run : String → ToolRun) (g : Graph)
    (elimination rest branching : List Var) : Prop where
  graph : s.primalGraph c s.options.traversal = .ok g
  eliminated : s.EliminatedBy run g elimination
  vertices : elimination.Perm g.vertices ∨ elimination = [] ∧ s.options.decomposer = none
    ∧ minFill g (some s.options.widthBound) = none
  vars : branching = elimination.reverse ++ rest
  nodup : rest.Nodup
  mem_rest : ∀ v, v ∈ rest ↔ v.index < s.varCount ∧ v ∉ elimination
  byWeight : rest.Pairwise (VarOrder.Precedes (s.variableWeights c))

/-- **What is computed**, over a component whose variables are listed once. -/
theorem computeOrder_staticOrder (hs : Sound F s) (hnodup : c.vars.Nodup)
    (h : s.computeOrder c run = .ok (.ok s')) :
    s'.varCount = s.varCount ∧ ∃ g elimination rest, s.StaticOrder c run g elimination rest
      s'.order.vars := by
  obtain ⟨g, elimination, stats, hg, helim, rfl⟩ := computeOrder_spec h
  obtain ⟨-, hcount, hlt, -⟩ := primalGraph_spec hs hg
  obtain ⟨honce, hmem⟩ := helim.lists hlt
  have hperm := VarOrder.perm_elimination_remaining honce
    (fun v hv => (hlt v (hmem v hv)).trans_eq hcount) (s.variableWeights c)
  refine ⟨rfl, g, elimination, VarOrder.remaining elimination (s.variableWeights c) s.varCount, ?_⟩
  exact {
    graph := hg
    eliminated := helim
    vertices := helim.perm (simple_primalGraph hs hnodup hg)
    vars := VarOrder.vars_ofList hperm
    nodup := (List.nodup_append.mp (hperm.nodup_iff.mpr (Var.nodup_range _))).2.1
    mem_rest := fun _ => VarOrder.mem_remaining
    byWeight := VarOrder.pairwise_remaining elimination (s.variableWeights c) s.varCount }

/-- **The static order ranks all variables**, in every state: the ranks are a
bijection from the variables to the numbers below their count. What computing an
order installs is a `StaticOrder`, for any component and any answer from outside. -/
theorem Attained.static_order (h : Attained s) :
    s.order.Ranks s.varCount
    ∧ ∀ vars clauses run s', s.computeOrder (.ofLists vars clauses) run = .ok (.ok s') →
      s'.order.Ranks s'.varCount ∧ s'.varCount = s.varCount
      ∧ ∃ g elimination rest, s.StaticOrder (.ofLists vars clauses) run g elimination rest
        s'.order.vars := by
  refine ⟨h.kept.ranks, fun vars clauses run s' hr => ⟨ranks_computeOrder h.sound hr, ?_⟩⟩
  exact computeOrder_staticOrder h.sound Component.nodup_vars_ofLists hr

/-- Three variables in a row, and two others. -/
def shortPath : Formula :=
  { clauses := [[Var.pos ⟨1⟩, Var.pos ⟨2⟩], [Var.pos ⟨2⟩, Var.pos ⟨4⟩]] }

/-- A solver for them. -/
def shortPathSolver : Solver := Solver.ofFormula shortPath { traversal := .arityClassed }

/-- The row as a graph. -/
def shortPathGraph : Graph := ⟨[⟨1⟩, ⟨2⟩, ⟨4⟩], ⟨#[[], [⟨2⟩], [⟨1⟩, ⟨4⟩], [], [⟨2⟩]]⟩⟩

/-- The variables of the row come first, the one eliminated last at the front, and
both others follow. -/
theorem Attained.static_order_shortPath : Attained shortPathSolver ∧ ∃ s',
    shortPathSolver.computeOrder (.ofLists [⟨4⟩, ⟨2⟩, ⟨1⟩] []) (fun _ => .missing) = .ok (.ok s')
    ∧ s'.order.Ranks 5 ∧ ∃ rest, s'.order.vars = ⟨4⟩ :: ⟨2⟩ :: ⟨1⟩ :: rest
      ∧ ∀ v, v ∈ rest ↔ v.index < 5 ∧ v ∉ [⟨1⟩, ⟨2⟩, ⟨4⟩] := by
  have hs : Attained shortPathSolver := .ofFormula shortPath _
  have hc : Component.ofLists [⟨4⟩, ⟨2⟩, ⟨1⟩] [] = ⟨[⟨1⟩, ⟨2⟩, ⟨4⟩], []⟩ := by cbv
  have hstored : shortPathSolver = _ :=
    ofFormula_of_ascending (f := shortPath) (by decide) rfl { traversal := .arityClassed }
  have hoptions : shortPathSolver.options = { traversal := .arityClassed } := by
    rw [hstored]
    rfl
  have hcount : shortPathSolver.varCount = 5 := by
    rw [hstored]
    rfl
  have hgraph : shortPathSolver.primalGraph (.ofLists [⟨4⟩, ⟨2⟩, ⟨1⟩] []) .arityClassed
      = .ok shortPathGraph := by
    rw [hc, hstored]
    rfl
  have hfill : (minFill shortPathGraph (some 64)).map (·.eliminationOrder)
      = some [⟨1⟩, ⟨2⟩, ⟨4⟩] := by cbv
  obtain ⟨d, hd, horder⟩ := Option.map_eq_some_iff.mp hfill
  obtain ⟨s', hcall⟩ : ∃ s', shortPathSolver.computeOrder (.ofLists [⟨4⟩, ⟨2⟩, ⟨1⟩] [])
      (fun _ => .missing) = .ok (.ok s') := by
    unfold computeOrder
    rw [hoptions]
    simp only [hgraph, bind, Except.bind, hd]
    exact ⟨_, rfl⟩
  obtain ⟨hranks, hsame, g, elimination, rest, hso⟩ := hs.static_order.2 _ _ _ s' hcall
  have hg := hso.graph
  rw [hoptions, hgraph] at hg
  obtain rfl := Except.ok.inj hg
  have helim : elimination = [⟨1⟩, ⟨2⟩, ⟨4⟩] := by
    cases hso.eliminated with
    | decomposer hprogram =>
      rw [hoptions] at hprogram
      cases hprogram
    | minFill _ hd' =>
      rw [hoptions] at hd'
      exact Option.some.inj (hd.symm.trans hd') ▸ horder
    | fallback _ hd' =>
      rw [hoptions] at hd'
      exact absurd (hd.symm.trans hd') (Option.some_ne_none d)
  subst helim
  exact ⟨hs, s', hcall, hsame.trans hcount ▸ hranks, rest, hso.vars,
    fun v => hcount ▸ hso.mem_rest v⟩

end Solver

end Cleave
