import Cleave.Proofs.Certificates

/-!
# Root refutations

Once the conflict flag is up it stays up, and a solver with the flag answers
every question at once (`Solver.RefutedForGood`). A search that returns the
empty clause raises the flag, and so does the native engine, so their
refutations are never forgotten (`Solver.Reachable.refutation_stands`).

A conflict that `propagate` or `decide` return does not raise the flag, even
if all its literals are root facts, nor does the engine outside. What they
report is right, as there is no model. But the head has moved past the
literals whose lists were left in the middle, so a later call may miss the
false clause and even find a model (`Solver.forgotten_conflict`).
-/

namespace Cleave

namespace Solver

variable {F F' : List Clause} {s s' s₁ : Solver}

/-- **A solver that is refuted for good**: whatever it is asked, it says so. A
search must only name known variables. -/
structure RefutedForGood (s : Solver) : Prop where
  flag : s.conflicted = true
  solve : ∀ fuel, s.solve fuel = .ok (.unsatisfiable, s)
  search : ∀ (fuel : Nat) (c : Component) (budget : Option Nat),
    (∀ v ∈ c.vars, v.index < s.varCount) →
      ∃ s', s.search fuel c budget = .ok (.refuted .empty, s')
  implied : ∀ (P : SatProcedure) (fuel : Nat) (c : Component) (ledger : ModelLedger)
    (projected : Bool), ∃ s',
      s.impliedLiterals P fuel c ledger projected = .ok (.ok (.unsatisfiable []), ledger, s')

/-- Known variables make a scope. -/
theorem enterScope_ok {c : Component} (h : ∀ v ∈ c.vars, v.index < s.varCount) :
    s.enterScope c = .ok (s.scope.current, { s with scope := s.scopeOf c }) := by
  unfold enterScope
  rw [requireVars_iff.mpr h]
  rfl

theorem RefutedForGood.of_conflicted (h : s.conflicted = true) : s.RefutedForGood where
  flag := h
  solve := by
    intro fuel
    unfold Solver.solve
    rw [if_pos h]
    rfl
  search := by
    intro fuel c budget hvars
    have henter := enterScope_ok (s := { s with stats := { s.stats with search :=
      { s.stats.search with searches := s.stats.search.searches + 1 } } }) hvars
    unfold Solver.search
    simp only
    rw [henter]
    exact ⟨_, by simp [h]; rfl⟩
  implied := by
    intro P fuel c ledger projected
    unfold impliedLiterals
    simp only
    rw [if_pos (by exact h)]
    exact ⟨_, rfl⟩

/-- **A call that reports a refutation of the formula** and remembers it: a
search that returns the empty clause, or the native engine doing so. -/
inductive ReportsRefutation (s s₁ : Solver) : Prop where
  | search {fuel : Nat} {c : Component} {budget : Option Nat} {learnt : Learnt}
      (hr : s.search fuel c budget = .ok (.refuted learnt, s₁)) (hempty : learnt.lits = []) :
      ReportsRefutation s s₁
  | implied {P : SatProcedure} {fuel : Nat} {c : Component} {ledger ledger' : ModelLedger}
      {projected : Bool} (hengine : s.options.engine = .native)
      (hr : s.impliedLiterals P fuel c ledger projected
        = .ok (.ok (.unsatisfiable []), ledger', s₁)) : ReportsRefutation s s₁

/-- Such a call raises the flag. -/
theorem ReportsRefutation.sound (h : ReportsRefutation s s₁) (hs : Sound F s) :
    Sound F s₁ ∧ s₁.conflicted = true := by
  cases h with
  | search hr hempty =>
    exact ⟨(Call.search hr).sound hs, (Certificate.of_search hs hr).empty hempty⟩
  | implied hengine hr =>
    have hdisproved := (impliedLiterals_spec hs hengine hr 0).disproved [] rfl
    exact ⟨hdisproved.sound, hdisproved.conflicted⟩

/-- An entailed clause whose literals are false since level 0 leaves no
model. -/
theorem Sound.not_satisfiable_of_roots (hs : Sound F s) {c : Clause} (hent : Entails F c)
    (hfalse : ∀ l ∈ c, l.neg ∈ s.trail.lits.toList)
    (hroot : ∀ l ∈ c, s.trail.levelOf l.var = 0) : ¬ Satisfiable F := by
  rintro ⟨ν, hν⟩
  obtain ⟨l, hl, hlν⟩ := Clause.holds_iff.mp (hent ν hν)
  have hneg := (hs.entails_root (hfalse l hl) (hroot l hl)).lit hν
  rw [Lit.not_holds_of_neg hneg] at hlν
  cases hlν

/-- **Root refutations stand.** After a search or the native engine refuted
the formula, the solver is refuted for good, whatever is called. A conflict
over root facts, and an empty clause of the engine outside, are right too:
there is no model. -/
theorem Reachable.refutation_stands (h : Reachable F s) :
    (∀ s₁ F' s', s.ReportsRefutation s₁ → Calls F s₁ F' s' → s'.RefutedForGood)
      ∧ (∀ conflict s₁, (s.propagate = (some conflict, s₁)
            ∨ ∃ l : Lit, s.trail.isAssigned l.var = false
                ∧ s.decide l = .ok (some conflict, s₁)) →
          (∀ l ∈ s₁.conflictLits conflict, s₁.trail.levelOf l.var = 0) → ¬ Satisfiable F)
      ∧ ∀ (P : SatProcedure) (fuel : Nat) (c : Component) (ledger ledger' : ModelLedger)
          (projected : Bool) (s₁ : Solver), s.Callable P c →
        s.impliedLiterals P fuel c ledger projected
            = .ok (.ok (.unsatisfiable []), ledger', s₁) → ¬ Satisfiable F := by
  have hs := h.sound
  refine ⟨fun s₁ F' s' hreport hcalls => ?_, fun conflict s₁ hcall hroot => ?_,
    fun P fuel c ledger ledger' projected s₁ hcall hr => ?_⟩
  · obtain ⟨hs₁, hconf⟩ := hreport.sound hs
    exact .of_conflicted (hcalls.conflicted hs₁ hconf)
  · have hdrawn : Sound F s₁ ∧ Refutes F s₁ conflict := by
      rcases hcall with hp | ⟨l, hopen, hr⟩
      · have hdrawn := (propagate_spec hs hp).1
        exact ⟨hdrawn.sound, hdrawn.conflict conflict rfl⟩
      · obtain ⟨hl, stats, hp⟩ := decide_eq_ok hr
        have hdrawn := (propagate_spec (F := F) (hs.decided hl hopen) hp).1
        exact ⟨hdrawn.sound, hdrawn.conflict conflict rfl⟩
    exact hdrawn.1.not_satisfiable_of_roots hdrawn.2.entailed hdrawn.2.isFalse hroot
  · rintro ⟨ν, hν⟩
    cases ((impliedLiterals_concluded hs hcall hr 0).refuted [] rfl).1 ν hν

theorem Reachable.refutation_stands_pair : ∃ s₁ : Solver, pairSolver.ReportsRefutation s₁
    ∧ (s₁.backtrackTo 0).RefutedForGood := by
  obtain ⟨learnt, s₁, hcall, hempty⟩ := search_pairSolver
  have hreport : pairSolver.ReportsRefutation s₁ := .search hcall hempty
  exact ⟨s₁, hreport, (Reachable.ofFormula refutedPair {}).refutation_stands.1 s₁ _ _ hreport
    (.step .refl (.backtrack refutedPair.clauses s₁ 0))⟩

/-- **A conflict over root facts can be forgotten**: it is returned twice by a
propagation, and then the solver finds a model. -/
theorem forgotten_conflict : ¬ ∀ (F : List Clause) (s s₁ : Solver) (conflict : Conflict),
    Reachable F s → s.propagate = (some conflict, s₁) →
      (∀ l ∈ s₁.conflictLits conflict, s₁.trail.levelOf l.var = 0) →
      ∀ F' s', Calls F s₁ F' s' → s'.conflicted = true
        ∧ ∀ fuel v s'', s'.solve fuel = .ok (v, s'') → v = .unsatisfiable := by
  intro hclaim
  have hconflict : pairSolver.propagate.1 = some (.binary (Var.pos ⟨0⟩) (Var.pos ⟨1⟩)) := by
    rw [pairSolver_eq]
    decide +kernel
  have hroot : ∀ l ∈ pairSolver.propagate.2.conflictLits (.binary (Var.pos ⟨0⟩) (Var.pos ⟨1⟩)),
      pairSolver.propagate.2.trail.levelOf l.var = 0 := by
    rw [pairSolver_eq]
    decide +kernel
  -- after the second propagation nothing is left to do
  have hfull : pairSolver.propagate.2.propagate.2.conflicted = false
      ∧ pairSolver.propagate.2.propagate.2.level = 0
      ∧ pairSolver.propagate.2.propagate.2.trail.head
        = pairSolver.propagate.2.propagate.2.trail.lits.size
      ∧ ∀ v ∈ Var.range pairSolver.propagate.2.propagate.2.varCount,
        pairSolver.propagate.2.propagate.2.trail.isAssigned v = true := by
    rw [pairSolver_eq]
    decide +kernel
  obtain ⟨hflag, h0, hhead, hall⟩ := hfull
  obtain ⟨s'', hsolve⟩ := solve_of_full 0 hflag h0 hhead hall
  have hlater := hclaim refutedPair.clauses pairSolver pairSolver.propagate.2 _
    (.ofFormula refutedPair {}) (Prod.ext hconflict rfl) hroot refutedPair.clauses
    pairSolver.propagate.2.propagate.2 (.step .refl (.propagate rfl))
  cases hlater.2 1 _ s'' hsolve

end Solver

end Cleave
