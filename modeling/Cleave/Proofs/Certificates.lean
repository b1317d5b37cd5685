import Cleave.Proofs.Reachable

/-!
# Refutations are certificates

Whoever calls a search or the computation of implied literals gets a clause
where there is no model. `Solver.Reachable.certified` says that this clause
can be relied upon in every reachable state: it follows from the clauses
given, and it is false now, but for the first literal of a clause that a
search learnt, which may be open.

A search gives no answer only when its budget is used up. Conflicts are
counted in the statistics, and nothing but a conflict of a search moves that
counter, so the number of conflicts in a call can be read off it.
-/

namespace Cleave

namespace Solver

variable {F : List Clause} {s s' : Solver} {c : Component}

/-! ## Counting conflicts -/

/-- The decisions that searches took and the conflicts that they met so far. -/
def counts (s : Solver) : Nat × Nat := (s.stats.search.decisions, s.stats.search.conflicts)

/-- The conflicts among them. -/
def conflictCount (s : Solver) : Nat := s.counts.2

theorem counts_congr (h : s'.stats = s.stats) : s'.counts = s.counts :=
  congrArg (fun stats => (stats.search.decisions, stats.search.conflicts)) h

theorem stats_propagateBinary (s : Solver) (l : Lit) (ls : List Lit) :
    (s.propagateBinary l ls).2.stats = s.stats := by
  fun_induction propagateBinary s l ls with
  | case1 => rfl
  | case2 _ _ _ _ ih => exact ih
  | case3 => rfl
  | case4 _ _ _ _ _ ih => exact ih
  | case5 _ _ _ _ _ ih => exact ih

theorem stats_visit (s : Solver) (falsified : Lit) (id : ClauseId) :
    (s.visit falsified id).2.stats = s.stats := by
  unfold visit
  simp only
  split
  · rfl
  · split
    · rfl
    · split
      · rfl
      · rfl
      · split <;> rfl

theorem stats_visitAll (s : Solver) (falsified : Lit) (ids : List ClauseId)
    (kept : Array ClauseId) : (s.visitAll falsified ids kept).2.2.stats = s.stats := by
  induction ids generalizing s kept with
  | nil => rfl
  | cons id rest ih =>
    have hvisit := stats_visit s falsified id
    unfold visitAll
    split
    · rename_i s₁ heq
      rw [heq] at hvisit
      exact (ih s₁ _).trans hvisit
    · rename_i s₁ heq
      rw [heq] at hvisit
      exact (ih s₁ _).trans hvisit
    · rename_i s₁ heq
      rw [heq] at hvisit
      exact hvisit

theorem stats_propagateLit (s : Solver) (l : Lit) : (s.propagateLit l).2.stats = s.stats := by
  have hbinary := stats_propagateBinary s l (s.store.implied l)
  unfold propagateLit
  split
  · rename_i heq
    rw [heq] at hbinary
    exact hbinary
  · rename_i s₁ heq
    rw [heq] at hbinary
    exact (stats_visitAll s₁ l.neg _ _).trans hbinary

/-- Propagation counts the literals it takes, no decisions and no conflicts. -/
theorem counts_propagateWithin (fuel : Nat) (s : Solver) :
    (propagateWithin fuel s).2.counts = s.counts := by
  induction fuel generalizing s with
  | zero => rfl
  | succ fuel ih =>
    unfold propagateWithin
    split
    · rfl
    · rename_i l s₁ hnext
      have hnext : s₁.counts = s.counts := by
        obtain ⟨_, -, heq⟩ := Option.map_eq_some_iff.mp hnext
        rw [← (Prod.mk.inj heq).2]
        rfl
      have hlit : (s₁.propagateLit l).2.counts = s₁.counts :=
        counts_congr (stats_propagateLit s₁ l)
      split
      · rename_i hprop
        rw [hprop] at hlit
        exact hlit.trans hnext
      · rename_i s₂ hprop
        rw [hprop] at hlit
        exact (ih s₂).trans (hlit.trans hnext)

theorem counts_propagate {r : Option Conflict} (h : s.propagate = (r, s')) :
    s'.counts = s.counts := by
  have hcount := counts_propagateWithin (s.trail.size + s.varCount) s
  unfold propagate at h
  rwa [h] at hcount

theorem stats_backtrackTo (s : Solver) (k : Nat) : (s.backtrackTo k).stats = s.stats := by
  unfold backtrackTo
  split
  · rfl
  · refine List.foldlRecOn _ _ (motive := fun t : Solver => t.stats = s.stats) rfl
      fun t ht l _ => ?_
    rw [← ht]
    unfold restoreFact
    split
    · split <;> rfl
    · rfl
    · rfl

theorem stats_analyze {conflict : Conflict} {fixed : Option Lit} {o : Option Lesson}
    (h : s.analyze conflict fixed = .ok (o, s')) : s'.stats = s.stats := by
  unfold analyze at h
  simp only at h
  split at h
  · obtain ⟨-, rfl⟩ := Prod.mk.inj (Except.ok.inj h)
    rfl
  · obtain ⟨⟨uip, r⟩, -, h⟩ := Except.bind_eq_ok.mp h
    obtain ⟨-, rfl⟩ := Prod.mk.inj (Except.ok.inj h)
    rfl

theorem counts_storeClause (s : Solver) (first : Lit) (rest : List Lit) (learnt : Bool) :
    (s.storeClause first rest learnt).2.counts = s.counts := by
  obtain ⟨store, watches, heq⟩ := storeClause_frame s first rest learnt
  rw [heq]
  rfl

theorem counts_learn {lesson : Lesson} {learnt : Learnt}
    (h : s.learn lesson = .ok (learnt, s')) : s'.counts = s.counts := by
  unfold learn at h
  simp only at h
  obtain ⟨raised, -, h⟩ := Except.bind_eq_ok.mp h
  obtain ⟨aged, -, h⟩ := Except.bind_eq_ok.mp h
  obtain ⟨-, rfl⟩ := Prod.mk.inj (Except.ok.inj h)
  exact counts_storeClause _ _ _ _

theorem stats_assertLearnt (s : Solver) (learnt : Learnt) :
    (s.assertLearnt learnt).stats = s.stats := by
  unfold assertLearnt
  split <;> rfl

theorem counts_refute {conflict : Conflict} {learnt : Learnt}
    (h : s.refute conflict = .ok (learnt, s')) : s'.counts = s.counts := by
  unfold refute at h
  obtain ⟨⟨o, s₁⟩, ha, h⟩ := Except.bind_eq_ok.mp h
  have hstats : s₁.counts = s.counts :=
    counts_congr (stats_analyze ha)
  cases o with
  | none =>
    obtain ⟨-, rfl⟩ := Prod.mk.inj (Except.ok.inj h)
    exact hstats
  | some lesson => exact (counts_learn h).trans hstats

/-- Learning from a conflict does not count it a second time. -/
theorem counts_handleConflict {entry : Nat} {conflict : Conflict} {a : AfterConflict}
    (h : s.handleConflict entry conflict = .ok (a, s')) : s'.counts = s.counts := by
  unfold handleConflict at h
  split at h
  · obtain ⟨⟨learnt, s₁⟩, hr, h⟩ := Except.bind_eq_ok.mp h
    obtain ⟨-, rfl⟩ := Prod.mk.inj (Except.ok.inj h)
    exact counts_refute hr
  · obtain ⟨⟨o, s₁⟩, ha, h⟩ := Except.bind_eq_ok.mp h
    have hstats : s₁.counts = s.counts :=
      counts_congr (stats_analyze ha)
    cases o with
    | none =>
      obtain ⟨-, rfl⟩ := Prod.mk.inj (Except.ok.inj h)
      exact hstats
    | some lesson =>
      simp only at h
      split at h
      · obtain ⟨⟨learnt, s₂⟩, hl, h⟩ := Except.bind_eq_ok.mp h
        obtain ⟨-, rfl⟩ := Prod.mk.inj (Except.ok.inj h)
        exact (counts_learn hl).trans hstats
      · obtain ⟨⟨learnt, s₂⟩, hl, h⟩ := Except.bind_eq_ok.mp h
        obtain ⟨-, rfl⟩ := Prod.mk.inj (Except.ok.inj h)
        have hback : (s₁.backtrackTo lesson.backjump).counts = s₁.counts :=
          counts_congr (stats_backtrackTo _ _)
        exact (counts_congr (stats_assertLearnt s₂ learnt)).trans
          ((counts_learn hl).trans (hback.trans hstats))

theorem counts_restart {entry : Nat} (h : s.restart entry = .ok s') :
    s'.counts = s.counts := by
  have hback (t : Solver) : (t.backtrackTo entry).counts = t.counts :=
    counts_congr (stats_backtrackTo t entry)
  unfold restart reduceLearnts at h
  simp only at h
  split at h
  · obtain rfl := Except.ok.inj h
    exact hback _
  · obtain ⟨activity, -, h⟩ := Except.bind_eq_ok.mp h
    obtain rfl := Except.ok.inj h
    exact hback _

/-- **A search without an answer** met as many conflicts as its budget allows,
by induction on the fuel: the conflicts met so far stay below the bound until
the last one. -/
theorem searchWithin_unknown {entry : Nat} {budget : Option Nat} (fuel : Nat)
    {schedule : RestartSchedule} {met : Nat} {s : Solver}
    (hmet : ∀ b, budget = some b → met < max b 1)
    (h : searchWithin c entry budget fuel schedule met s = .ok (.unknown, s')) :
    ∃ b, budget = some b ∧ s'.conflictCount + met = s.conflictCount + max b 1 := by
  induction fuel generalizing schedule met s with
  | zero => cases h
  | succ fuel ih =>
    have hprop : ∀ r s₁, s.propagate = (r, s₁) → s₁.conflictCount = s.conflictCount :=
      fun r s₁ hp => congrArg Prod.snd (counts_propagate hp)
    unfold searchWithin at h
    split at h
    · rename_i conflict s₁ hp
      obtain ⟨⟨a, s₂⟩, hconf, h⟩ := Except.bind_eq_ok.mp h
      have hcount : s₂.conflictCount = s.conflictCount + 1 :=
        (congrArg Prod.snd (counts_handleConflict hconf)).trans (congrArg (· + 1) (hprop _ _ hp))
      cases a with
      | refuted learnt => cases (Prod.mk.inj (Except.ok.inj h)).1
      | goesOn =>
        simp only at h
        split at h
        · -- the budget is used up by this conflict
          rename_i hany
          obtain ⟨-, rfl⟩ := Prod.mk.inj (Except.ok.inj h)
          obtain ⟨b, rfl, hb⟩ := (Option.any_eq_true _ _).mp hany
          have hb : b ≤ met + 1 := of_decide_eq_true hb
          have hlt := hmet b rfl
          exact ⟨b, rfl, by omega⟩
        · rename_i hany
          have hmet' : ∀ b, budget = some b → met + 1 < max b 1 := by
            rintro b rfl
            have hb : ¬ b ≤ met + 1 := by simpa using hany
            omega
          split at h
          · obtain ⟨s₃, hrestart, h⟩ := Except.bind_eq_ok.mp h
            obtain ⟨b, hb, heq⟩ := ih hmet' h
            have hsame : s₃.conflictCount = s₂.conflictCount :=
              congrArg Prod.snd (counts_restart hrestart)
            exact ⟨b, hb, by omega⟩
          · obtain ⟨b, hb, heq⟩ := ih hmet' h
            exact ⟨b, hb, by omega⟩
    · rename_i s₁ hp
      obtain ⟨decision, hdec, h⟩ := Except.bind_eq_ok.mp h
      cases decision with
      | none => cases (Prod.mk.inj (Except.ok.inj h)).1
      | some l =>
        obtain ⟨b, hb, heq⟩ := ih hmet h
        have hsame : (s₁.countDecision.openDecision l).conflictCount = s.conflictCount :=
          hprop none s₁ hp
        exact ⟨b, hb, by omega⟩

theorem search_unknown {fuel : Nat} {budget : Option Nat}
    (h : s.search fuel c budget = .ok (.unknown, s')) :
    ∃ b, budget = some b ∧ s'.conflictCount = s.conflictCount + max b 1 := by
  obtain ⟨-, stats, s₂, rfl, hstats, hrun⟩ := search_eq_ok h
  rcases hrun with ⟨-, hr, -⟩ | ⟨-, hrun⟩
  · cases hr
  · obtain ⟨b, hb, heq⟩ := searchWithin_unknown fuel (fun b _ => by omega) hrun
    have hback : ((s₂.backtrackTo s.level).restoreScope s.scope.current).conflictCount
        = s₂.conflictCount := congrArg Prod.snd (counts_congr (stats_backtrackTo s₂ s.level))
    exact ⟨b, hb, hback.trans (heq.trans (congrArg (· + max b 1) hstats))⟩

/-! ## Certificates -/

/-- **What a refutation says**, after the call that gave it. -/
structure Certificate (F : List Clause) (learnt : Clause) (s : Solver) : Prop where
  entailed : Entails F learnt
  /-- All literals but the first are false. -/
  tail : ∀ l ∈ learnt.tail, s.trail.isFalse l = true
  /-- The first one is false or open. -/
  head : ∀ l, learnt.head? = some l →
    s.trail.isFalse l = true ∨ s.trail.isAssigned l.var = false
  empty : learnt = [] → s.conflicted = true

theorem Certificate.of_search {fuel : Nat} {budget : Option Nat} {learnt : Learnt}
    (hs : Sound F s) (h : s.search fuel c budget = .ok (.refuted learnt, s')) :
    Certificate F learnt.lits s' := by
  obtain ⟨hd, -⟩ := search_spec hs (.refl hs) (fun _ hb => ⟨0, Nat.le_refl 0, hb⟩) h
  have href : RefutedBy F s 0 learnt s' := hd.answers
  have hent := href.entailed hd.sound
  rcases href.clause with ⟨rfl, hconf⟩ | ⟨first, rest, hlits, -, -, hrest, -, hfirst⟩
  · exact ⟨hent, fun l hl => absurd hl List.not_mem_nil, fun l hl => (nomatch hl), fun _ => hconf⟩
  · rw [hlits] at hent ⊢
    refine ⟨hent, fun l hl => ?_, fun l hl => ?_, fun hnil => (nomatch hnil)⟩
    · exact hd.sound.trail.isFalse_iff.mpr (List.mem_of_mem_take (hrest l hl))
    · obtain rfl := Option.some.inj hl
      exact hfirst.imp_left hd.sound.trail.isFalse_iff.mpr

/-- **Refutations are valid certificates** in every reachable state. The clause
of a refuting search follows from the clauses given; its literals are false
but for the first, which is false or open; it is empty only if the solver
counts as refuted. The clause that refutes a computation of implied literals,
by either engine, follows as well, and is false. A search only fails to give
an answer within a budget, after as many conflicts as it allows, and one at
least. -/
theorem Reachable.certified (h : Reachable F s) (c : Component) :
    (∀ (fuel : Nat) (budget : Option Nat) (learnt : Learnt) (s' : Solver),
        s.search fuel c budget = .ok (.refuted learnt, s') → Certificate F learnt.lits s')
      ∧ (∀ (P : SatProcedure) (fuel : Nat) (ledger ledger' : ModelLedger) (projected : Bool)
          (learnt : Clause) (s' : Solver), s.Callable P c →
        s.impliedLiterals P fuel c ledger projected
            = .ok (.ok (.unsatisfiable learnt), ledger', s') →
          Entails F learnt ∧ ∀ l ∈ learnt, s'.trail.isFalse l = true)
      ∧ ∀ (fuel : Nat) (budget : Option Nat) (s' : Solver),
        s.search fuel c budget = .ok (.unknown, s') →
          ∃ b, budget = some b
            ∧ s'.stats.search.conflicts = s.stats.search.conflicts + max b 1 := by
  have hs := h.sound
  refine ⟨fun fuel budget learnt s' hr => .of_search hs hr,
    fun P fuel ledger ledger' projected learnt s' hcall hr => ?_,
    fun fuel budget s' hr => search_unknown hr⟩
  have hcon := impliedLiterals_concluded hs hcall hr 0
  obtain ⟨hent, hfalse⟩ := hcon.refuted learnt rfl
  exact ⟨hent, fun l hl => hcon.sound.trail.isFalse_iff.mpr (hfalse l hl)⟩

end Solver

/-- Whether a search gave the empty clause. -/
def SearchResult.refutesAll : SearchResult → Bool
  | .refuted learnt => learnt.lits.isEmpty
  | _ => false

theorem SearchResult.refutesAll_iff {r : SearchResult} :
    r.refutesAll = true ↔ ∃ learnt, r = .refuted learnt ∧ learnt.lits = [] := by
  cases r <;> simp [refutesAll]

namespace Solver

/-- Two facts and a clause that they refute. -/
def refutedPair : Formula :=
  { clauses := [[Var.pos ⟨0⟩, Var.pos ⟨1⟩], [Var.neg ⟨0⟩], [Var.neg ⟨1⟩]] }

/-- The solver for `refutedPair`. -/
def pairSolver : Solver := ofFormula refutedPair {}

theorem pairSolver_eq : pairSolver =
    (((((((new {}).growTo 2).growTo 2).insertClause [Var.pos ⟨0⟩, Var.pos ⟨1⟩] false).growTo
      1).insertClause [Var.neg ⟨0⟩] false).growTo 2).insertClause [Var.neg ⟨1⟩] false :=
  ofFormula_of_ascending (by decide) rfl {}

/-- The first search gives the empty clause. -/
theorem search_pairSolver : ∃ (learnt : Learnt) (s' : Solver),
    pairSolver.search 1 pairSolver.initComponent none = .ok (.refuted learnt, s')
      ∧ learnt.lits = [] := by
  have hrun : (pairSolver.search 1 pairSolver.initComponent none).toOption.any
      (fun r => r.1.refutesAll) = true := by
    rw [pairSolver_eq]
    decide +kernel
  obtain ⟨⟨r, s'⟩, hcall, hresult⟩ := (Option.any_eq_true _ _).mp hrun
  obtain ⟨learnt, rfl, hempty⟩ := SearchResult.refutesAll_iff.mp hresult
  exact ⟨learnt, s', Except.toOption_eq_some.mp hcall, hempty⟩

theorem Reachable.certified_pair : ∃ (learnt : Learnt) (s' : Solver),
    pairSolver.search 1 pairSolver.initComponent none = .ok (.refuted learnt, s')
      ∧ learnt.lits = [] ∧ Certificate refutedPair.clauses learnt.lits s' := by
  obtain ⟨learnt, s', hcall, hempty⟩ := search_pairSolver
  have hcertified := (Reachable.ofFormula refutedPair {}).certified pairSolver.initComponent
  exact ⟨learnt, s', hcall, hempty, hcertified.1 _ _ learnt s' hcall⟩

end Solver

end Cleave
