import Cleave.Proofs.Search

/-!
# Solving

The variables that occur in given clauses are those of the whole component,
as far as the root facts leave them open. So a search that assigns that
component knows a literal for every variable of every given clause, and if the
clauses are settled, one of these literals is in the clause
(`Settled.satisfies_unspent`).

`Solver.solve` goes back to level 0 and searches there. A refutation at level
0 is the empty clause, hence its two verdicts: no model of `F`, or a valuation
that satisfies the solver as it was before.
-/

namespace Cleave

/-- A literal is one of the two of its variable. -/
theorem Lit.mem_or_neg_mem {known : List Lit} {l : Lit} (h : ∃ p, l.var.lit p ∈ known) :
    l ∈ known ∨ l.neg ∈ known := by
  obtain ⟨p, hp⟩ := h
  obtain ⟨v, q⟩ := l
  cases p <;> cases q
  · exact Or.inl hp
  · exact Or.inr hp
  · exact Or.inr hp
  · exact Or.inl hp

/-- **A settled clause whose variables all have a value has a true literal**, as
long as it has a watch left. -/
theorem Settled.satisfies_unspent {store : ClauseStore} {done known : List Lit}
    (h : Settled done store known) {c : Clause} (hc : store.Unspent done c)
    (hall : ∀ l ∈ c, l ∈ known ∨ l.neg ∈ known) : ∃ l ∈ c, l ∈ known := by
  by_contra hno
  have hfalse : ∀ l ∈ c, l.neg ∈ known := fun l hl =>
    (hall l hl).resolve_left fun hm => hno ⟨l, hl, hm⟩
  cases hc with
  | @binary a b hb hleft =>
    have ha := hfalse a.neg (by simp)
    rw [Lit.neg_neg] at ha
    exact hleft (h.binary a b hb ha (hfalse b (by simp)))
  | long hc hleft =>
    obtain ⟨id, hid, rfl⟩ := ClauseStore.mem_long_iff.mp hc
    exact hleft (h.long id ⟨hid, hfalse _ (by simp [LongClause.lits]),
      hfalse _ (by simp [LongClause.lits])⟩).2

theorem ClauseStore.Given.unspent {store : ClauseStore} {c : Clause} (h : store.Given c) :
    store.Unspent [] c := by
  rcases h with ⟨id, hid, -, rfl⟩ | ⟨a, b, hb, rfl⟩
  · exact .long (ClauseStore.clause_mem hid) (by simp)
  · have hpair : store.Unspent [] [a.neg.neg, b] :=
      .binary (ClauseStore.mem_implied_of_partner hb) (by simp)
    rwa [Lit.neg_neg] at hpair

/-- A clause that was given has watches left, also after the store was changed. -/
theorem Settled.satisfies_kept {store store' : ClauseStore} {known : List Lit}
    (h : Settled [] store' known) (hkeep : store.KeepsGiven store') {c : Clause}
    (hc : store.Given c) (hall : ∀ l ∈ c, ∃ p, l.var.lit p ∈ known) : ∃ l ∈ c, l ∈ known := by
  obtain ⟨d, hd, hperm⟩ := hkeep.clauses c hc
  obtain ⟨l, hl, hk⟩ := h.satisfies_unspent hd.unspent fun l hl =>
    Lit.mem_or_neg_mem (hall l (hperm.mem_iff.mp hl))
  exact ⟨l, hperm.mem_iff.mp hl, hk⟩

namespace Solver

variable {F : List Clause} {s s' : Solver} {n₀ : Nat}

/-! ## The variables of given clauses -/

theorem occurs_of_partner {a b : Lit} (hb : b ∈ s.store.partners a) : s.occurs a.var = true := by
  unfold occurs
  rw [Bool.or_eq_true, List.any_eq_true]
  refine Or.inr ⟨a, Var.mem_lits.mpr rfl, ?_⟩
  cases hp : s.store.partners a with
  | nil => rw [hp] at hb; exact absurd hb List.not_mem_nil
  | cons x rest => rfl

/-- The variables of a given clause are known, and known to occur. -/
theorem Sound.occurs_of_given (hs : Sound F s) {c : Clause} (hc : s.store.Given c) {l : Lit}
    (hl : l ∈ c) : l.var.index < s.varCount ∧ s.occurs l.var = true := by
  rcases hc with ⟨id, hid, hgiven, rfl⟩ | ⟨a, b, hb, rfl⟩
  · refine ⟨hs.store.longInRange _ (ClauseStore.clause_mem hid) l hl, ?_⟩
    have hmem : id ∈ s.membership.ofVar l.var :=
      (hs.listed.mem_ofVar l.var id).mpr ⟨⟨hid, hgiven⟩, l, hl, rfl⟩
    unfold occurs
    simp [List.ne_nil_of_mem hmem]
  · have hsym := hs.store.symmetric a b hb
    have hrange : ∀ x y, y ∈ s.store.partners x → y.var.index < s.varCount :=
      fun x y hy => hs.store.impliedInRange x.neg y (ClauseStore.mem_implied_of_partner hy)
    rcases List.mem_cons.mp hl with rfl | hl
    · exact ⟨hrange b l hsym, occurs_of_partner hb⟩
    · obtain rfl := List.mem_singleton.mp hl
      exact ⟨hrange a l hb, occurs_of_partner hsym⟩

/-- At level 0 the whole component has every variable of a given clause that
is still open. -/
theorem Sound.mem_initComponent (hs : Sound F s) {c : Clause} (hc : s.store.Given c) {l : Lit}
    (hl : l ∈ c) (hopen : s.trail.isAssigned l.var = false) : l.var ∈ s.initComponent.vars := by
  obtain ⟨hin, hocc⟩ := hs.occurs_of_given hc hl
  unfold initComponent
  refine Component.mem_vars_ofLists.mpr (List.mem_filter.mpr ⟨Var.mem_range.mpr hin, ?_⟩)
  simp [hopen, hocc]

/-! ## The verdict -/

/-- **A model of the whole component** satisfies the solver. -/
theorem givenHold_of_found {known : List Lit} {m : Model} (hs : Sound F s)
    (hkeep : s.store.KeepsGiven s'.store) (hlits : s.trail.lits.toList <+: s'.trail.lits.toList)
    (hf : Found s.initComponent s'.pool s'.trail.lits.toList known m)
    (hset : Settled [] s'.store known) : ∃ ν, GivenHold s ν := by
  have hholds : ∀ l ∈ known, l.holds (fun v => (s'.pool.value m v).getD false) = true := by
    intro l hl
    rw [Lit.holds_iff, (hf.values l).mpr hl]
    rfl
  have hsub : ∀ l ∈ s.trail.lits.toList, l ∈ known := fun l hl =>
    (hlits.trans hf.starts).subset hl
  refine ⟨_, ⟨fun l hl => hholds l (hsub l (List.mem_of_mem_take hl)), fun c hc => ?_⟩⟩
  -- every variable of the clause has a value: open ones are in the component
  obtain ⟨l, hl, hk⟩ := hset.satisfies_kept hkeep hc fun l hl => by
    cases ha : s.trail.isAssigned l.var with
    | false => exact hf.assigned _ (hs.mem_initComponent hc hl ha)
    | true =>
      obtain ⟨x, hx, hv⟩ := hs.trail.isAssigned_iff.mp ha
      exact ⟨x.positive, hv ▸ hsub x hx⟩
  exact Clause.holds_iff.mpr ⟨l, hl, hholds l hk⟩

theorem Sound.roots_backtrackTo (hs : Sound F s) (k : Nat) :
    (s.backtrackTo k).store = s.store ∧ (s.backtrackTo k).conflicted = s.conflicted
      ∧ ∀ l ∈ s.trail.roots, l ∈ (s.backtrackTo k).trail.roots := by
  by_cases hk : s.level ≤ k
  · rw [backtrackTo_of_le hk]
    exact ⟨rfl, rfl, fun l hl => hl⟩
  · obtain ⟨hs', hcut⟩ := backtrackTo_spec hs (Nat.lt_of_not_le hk)
    exact ⟨hcut.store, (congrArg Solver.conflicted hcut.others).symm,
      hcut.roots hs (Nat.lt_of_not_le hk)⟩

theorem Sound.level_backtrackTo (hs : Sound F s) (k : Nat) :
    (s.backtrackTo k).level = min s.level k := by
  by_cases hk : s.level ≤ k
  · rw [backtrackTo_of_le hk, Nat.min_eq_left hk]
  · have hlt := Nat.lt_of_not_le hk
    rw [(backtrackTo_spec hs hlt).2.level hlt, Nat.min_eq_right (Nat.le_of_lt hlt)]

theorem Sound.head_backtrackTo_le (hs : Sound F s) (k : Nat) :
    (s.backtrackTo k).trail.head ≤ s.trail.levelStart (k + 1) := by
  by_cases hk : s.level ≤ k
  · have hend : s.trail.levelStart (k + 1) = s.trail.lits.size :=
      Trail.levelStart_of_level_lt (Nat.lt_succ_of_le hk)
    rw [backtrackTo_of_le hk, hend]
    exact hs.trail.headLe
  · rw [(backtrackTo_spec hs (Nat.lt_of_not_le hk)).2.head]
    exact Nat.min_le_right _ _

/-- A decision opens a level and propagates. -/
theorem decide_eq_ok {l : Lit} {r : Option Conflict} (h : s.decide l = .ok (r, s')) :
    l.var.index < s.varCount ∧ ∃ stats,
      (({ s with stats := stats } : Solver).openDecision l).propagate = (r, s') := by
  obtain ⟨⟨⟩, hreq, h⟩ := Except.bind_eq_ok.mp h
  refine ⟨?_, _, Except.ok.inj h⟩
  unfold requireVar at hreq
  split at hreq
  · assumption
  · cases hreq

/-- A solver goes on covering what it did, as long as it keeps its given
clauses and root facts. -/
theorem Covers.of_keeps (h : Covers F s) (hconf : s'.conflicted = s.conflicted)
    (hgiven : s.store.KeepsGiven s'.store)
    (hroots : ∀ l ∈ s.trail.roots, l ∈ s'.trail.roots) : Covers F s' :=
  fun hf ν hν => h (hconf ▸ hf) ν (hν.of_keeps hgiven hroots)

/-- **What solving gives.** Whatever was settled before, the invariant is kept
and a refutation is right; a positive verdict comes from a valuation that
satisfies the solver, if at level 0 the clauses are settled up to the head. -/
theorem solve_spec {fuel : Nat} {v : Verdict} (hs : Sound F s)
    (h : s.solve fuel = .ok (v, s')) :
    Sound F s' ∧ v ≠ .unknown ∧ (v = .unsatisfiable → ¬ Satisfiable F)
      ∧ (v = .satisfiable → s.conflicted = false
        ∧ ∀ n, SettledTo [] n (s.backtrackTo 0) → ∃ ν, GivenHold s ν) := by
  unfold solve at h
  split at h
  · rename_i hconf
    obtain ⟨rfl, rfl⟩ := Prod.mk.inj (Except.ok.inj h)
    exact ⟨hs, by simp, fun _ => hs.refuted hconf, by simp⟩
  · rename_i hconf
    obtain ⟨⟨r, s₁⟩, hsearch, h⟩ := Except.bind_eq_ok.mp h
    have hs₀ := hs.backtrackTo 0
    obtain ⟨hstore, -, hroots⟩ := hs.roots_backtrackTo 0
    have hlevel : (s.backtrackTo 0).level = 0 := (hs.level_backtrackTo 0).trans (Nat.min_zero _)
    -- the search starts from the state it is called in
    have hspec : ∀ n₀, Searched F (s.backtrackTo 0) n₀ (s.backtrackTo 0).initComponent
        (s.backtrackTo 0) r s₁ ∧ ((none : Option Nat) = none → r ≠ .unknown) := fun n₀ =>
      search_spec hs₀ (.refl hs₀) (fun _ hn => ⟨n₀, Nat.le_refl _, hn⟩) hsearch
    have hs₁ := (hspec 0).1
    cases r with
    | satisfiable m =>
      obtain ⟨rfl, rfl⟩ := Prod.mk.inj (Except.ok.inj h)
      refine ⟨hs₁.sound, by simp, by simp, fun _ => ⟨by simpa using hconf, fun n hn => ?_⟩⟩
      obtain ⟨known, hf, hset⟩ := (hspec n).1.answers
      obtain ⟨ν, hν⟩ := givenHold_of_found hs₀ (hspec n).1.within.given
        (hspec n).1.own.lits hf (hset [] hn)
      exact ⟨ν, hν.of_keeps (hstore ▸ .refl _) hroots⟩
    | refuted learnt =>
      obtain ⟨rfl, rfl⟩ := Prod.mk.inj (Except.ok.inj h)
      refine ⟨hs₁.sound, by simp, fun _ => ?_, by simp⟩
      have href : RefutedBy F _ 0 learnt s₁ := hs₁.answers
      rcases href.clause with ⟨-, hc⟩ | ⟨first, rest, -, hpos, -⟩
      · exact hs₁.sound.refuted hc
      · -- only the empty clause refutes level 0
        rw [hs₁.level, hlevel] at hpos
        exact absurd hpos (Nat.lt_irrefl _)
    | unknown => exact absurd rfl ((hspec 0).2 rfl)

/-- A refuted solver stays so. -/
theorem solve_of_conflicted {fuel : Nat} {v : Verdict} (hconf : s.conflicted = true)
    (h : s.solve fuel = .ok (v, s')) : v = .unsatisfiable ∧ s'.conflicted = true := by
  unfold solve at h
  rw [if_pos hconf] at h
  obtain ⟨rfl, rfl⟩ := Prod.mk.inj (Except.ok.inj h)
  exact ⟨rfl, hconf⟩

/-! ## Nothing left to do -/

theorem propagate_of_head (hhead : s.trail.head = s.trail.lits.size) :
    s.propagate = (none, s) := by
  have hnext : s.nextToPropagate = none := by
    unfold nextToPropagate
    rw [hhead, Array.getElem?_eq_none (Nat.le_refl _)]
    rfl
  have hall : ∀ fuel, propagateWithin fuel s = (none, s) := by
    intro fuel
    cases fuel with
    | zero => rfl
    | succ fuel =>
      unfold propagateWithin
      rw [hnext]
  exact hall _

theorem nextDecision_of_full {c : Component} (hall : ∀ v ∈ c.vars, s.trail.isAssigned v = true) :
    s.nextDecision c = .ok none := by
  have hopen : s.openVars c = [] := by
    unfold openVars
    rw [List.filter_eq_nil_iff]
    intro v hv
    simp [hall v hv]
  have hvar : s.nextVar c = .ok none := by
    unfold nextVar
    split
    · rw [hopen]; rfl
    · rw [hopen]; rfl
    · rw [hopen]; rfl
    · rw [hopen]; rfl
    · unfold minFillVar
      rw [hopen]
      simp only [Component.ofLists, List.mergeSort_nil]
      rfl
  unfold nextDecision
  rw [hvar]
  rfl

theorem searchWithin_of_full {c : Component} {entry : Nat} {budget : Option Nat} (fuel : Nat)
    (schedule : RestartSchedule) (conflicts : Nat) (hhead : s.trail.head = s.trail.lits.size)
    (hall : ∀ v ∈ c.vars, s.trail.isAssigned v = true) :
    searchWithin c entry budget (fuel + 1) schedule conflicts s
      = .ok (.satisfiable s.captureModel.1, s.captureModel.2) := by
  unfold searchWithin
  rw [propagate_of_head hhead]
  exact Except.bind_eq_ok.mpr ⟨none, nextDecision_of_full hall, rfl⟩

/-- A search finds a model at once where everything is propagated and the
component assigned. -/
theorem search_of_full {c : Component} {budget : Option Nat} (fuel : Nat)
    (hconf : s.conflicted = false) (hhead : s.trail.head = s.trail.lits.size)
    (hvars : ∀ v ∈ c.vars, v.index < s.varCount ∧ s.trail.isAssigned v = true) :
    ∃ m s', s.search (fuel + 1) c budget = .ok (.satisfiable m, s') := by
  have hreq : s.requireVars c = .ok () := requireVars_iff.mpr fun v hv => (hvars v hv).1
  let inside : Solver :=
    { s with
      stats := { s.stats with search :=
        { s.stats.search with searches := s.stats.search.searches + 1 } }
      scope := s.scopeOf c }
  have hrun : searchWithin c s.level budget (fuel + 1) (.ofOptions s.options) 0 inside
      = .ok (.satisfiable inside.captureModel.1, inside.captureModel.2) :=
    searchWithin_of_full fuel _ _ hhead fun v hv => (hvars v hv).2
  refine ⟨inside.captureModel.1, (inside.captureModel.2.backtrackTo s.level).restoreScope s.scope.current,
    Except.bind_eq_ok.mpr ⟨(s.scope.current, inside), Except.bind_eq_ok.mpr ⟨(), hreq, rfl⟩, ?_⟩⟩
  simp only
  rw [if_neg (by simp [inside, hconf])]
  exact Except.bind_eq_ok.mpr ⟨_, hrun, rfl⟩

/-- A verdict at level 0 where every variable has a value. -/
theorem solve_of_full (fuel : Nat) (hconf : s.conflicted = false) (h0 : s.level = 0)
    (hhead : s.trail.head = s.trail.lits.size)
    (hall : ∀ v ∈ Var.range s.varCount, s.trail.isAssigned v = true) :
    ∃ s', s.solve (fuel + 1) = .ok (.satisfiable, s') := by
  have hfull : ∀ v ∈ s.initComponent.vars, v.index < s.varCount ∧ s.trail.isAssigned v = true := by
    intro v hv
    have hv := (List.mem_filter.mp (Component.mem_vars_ofLists.mp hv)).1
    exact ⟨Var.mem_range.mp hv, hall v hv⟩
  obtain ⟨m, s', hsearch⟩ : ∃ m s', s.search (fuel + 1) s.initComponent none
      = .ok (.satisfiable m, s') := search_of_full fuel hconf hhead hfull
  unfold solve
  rw [if_neg (by simp [hconf]), backtrackTo_of_le (Nat.le_of_eq h0)]
  exact ⟨_, Except.bind_eq_ok.mpr ⟨_, hsearch, rfl⟩⟩

end Solver

end Cleave
