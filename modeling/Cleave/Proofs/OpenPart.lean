import Cleave.Proofs.ExactEngine
import Cleave.Proofs.Splitting

/-!
# The renamed copy of a component's open part

The external engine is asked about a renamed copy of the open part of a
component. `renamedClauses_hold` reads a valuation that completes the
assignment through the renaming, into the copy. The other direction puts a
valuation of the copy back on the open variables of the component
(`renamedClauses_lift`): if the component is closed and no clause is unit, the
copy has all that the solver says about these variables.

A model with the values of a completing valuation is a model of the copy
(`isModel_renamedModel`). Models that are none do no harm but to the result:
the engine answers in any case (`BackboneEngine.Live.run`).
-/

namespace Cleave

/-! ## The engine always answers -/

namespace BackboneEngine

variable {P : SatProcedure} {e e' : BackboneEngine P}

/-- The procedure holds some clauses, and every variable can be looked up. -/
structure Live (e : BackboneEngine P) : Prop where
  size : e.solver.mapped.size = e.varCount
  stands : ∃ cs, e.solver.Stands cs

theorem live_new (P : SatProcedure) (count : Nat) : (new P count).Live :=
  ⟨VarTable.size_sized count, [], LookupSolver.stands_new P count⟩

theorem Live.addClause (hP : P.Trusted) (h : e.Live) {c : Clause}
    (hc : ∀ l ∈ c, l.var.index < e.varCount) : (e.addClause c).Live := by
  obtain ⟨cs, hcs⟩ := h.stands
  exact ⟨(LookupSolver.size_addClause _ c).trans h.size, c :: cs,
    hcs.addClause hP fun l hl => h.size.symm ▸ hc l hl⟩

theorem Live.addClauses (hP : P.Trusted) (ds : List Clause) (h : e.Live)
    (hover : Over ds e.varCount) : (ds.foldl BackboneEngine.addClause e).Live := by
  induction ds generalizing e with
  | nil => exact h
  | cons d ds ih =>
    exact ih (h.addClause hP (hover d List.mem_cons_self))
      fun c hc => hover c (List.mem_cons_of_mem _ hc)

theorem Live.addModels (ms : List (List Lit)) (h : e.Live) :
    (ms.foldl BackboneEngine.addModel e).Live := by
  induction ms generalizing e with
  | nil => exact h
  | cons m ms ih => exact ih (e := e.addModel m) ⟨h.size, h.stands⟩

theorem Live.recordFound (h : e.Live) (request : EngineRequest) (answer : EngineAnswer)
    (model : Option (List Lit)) :
    (BackboneEngine.recordFound request answer e model).2.Live := by
  cases model with
  | none => exact h
  | some m => exact ⟨h.size, h.stands⟩

theorem Live.lookupVars (hP : P.Trusted) (h : e.Live) : e.lookupVars.Live := by
  obtain ⟨cs, hcs⟩ := h.stands
  obtain ⟨hstands, hsize⟩ := stands_lookupVars hP h.size hcs
  exact ⟨hsize, cs, hstands⟩

theorem Live.ask (hP : P.Exact) (h : e.Live) (assumptions : List Lit)
    (ha : ∀ l ∈ assumptions, l.var.index < e.varCount) :
    ∃ r e', e.ask assumptions = .ok (r, e') ∧ e'.Live ∧ e'.varCount = e.varCount
      ∧ ∀ m, r = .satisfiable (some m) → ∀ l ∈ m, l.var.index < e.varCount := by
  obtain ⟨cs, hcs⟩ := h.stands
  rw [← h.size] at ha
  obtain ⟨satisfiable, solver, hsolve⟩ := hcs.answers hP assumptions ha
  have hsize : solver.mapped.size = e.varCount := (LookupSolver.size_of_solve hsolve).trans h.size
  refine ⟨_, _, ask_of_solve hsolve, ⟨hsize, cs, (hcs.solve hP.trusted ha hsolve).1⟩, rfl,
    fun m hm => ?_⟩
  cases satisfiable with
  | false => cases hm
  | true => exact hsize ▸ LookupSolver.index_lt_of_mem_originalModel (Reply.satisfiable.inj hm)

theorem Live.probeUnits (hP : P.Exact) (request : EngineRequest) (vs : List Var)
    (answer : EngineAnswer) (h : e.Live) (hvs : ∀ v ∈ vs, v.index < e.varCount) :
    ∃ answer' e', probeUnits request vs answer e = .ok (answer', e') ∧ e'.Live := by
  induction vs generalizing e answer with
  | nil => exact ⟨answer, e, rfl, h⟩
  | cons v vs ih =>
    obtain ⟨hv, hrest⟩ := List.forall_mem_cons.mp hvs
    unfold BackboneEngine.probeUnits
    split
    · exact ih answer h hrest
    · rename_i value _
      obtain ⟨r, e₁, hask, hlive, hcount, -⟩ := h.ask hP [(v.lit value).neg]
        (List.forall_mem_singleton.mpr hv)
      simp only [hask, bind, Except.bind]
      rw [← hcount] at hv hrest
      cases r with
      | satisfiable model =>
        exact ih _ (hlive.recordFound request answer model)
          ((recordFound_varCount request answer e₁ model).symm ▸ hrest)
      | refuted =>
        exact ih _ (hlive.addClause hP.trusted (List.forall_mem_singleton.mpr hv)) hrest

theorem Live.probeImplied (hP : P.Exact) {l : Lit} (fuel : Nat) (implied found : List Lit)
    (h : e.Live) (hl : l.var.index < e.varCount)
    (himplied : ∀ k ∈ implied, k.var.index < e.varCount) :
    ∃ found' e', probeImplied l fuel implied found e = .ok (found', e') ∧ e'.Live
      ∧ e'.varCount = e.varCount := by
  induction fuel generalizing e implied found with
  | zero => exact ⟨found, e, rfl, h, rfl⟩
  | succ fuel ih =>
    unfold BackboneEngine.probeImplied
    split
    · exact ⟨found, e, rfl, h, rfl⟩
    · rename_i other hother
      obtain ⟨r, e₁, hask, hlive, hcount, -⟩ := h.ask hP [l, other.neg]
        (List.forall_mem_cons.mpr ⟨hl, List.forall_mem_singleton.mpr
          (himplied other (List.mem_of_getLast? hother))⟩)
      simp only [hask, bind, Except.bind]
      rw [← hcount] at hl himplied ⊢
      have hinit : ∀ k ∈ implied.dropLast, k.var.index < e₁.varCount := fun k hk =>
        himplied k (List.dropLast_subset _ hk)
      rcases r with _ | (_ | m)
      · exact ih _ _ hlive hl hinit
      · exact ih _ _ hlive hl hinit
      · exact ih _ _ hlive hl fun k hk => hinit k (List.mem_of_mem_filter hk)

theorem Live.probeBinaries (hP : P.Exact) (isOpen : Var → Bool) (ls : List Lit)
    (found : List (Lit × Lit)) (h : e.Live) (hls : ∀ l ∈ ls, l.var.index < e.varCount) :
    ∃ found' e', probeBinaries isOpen ls found e = .ok (found', e') ∧ e'.Live := by
  induction ls generalizing e found with
  | nil => exact ⟨found, e, rfl, h⟩
  | cons l ls ih =>
    obtain ⟨hl, hrest⟩ := List.forall_mem_cons.mp hls
    unfold BackboneEngine.probeBinaries
    obtain ⟨r, e₁, hask, hlive, hcount, hmodel⟩ := h.ask hP [l]
      (List.forall_mem_singleton.mpr hl)
    simp only [hask, bind, Except.bind]
    rw [← hcount] at hl hrest hmodel
    rcases r with _ | (_ | m)
    · exact ih _ hlive hrest
    · exact ih _ hlive hrest
    · obtain ⟨others, e₂, hprobe, hlive₂, hcount₂⟩ := hlive.probeImplied hP
        (m.filter fun k => k.var ≠ l.var && isOpen k.var).length
        (m.filter fun k => k.var ≠ l.var && isOpen k.var) [] hl
        fun k hk => hmodel m rfl k (List.mem_of_mem_filter hk)
      simp only [hprobe]
      exact ih _ hlive₂ (hcount₂.symm ▸ hrest)

/-- **A procedure that always answers makes an engine that does**, whatever
models it was told. -/
theorem Live.run (hP : P.Exact) (request : EngineRequest) (h : e.Live) :
    ∃ answer e', e.run request = .ok (answer, e') := by
  obtain ⟨r, e₁, hask, hlive, -⟩ := (h.lookupVars hP.trusted).ask hP [] (by simp)
  unfold BackboneEngine.run
  simp only [hask, bind, Except.bind]
  cases r with
  | refuted => exact ⟨_, _, rfl⟩
  | satisfiable model =>
    obtain ⟨answer, e₂, hprobe, hlive₂⟩ :=
      (hlive.recordFound request { satisfiable := true } model).probeUnits hP request
        (Var.range (BackboneEngine.recordFound request { satisfiable := true } e₁ model).2.varCount)
        (BackboneEngine.recordFound request { satisfiable := true } e₁ model).1
        fun v hv => Var.mem_range.mp hv
    simp only [hprobe]
    split
    · obtain ⟨pairs, e₃, hpairs, -⟩ := hlive₂.probeBinaries hP (fun v => e₂.shared[v].isNone)
        (((Var.range e₂.varCount).filter fun v => e₂.shared[v].isNone).flatMap Var.lits) []
        fun l hl => by
          obtain ⟨v, hv, hl⟩ := List.mem_flatMap.mp hl
          exact Var.mem_lits.mp hl ▸ Var.mem_range.mp (List.mem_of_mem_filter hv)
      unfold impliedBinaries
      simp only [hpairs, bind, Except.bind, pure, Except.pure]
      exact ⟨_, _, rfl⟩
    · exact ⟨_, _, rfl⟩

end BackboneEngine

theorem mem_mapM {α β : Type} {f : α → Option β} {xs : List α} {ys : List β}
    (h : xs.mapM f = some ys) (y : β) : y ∈ ys ↔ ∃ x ∈ xs, f x = some y := by
  induction xs generalizing ys with
  | nil =>
    cases h
    simp
  | cons x xs ih =>
    rw [List.mapM_cons] at h
    obtain ⟨z, hz, h⟩ := Option.bind_eq_some_iff.mp h
    obtain ⟨zs, hzs, h⟩ := Option.bind_eq_some_iff.mp h
    cases h
    simp [ih hzs, hz, eq_comm]

/-! ## Back through the renaming -/

namespace Renaming

variable {r : Renaming} {vs : List Var}

/-- A valuation of the new variables, read from the old ones. -/
def push (r : Renaming) (μ : Valuation) : Valuation := fun v =>
  match r.renamed[v] with
  | some w => μ w
  | none => false

theorem holds_push {μ : Valuation} {l m : Lit} (hm : r.rename? l = some m) :
    l.holds (r.push μ) = m.holds μ := by
  obtain ⟨w, hw, rfl⟩ := Option.map_eq_some_iff.mp hm
  have hpush : r.push μ l.var = μ w := by
    unfold push
    rw [hw]
  unfold Lit.holds
  rw [hpush]
  rfl

theorem restore_neg (r : Renaming) (l : Lit) : r.restore l.neg = (r.restore l).neg := rfl

end Renaming

namespace Solver

variable {F : List Clause} {b s s' : Solver} {n₀ : Nat} {c : Component}

/-- Propagation leaves fewer active clauses. -/
theorem Active.of_grown {d : Clause} (h : s'.Active c d) (hs : Sound F s) (hs' : Sound F s')
    (hg : Grown s s') : ∃ d', s.Active c d' ∧ d'.Perm d := by
  obtain ⟨hd, hno, l, hl, hv, hopen⟩ := h
  obtain ⟨d', hd', hperm⟩ := hg.store.symm.keepsGiven.clauses d hd
  refine ⟨d', ⟨hd', fun k hk hin => hno k (hperm.mem_iff.mp hk) (hg.lits.subset hin), l,
    hperm.mem_iff.mpr hl, hv, ?_⟩, hperm⟩
  exact hg.isOpen hs hs' hopen

theorem Closed.grown (h : s.Closed c) (hs : Sound F s) (hs' : Sound F s') (hg : Grown s s') :
    s'.Closed c where
  vars := by
    intro d hd l hl hopen
    obtain ⟨d', hd', hperm⟩ := hd.of_grown hs hs' hg
    exact h.vars d' hd' l (hperm.mem_iff.mpr hl) (hg.isOpen hs hs' hopen)
  clauses := by
    intro id hid hlearnt hd
    refine h.clauses id (hg.store.size ▸ hid) ((hg.store.learnt id).symm.trans hlearnt) ?_
    obtain ⟨-, hno, l, hl, hv, hopen⟩ := hd
    have hmem : ∀ k, k ∈ s'.store.lits id ↔ k ∈ s.store.lits id := fun k =>
      (hg.store.perm id).mem_iff
    exact ⟨Or.inl ⟨id, hg.store.size ▸ hid, (hg.store.learnt id).symm.trans hlearnt, rfl⟩,
      fun k hk hin => hno k ((hmem k).mpr hk) (hg.lits.subset hin), l, (hmem l).mp hl, hv,
      hg.isOpen hs hs' hopen⟩

/-- **No active clause of a component is unit**: each has two open literals at
least. -/
def UnforcedOn (s : Solver) (c : Component) : Prop :=
  ∀ d, s.Active c d → 2 ≤ (d.filter fun l => !s.trail.isAssigned l.var).length

/-! ## The renamed copy -/

section Copy

variable {r : Renaming} {d : Clause}

theorem mem_renamedClauses_long {vs : List Var} {id : ClauseId} (hid : id ∈ c.clauses)
    (hsat : s.isSatisfied id = false) :
    (s.store.lits id).filterMap r.rename? ∈ s.renamedClauses c vs r :=
  List.mem_append_left _ (List.mem_map.mpr
    ⟨id, List.mem_filter.mpr ⟨hid, by simpa using hsat⟩, rfl⟩)

theorem mem_renamedClauses_pair {vs : List Var} {l m x y : Lit} (hv : l.var ∈ vs)
    (hm : m ∈ s.store.partners l) (hx : r.rename? l = some x) (hy : r.rename? m = some y)
    (hlt : l.code < m.code) : [x, y] ∈ s.renamedClauses c vs r := by
  refine List.mem_append_right _ (List.mem_flatMap.mpr ⟨l.var, hv, List.mem_flatMap.mpr
    ⟨l, Var.mem_lits.mpr rfl, List.mem_filterMap.mpr ⟨m, hm, ?_⟩⟩⟩)
  rw [hx, hy]
  exact if_pos (decide_eq_true hlt)

/-- **A valuation of the copy is put back** on the open variables of a closed
component. Clauses with a true literal are not in the copy, and a pair with an
assigned literal is left out of it, which is right as no pair is unit. -/
theorem renamedClauses_lift {μ ν : Valuation} (hs : Sound F s) (hr : r.Numbers (s.openVars c))
    (hclosed : s.Closed c) (hunforced : s.UnforcedOn c) (hν : GivenHold s ν)
    (htrail : ∀ l ∈ s.trail.lits.toList, l.holds ν = true)
    (hμ : allHold μ (s.renamedClauses c (s.openVars c) r) = true) :
    GivenHold s (s.patched c (r.push μ) ν)
      ∧ ∀ l ∈ s.trail.lits.toList, l.holds (s.patched c (r.push μ) ν) = true := by
  refine hs.patched_holds hν htrail fun d hd => ?_
  obtain ⟨l, hl, k, hlk, hk⟩ : ∃ l ∈ d, ∃ k, r.rename? l = some k ∧ k.holds μ = true := by
    rcases hd.1 with ⟨id, hid, hlearnt, rfl⟩ | ⟨l, m, hm, rfl⟩
    · have hsat : s.isSatisfied id = false := by
        by_contra hsat
        obtain ⟨l, hl, hin⟩ := (hs.isSatisfied_iff id).mp (by simpa using hsat)
        exact hd.2.1 l hl hin
      have hcopy : (s.store.lits id).filterMap r.rename? ∈ s.renamedClauses c (s.openVars c) r :=
        mem_renamedClauses_long (hclosed.clauses id hid hlearnt hd) hsat
      obtain ⟨k, hk, hholds⟩ := Clause.holds_iff.mp (allHold_iff.mp hμ _ hcopy)
      obtain ⟨l, hl, hlk⟩ := List.mem_filterMap.mp hk
      exact ⟨l, hl, k, hlk, hholds⟩
    · obtain ⟨hopenl, hopenm⟩ := isOpen_of_two (hunforced _ hd)
      have hlv := mem_openVars.mpr ⟨hclosed.vars _ hd l (by simp) hopenl, hopenl⟩
      have hmv := mem_openVars.mpr ⟨hclosed.vars _ hd m (by simp) hopenm, hopenm⟩
      obtain ⟨x, hx⟩ := hr.rename_of_mem hlv
      obtain ⟨y, hy⟩ := hr.rename_of_mem hmv
      have hne : l.code ≠ m.code := fun hcode => hs.store.distinct l.neg m
        (ClauseStore.mem_implied_of_partner hm) (congrArg Lit.var (Lit.code_inj.mp hcode)).symm
      have hpair : x.holds μ = true ∨ y.holds μ = true := by
        rcases Nat.lt_or_gt_of_ne hne with hlt | hlt
        · exact Clause.holds_pair.mp (allHold_iff.mp hμ _
            (mem_renamedClauses_pair hlv hm hx hy hlt))
        · exact (Clause.holds_pair.mp (allHold_iff.mp hμ _
            (mem_renamedClauses_pair hmv (hs.store.symmetric l m hm) hy hx hlt))).symm
      rcases hpair with hpair | hpair
      · exact ⟨l, by simp, x, hx, hpair⟩
      · exact ⟨m, by simp, y, hy, hpair⟩
  obtain ⟨hv, hopen⟩ := mem_openVars.mp (hr.of_rename hlk).1
  exact ⟨l, hl, hv, hopen, (Renaming.holds_push hlk).trans hk⟩

/-- **A model with the values of a completing valuation**, renamed, is a model
of the copy. -/
theorem isModel_renamedModel {ν : Valuation} {m : Model} {ls : List Lit} (hs : Sound F s)
    (hr : r.Numbers (s.openVars c)) (hspans : s.Spans c)
    (hids : ∀ id ∈ c.clauses, id < s.store.long.size) (hν : Completes F s ν)
    (hvalue : ∀ v ∈ s.openVars c, s.pool.value m v = some (ν v))
    (h : s.renamedModel (s.openVars c) r m = some ls) :
    IsModel (s.renamedClauses c (s.openVars c) r) ls := by
  have hmem : ∀ k, k ∈ ls ↔ ∃ l : Lit, l.var ∈ s.openVars c ∧ l.holds ν = true
      ∧ r.rename? l = some k := by
    intro k
    rw [mem_mapM h]
    constructor
    · rintro ⟨v, hv, hk⟩
      rw [hvalue v hv] at hk
      exact ⟨v.lit (ν v), hv, Lit.holds_iff.mpr rfl, hk⟩
    · rintro ⟨l, hl, hholds, hk⟩
      refine ⟨l.var, hl, ?_⟩
      rw [hvalue _ hl, Lit.holds_iff.mp hholds]
      exact hk
  constructor
  · intro k hk hneg
    obtain ⟨l, -, hl, hlk⟩ := (hmem k).mp hk
    obtain ⟨l', -, hl', hlk'⟩ := (hmem _).mp hneg
    rw [← hr.restore_of_rename hlk] at hl
    rw [← hr.restore_of_rename hlk', r.restore_neg, Lit.holds_neg, hl] at hl'
    cases hl'
  · intro d hd
    obtain ⟨k, hk, hholds⟩ := Clause.holds_iff.mp
      (renamedClauses_hold hs hr hspans hids hν d hd)
    obtain ⟨l, hl⟩ := rename_of_mem_renamedClauses hd hk
    refine ⟨k, hk, (hmem k).mpr ⟨l, (hr.of_rename hl).1, ?_, hl⟩⟩
    rw [← r.holds_restore, hr.restore_of_rename hl] at hholds
    exact hholds

end Copy

end Solver

end Cleave
