import Cleave.Proofs.OpenPart
import Cleave.Proofs.StandingFor

/-!
# The external backbone is exact

With an exact SAT procedure, a call that a valuation survives meets no
conflict (`Asked.reports`), and the literals it reports are forced.
A forced literal that propagation leaves open follows from the copy that the
engine works on (`Asked.entails_copy`), so it is among the engine's units.
Together this makes the call exact (`Attained.external_exact`), as long as the
solver stands for the clauses it was given.

It does as long as no variable was replaced (`Unreplaced.standsFor`), and after
that on the components without replaced variables (`Replacing.standsFor`). A
variable that was replaced occurs in no stored clause any more, so the engine does
not know that it is tied to its representative (`replaced_variable_missed`).
-/

namespace Cleave

namespace Solver

variable {F : List Clause} {b s s' : Solver} {n₀ : Nat} {c : Component}

/-! ## The call -/

/-- The state in which a call computes: counted, and in the scope of the
component. -/
def inside (s : Solver) (c : Component) : Solver :=
  { s.countBackbone fun b => { b with calls := b.calls + 1 } with scope := s.scopeOf c }

/-- **A call of a solver that is not refuted**, from what its engine gives. -/
theorem impliedLiterals_of_backbone {P : SatProcedure} {fuel : Nat} {projected : Bool}
    {ledger ledger' : ModelLedger} {r : Except ToolError ImpliedLiterals}
    (hconf : s.conflicted = false) (hvars : ∀ v ∈ c.vars, v.index < s.varCount)
    (h : (s.inside c).backbone P fuel c ledger projected = .ok (r, ledger', s')) :
    s.impliedLiterals P fuel c ledger projected
      = .ok (r.map (((s'.backtrackTo s.level).restoreScope s.scope.current).reported c s.trail.size),
        ledger', (s'.backtrackTo s.level).restoreScope s.scope.current) := by
  have henter : (s.countBackbone fun b => { b with calls := b.calls + 1 }).enterScope c
      = .ok (s.scope.current, s.inside c) :=
    Except.bind_eq_ok.mpr ⟨(), requireVars_iff.mpr hvars, rfl⟩
  unfold impliedLiterals
  simp only
  rw [if_neg (by simp [countBackbone, hconf]), henter]
  refine Except.bind_eq_ok.mpr ⟨_, rfl, Except.bind_eq_ok.mpr ⟨_, h, ?_⟩⟩
  congr 3
  funext implied
  cases implied <;> rfl

/-- **A computation that meets no conflict** reports what it stored. -/
theorem backboneByAssumptions_of_run {P : SatProcedure} {projected : Bool} {ledger : ModelLedger}
    {answer : EngineAnswer} {e : BackboneEngine P} {s₁ s₂ s₃ s₄ : Solver}
    (hp : s.propagate = (none, s₁)) (hids : ∀ id ∈ c.clauses, id < s₁.store.long.size)
    (hrun : (s₁.openEngine P c ledger).run { binaries := s₁.options.impliedBinaries }
      = .ok (answer, e)) (hsat : answer.satisfiable = true)
    (hs₂ : s₂ = (s₁.enterAnswer (s₁.openNumbers c) ledger answer).2)
    (hs₃ : s₃ = s₂.storeAnswer (s₁.openNumbers c) projected answer)
    (hp₄ : ({ s₃ with trail := s₃.trail.rewind s₂.trail.size } : Solver).propagate = (none, s₄)) :
    s.backboneByAssumptions P c ledger projected = .ok (.ok (.forced [] true),
      (s₁.enterAnswer (s₁.openNumbers c) ledger answer).1, s₄) := by
  subst hs₂ hs₃
  unfold backboneByAssumptions
  rw [hp]
  refine Except.bind_eq_ok.mpr ⟨(), requireClauses_iff.mpr hids, ?_⟩
  unfold openEngine openNumbers openVars at hrun
  simp only [hrun, hsat]
  rw [if_neg (by decide)]
  split
  · rename_i hp₅
    cases hp₄.symm.trans hp₅
  · rename_i hp₅
    obtain ⟨-, rfl⟩ := Prod.mk.inj (hp₄.symm.trans hp₅)
    rfl

/-- Without a conflict between the clauses and the assignment none is found. -/
theorem AtLevel.propagate_calm {ν : Valuation} (h : AtLevel F b n₀ s) (hb : Sound F b)
    (hν : Completes F b ν) : ∃ s', s.propagate = (none, s') ∧ Ready F b n₀ s' := by
  obtain ⟨hnone, hsome⟩ := h.propagate (Prod.eta s.propagate).symm
  cases hr : s.propagate.1 with
  | none => exact ⟨s.propagate.2, Prod.ext hr rfl, hnone hr⟩
  | some conflict =>
    obtain ⟨hcon, hlevel⟩ := hsome conflict hr
    have hholds := hν.holds hb hcon.sound hcon.within hlevel
    exact (hν.not_false hholds hcon.refutes.entailed hcon.refutes.isFalse).elim

/-- **The state in which the engine is asked**: the call has propagated in the
scope of the component, and met no conflict. -/
structure Asked (F : List Clause) (s : Solver) (c : Component) (s₁ : Solver) : Prop where
  base : Sound F s
  propagated : (s.inside c).propagate = (none, s₁)
  ready : Ready F s 0 s₁
  grown : Grown (s.inside c) s₁
  vars : ∀ v ∈ c.vars, v.index < s₁.varCount
  ids : ∀ id ∈ c.clauses, id < s₁.store.long.size
  spans : s₁.Spans c

/-- **A call gets to ask** if some valuation completes the assignment. -/
theorem Completes.asked {ν : Valuation} (hν : Completes F s ν) (hs : Sound F s)
    (hvars : ∀ v ∈ c.vars, v.index < s.varCount)
    (hids : ∀ id ∈ c.clauses, id < s.store.long.size) (hspans : s.Spans c) :
    ∃ s₁, Asked F s c s₁ := by
  have hstart : AtLevel F s 0 (s.inside c) := .start hs 0 _ _
  obtain ⟨s₁, hp, hready⟩ := hstart.propagate_calm hs hν
  have hg : Grown (s.inside c) s₁ := (propagate_spec hstart.sound hp).1.grown
  exact ⟨s₁, hs, hp, hready, hg, hready.within.varCount ▸ hvars,
    fun id hid => hg.store.size ▸ hids id hid,
    Spans.grown (s := s.inside c) hspans hstart.sound hready.sound hg⟩

namespace Asked

variable {P : SatProcedure} {s₁ : Solver} {ν : Valuation} (h : Asked F s c s₁)

include h

theorem completes (hν : Completes F s ν) : Completes F s₁ ν :=
  ⟨hν.1, hν.holds h.base h.ready.sound h.ready.within h.ready.level⟩

theorem isOpen {v : Var} (hopen : s₁.trail.isAssigned v = false) :
    s.trail.isAssigned v = false :=
  h.grown.isOpen (F := F) h.base h.ready.sound hopen

theorem closed (hclosed : s.Closed c) : s₁.Closed c :=
  Closed.grown (s := s.inside c) (F := F) ⟨hclosed.vars, hclosed.clauses⟩ h.base h.ready.sound
    h.grown

theorem numbers : (s₁.openNumbers c).Numbers (s₁.openVars c) := numbers_open h.vars

/-- The engine answers, and does not deny that there is a valuation. -/
theorem answers (hP : P.Exact) (hν : Completes F s ν) (ledger : ModelLedger)
    (request : EngineRequest) :
    ∃ answer e, (s₁.openEngine P c ledger).run request = .ok (answer, e)
      ∧ answer.satisfiable = true
      ∧ BackboneEngine.Right (fun μ => ∃ ν, Completes F s₁ ν ∧ μ = (s₁.openNumbers c).pull ν)
        (s₁.openNumbers c).size answer := by
  have hlive : (s₁.openEngine P c ledger).Live :=
    ((BackboneEngine.live_new P (s₁.openNumbers c).size).addClauses hP.trusted _
      (over_renamedClauses h.numbers)).addModels _
  obtain ⟨answer, e, hrun⟩ := hlive.run hP request
  have hright := openEngine_spec h.ready.sound (Or.inl ⟨hP.trusted, h.spans⟩) h.vars h.ids hrun
  refine ⟨answer, e, hrun, ?_, hright⟩
  by_contra hno
  exact hright.refuted (by simpa using hno) _ ⟨ν, h.completes hν, rfl⟩

/-- **The rest of the call**: the answer is stored and propagated, and what is
assigned then is reported. -/
theorem reports (hP : P.Exact) (hν : Completes F s ν) (hengine : s.options.engine = .external)
    (fuel : Nat) (ledger : ModelLedger) (projected : Bool) :
    ∃ answer e,
      (s₁.openEngine P c ledger).run { binaries := s₁.options.impliedBinaries } = .ok (answer, e)
      ∧ ∃ ledger' s', s.impliedLiterals P fuel c ledger projected
          = .ok (.ok (.forced ((s'.trail.litsFrom s.trail.size).filter fun l => c.contains l.var)
            true), ledger', s')
        ∧ Ready F s 0 s' ∧ s₁.trail.lits.toList <+: s'.trail.lits.toList
        ∧ ∀ l ∈ answer.units.map (s₁.openNumbers c).restore,
          (projected = true → s.isProjected l.var = true) → s'.trail.isAssigned l.var = true := by
  obtain ⟨answer, e, hrun, hsat, hright⟩ := h.answers hP hν ledger
    { binaries := s₁.options.impliedBinaries }
  obtain ⟨hstored, hpre, hassigned⟩ := h.ready.storeAnswer ledger projected h.vars hright
  obtain ⟨s₄, hp₄, hready₄⟩ := (hstored.rewind
    (s₁.enterAnswer (s₁.openNumbers c) ledger answer).2.trail.size).propagate_calm h.base hν
  have hpre₄ := (propagate_spec (hstored.rewind _).sound hp₄).1.grown.lits
  have hback : (s.inside c).backbone P fuel c ledger projected = .ok (.ok (.forced [] true),
      (s₁.enterAnswer (s₁.openNumbers c) ledger answer).1, s₄) := by
    unfold backbone
    rw [show (s.inside c).options.engine = .external from hengine]
    exact backboneByAssumptions_of_run h.propagated h.ids hrun hsat rfl rfl hp₄
  have hconf : s.conflicted = false := by
    by_contra hconf
    exact h.base.refuted (by simpa using hconf) ⟨ν, hν.1⟩
  have hcall := impliedLiterals_of_backbone hconf (h.ready.within.varCount ▸ h.vars) hback
  rw [backtrackTo_of_le (Nat.le_of_eq hready₄.level)] at hcall
  refine ⟨answer, e, hrun, _, s₄.restoreScope s.scope.current, hcall, hready₄.rewind _ _,
    hpre.trans hpre₄, fun l hl hproj => ?_⟩
  obtain ⟨x, hx, hv⟩ := hstored.sound.trail.isAssigned_iff.mp (hassigned l hl hproj)
  exact hready₄.sound.trail.isAssigned_iff.mpr ⟨x, hpre₄.subset hx, hv⟩

/-! ## Exactness -/

/-- A model of the ledger is one of the copy. -/
theorem isModel_known {m : Model} {ls : List Lit} (hclosed : s.Closed c)
    (hstands : StandsFor F s c) (hν : Completes F s ν) (hfits : Fits s c s.pool m)
    (hls : s₁.renamedModel (s₁.openVars c) (s₁.openNumbers c) m = some ls) :
    IsModel (s₁.renamedClauses c (s₁.openVars c) (s₁.openNumbers c)) ls := by
  obtain ⟨ν', hν', hvalue⟩ := hfits.valuation h.base hstands hclosed hν
  refine isModel_renamedModel h.ready.sound h.numbers h.spans h.ids (h.completes hν')
    (fun v hv => ?_) hls
  obtain ⟨hv, hopen⟩ := mem_openVars.mp hv
  rw [show s₁.pool = s.pool from (congrArg Solver.pool h.grown.others).symm]
  exact hvalue v hv (h.isOpen hopen)

/-- **A forced literal is implied by the copy**: a valuation of the copy in
which it is false would be one of the solver. -/
theorem entails_copy {l k : Lit} (hclosed : s.Closed c) (hstands : StandsFor F s c)
    (hν : Completes F s ν) (hunforced : s₁.UnforcedOn c) (hl : IsForced F s c l)
    (hk : (s₁.openNumbers c).rename? l = some k) :
    Entails (s₁.renamedClauses c (s₁.openVars c) (s₁.openNumbers c)) [k] := by
  intro μ hμ
  have hν₁ := h.completes hν
  obtain ⟨hgiven, htrail⟩ := renamedClauses_lift h.ready.sound h.numbers (h.closed hclosed)
    hunforced (hν₁.givenHold h.ready.sound) hν₁.2 hμ
  obtain ⟨ν', hν', hsame⟩ := hstands _
    (hgiven.of_keeps h.ready.within.given h.ready.within.roots)
    fun x hx => htrail x (h.ready.within.lits.subset hx)
  obtain ⟨-, hopen⟩ := mem_openVars.mp (h.numbers.of_rename hk).1
  have hholds := Lit.holds_iff.mp (hl.holds ν' hν')
  rw [hsame _ hl.var, patched_inner hl.var hopen] at hholds
  exact Clause.holds_singleton.mpr
    ((Renaming.holds_push hk).symm.trans (Lit.holds_iff.mpr hholds))

/-- **The engine finds every forced literal** that propagation left open. -/
theorem mem_units {ledger : ModelLedger} {request : EngineRequest} {answer : EngineAnswer}
    {e : BackboneEngine P} {l : Lit} (hP : P.Exact) (hclosed : s.Closed c)
    (hstands : StandsFor F s c) (hν : Completes F s ν) (hunforced : s₁.UnforcedOn c)
    (hledger : ∀ m ∈ ledger.models, Fits s c s.pool m) (hunits : request.units = true)
    (hrun : (s₁.openEngine P c ledger).run request = .ok (answer, e)) (hl : IsForced F s c l)
    (hopen : s₁.trail.isAssigned l.var = false) :
    l ∈ answer.units.map (s₁.openNumbers c).restore := by
  have hr := h.numbers
  obtain ⟨k, hk⟩ := hr.rename_of_mem (mem_openVars.mpr ⟨hl.var, hopen⟩)
  have hknown : ∀ ls ∈ ledger.models.filterMap
      (s₁.renamedModel (s₁.openVars c) (s₁.openNumbers c)),
      IsModel (s₁.renamedClauses c (s₁.openVars c) (s₁.openNumbers c)) ls := by
    intro ls hls
    obtain ⟨m, hm, hls⟩ := List.mem_filterMap.mp hls
    exact h.isModel_known hclosed hstands hν (hledger m hm) hls
  obtain ⟨answer', e', hrun', hexact⟩ := BackboneEngine.run_known hP (over_renamedClauses hr)
    hknown hunits
  obtain rfl : answer = answer' := congrArg Prod.fst (Except.ok.inj (hrun.symm.trans hrun'))
  refine List.mem_map.mpr ⟨k, (hexact.units k).mpr ⟨?_, (hr.of_rename hk).2,
    h.entails_copy hclosed hstands hν hunforced hl hk⟩, hr.restore_of_rename hk⟩
  exact ⟨_, allHold_iff.mpr
    (renamedClauses_hold h.ready.sound hr h.spans h.ids (h.completes hν))⟩

end Asked

/-- **All that is stored follows from some clauses**; a raised flag stands for
the empty clause. -/
structure StoresFrom (F : List Clause) (s : Solver) : Prop where
  clauses : s.store.EntailedBy F
  refuted : s.conflicted = true → ¬ Satisfiable F

theorem Reachable.storesFrom (h : Reachable F s) : s.StoresFrom F :=
  ⟨h.sound.entailed, h.sound.refuted⟩

/-- The clauses together with the assignment. -/
def underTrail (F : List Clause) (s : Solver) : List Clause :=
  F ++ s.trail.lits.toList.map fun l => [l]

theorem entails_underTrail {l : Lit} (hl : l ∈ s.trail.lits.toList) :
    Entails (underTrail F s) [l] :=
  .of_mem (List.mem_append_right _ (List.mem_map.mpr ⟨l, hl, rfl⟩))

theorem completes_iff_underTrail {ν : Valuation} :
    Completes F s ν ↔ allHold ν (underTrail F s) = true := by
  unfold Completes underTrail
  rw [allHold_iff, allHold_iff]
  constructor
  · rintro ⟨hF, htrail⟩ d hd
    rcases List.mem_append.mp hd with hd | hd
    · exact hF d hd
    · obtain ⟨l, hl, rfl⟩ := List.mem_map.mp hd
      exact Clause.holds_singleton.mpr (htrail l hl)
  · intro h
    exact ⟨fun d hd => h d (List.mem_append_left _ hd), fun l hl => Clause.holds_singleton.mp
      (h [l] (List.mem_append_right _ (List.mem_map.mpr ⟨l, hl, rfl⟩)))⟩

theorem completes_underTrail {ν : Valuation} (h : Completes F s ν) :
    Completes (underTrail F s) s ν :=
  ⟨completes_iff_underTrail.mp h, h.2⟩

theorem IsForced.underTrail {l : Lit} (h : IsForced F s c l) :
    IsForced (underTrail F s) s c l :=
  ⟨h.var, h.isOpen, fun ν hν => h.holds ν (completes_iff_underTrail.mpr hν.1)⟩

theorem StandsFor.underTrail (h : StandsFor F s c) : StandsFor (underTrail F s) s c := by
  intro ν hgiven htrail
  obtain ⟨ν', hν', hsame⟩ := h ν hgiven htrail
  exact ⟨ν', completes_underTrail hν', hsame⟩

/-- **The invariant in any state**, for the clauses that the stored ones follow
from together with the assignment: a literal on the trail needs no other
reason then. -/
theorem Attained.sound_underTrail (h : Attained s) (hF : s.StoresFrom F) :
    Sound (underTrail F s) s := by
  have hs := h.sound
  have hmono : ∀ {d : Clause}, Entails F d → Entails (underTrail F s) d := fun hd =>
    hd.mono fun _ => List.mem_append_left _
  refine ⟨hs.trail, hs.store, hs.watches, hs.listed, ⟨fun l hl => hmono (hF.clauses.units l hl),
    fun l b hb => hmono (hF.clauses.binary l b hb), fun d hd => hmono (hF.clauses.long d hd)⟩, ?_,
    hs.pending, fun hconf ⟨ν, hν⟩ => hF.refuted hconf ⟨ν, (completes_iff_underTrail.mpr hν).1⟩⟩
  intro pre l post hsplit
  exact (hs.justified pre l post hsplit).transfer fun _ => entails_underTrail (hsplit ▸ by simp)

/-- **The external backbone is exact.** With an exact procedure, in a state
that any calls led to, let all that is stored follow from `F`, let the
component be closed and have all open variables of its clauses, let no active
clause be unit once the call has propagated, and let the models of the ledger
fit. Then a refutation is right. If a valuation completes the assignment, the
call reports literals that are forced, one for each variable, as complete; and
if no variable was replaced, or the solver stands for `F` on the component in
spite of it, it reports all that are forced, or all over the projection. -/
theorem Attained.external_exact {P : SatProcedure} (hP : P.Exact) (h : Attained s)
    (hF : s.StoresFrom F) (hengine : s.options.engine = .external)
    (hvars : ∀ v ∈ c.vars, v.index < s.varCount)
    (hids : ∀ id ∈ c.clauses, id < s.store.long.size) (hclosed : s.Closed c) (hspans : s.Spans c)
    (hunforced : ∀ s₁, (s.inside c).propagate = (none, s₁) → s₁.UnforcedOn c)
    {ledger : ModelLedger} (hledger : ∀ m ∈ ledger.models, Fits s c s.pool m) (fuel : Nat)
    (projected : Bool) :
    (∀ clause ledger' s', s.impliedLiterals P fuel c ledger projected
        = .ok (.ok (.unsatisfiable clause), ledger', s') → ∀ ν, ¬ Completes F s ν)
      ∧ ((∃ ν, Completes F s ν) → ∃ lits ledger' s',
        s.impliedLiterals P fuel c ledger projected = .ok (.ok (.forced lits true), ledger', s')
          ∧ (lits.map Lit.var).Nodup ∧ (∀ l ∈ lits, IsForced F s c l)
          ∧ (Unreplaced F s ∨ StandsFor F s c → ∀ l, IsForced F s c l →
            (projected = true → s.isProjected l.var = true) → l ∈ lits)) := by
  have hs := h.sound_underTrail hF
  refine ⟨fun clause ledger' s' hr ν hν => ?_, fun ⟨ν, hν⟩ => ?_⟩
  · have hcon := impliedLiterals_concludes hs (Or.inl (Or.inr ⟨hP.trusted, hspans⟩)) hr 0
    obtain ⟨hent, hfalse⟩ := hcon.refuted clause rfl
    have hν := completes_underTrail hν
    exact hν.not_false (hν.holds hs hcon.sound hcon.within hcon.level) hent hfalse
  · obtain ⟨s₁, hasked⟩ := (completes_underTrail hν).asked hs hvars hids hspans
    obtain ⟨answer, e, hrun, ledger', s', hcall, hready, hpre, hassigned⟩ :=
      hasked.reports hP (completes_underTrail hν) hengine fuel ledger projected
    have hholds : ∀ ν, Completes F s ν → ∀ l ∈ s'.trail.lits.toList, l.holds ν = true :=
      fun ν hν => (completes_underTrail hν).holds hs hready.sound hready.within hready.level
    have hmem : ∀ l, l ∈ (s'.trail.litsFrom s.trail.size).filter (fun l => c.contains l.var)
        ↔ (l ∈ s'.trail.lits.toList ∧ s.trail.isAssigned l.var = false) ∧ l.var ∈ c.vars := by
      intro l
      rw [List.mem_filter, hready.within.mem_litsFrom hs hready.sound]
      simp [Component.contains]
    refine ⟨_, ledger', s', hcall, ?_, fun l hl => ?_, fun hkept l hl hproj => ?_⟩
    · refine hready.sound.trail.nodup.sublist (List.Sublist.map _ ?_)
      exact List.filter_sublist.trans (List.drop_sublist _ _)
    · obtain ⟨⟨hin, hopen⟩, hv⟩ := (hmem l).mp hl
      exact ⟨hv, hopen, fun ν' hν' => hholds ν' hν' l hin⟩
    · have hstands : StandsFor F s c := hkept.elim (fun h => h.standsFor ⟨ν, hν.1⟩) id
      -- propagation has assigned the literal, or the engine finds it
      have hl' : s'.trail.isAssigned l.var = true := by
        by_cases hopen : s₁.trail.isAssigned l.var = true
        · obtain ⟨x, hx, hv⟩ := hasked.ready.sound.trail.isAssigned_iff.mp hopen
          exact hready.sound.trail.isAssigned_iff.mpr ⟨x, hpre.subset hx, hv⟩
        · refine hassigned l (hasked.mem_units hP hclosed hstands.underTrail
            (completes_underTrail hν) (hunforced s₁ hasked.propagated) hledger rfl hrun
            hl.underTrail (by simpa using hopen)) hproj
      obtain ⟨x, hx, hv⟩ := hready.sound.trail.isAssigned_iff.mp hl'
      obtain rfl : x = l := Lit.eq_of_holds hv (hholds ν hν x hx) (hl.holds ν hν)
      exact (hmem x).mpr ⟨⟨hx, hl.isOpen⟩, hl.var⟩

/-- Two clauses that force a variable without being unit. -/
def crossed : Formula :=
  { clauses := [[Var.pos ⟨0⟩, Var.pos ⟨1⟩], [Var.pos ⟨0⟩, Var.neg ⟨1⟩]] }

/-- The options for the external engine. -/
def externally : Options := { engine := .external }

/-- A model of `crossed`, in a pool of its own. -/
def crossedModel : Model × ModelPool :=
  let (m, pool) := ModelPool.allocate {} 2
  pool.assignAll m [Var.pos ⟨0⟩, Var.pos ⟨1⟩]

/-- The solver for `crossed`, with its model. -/
def crossedSolver : Solver := { ofFormula crossed externally with pool := crossedModel.2 }

theorem crossedSolver_eq : crossedSolver =
    { ((((new externally).growTo 2).growTo 2).insertClause [Var.pos ⟨0⟩, Var.pos ⟨1⟩] false).growTo
        2 |>.insertClause [Var.pos ⟨0⟩, Var.neg ⟨1⟩] false with pool := crossedModel.2 } := by
  rw [crossedSolver, ofFormula_of_ascending (f := crossed) (by decide) rfl]
  rfl

/-- Before anything is assigned no clause is unit. -/
theorem unforcedOn_of_empty (hs : Sound F s) (hempty : s.trail.lits.toList = []) :
    s.UnforcedOn c := by
  intro d hd
  have hopen : ∀ v, s.trail.isAssigned v = false := by
    intro v
    by_contra ha
    obtain ⟨x, hx, -⟩ := hs.trail.isAssigned_iff.mp (by simpa using ha)
    rw [hempty] at hx
    cases hx
  rw [List.filter_eq_self.mpr fun l _ => by simp [hopen]]
  rcases hd.1 with ⟨id, -, -, rfl⟩ | ⟨l, m, -, rfl⟩
  · simp [ClauseStore.lits, LongClause.lits]
  · exact Nat.le_refl 2

/-- Nothing is assigned, and there is nothing to propagate. -/
theorem crossedSolver_state : crossedSolver.trail.lits.toList = []
    ∧ crossedSolver.trail.head = crossedSolver.trail.lits.size
    ∧ crossedSolver.options.engine = .external ∧ crossedSolver.trail.isAssigned ⟨0⟩ = false
    ∧ Var.pos ⟨1⟩ ∈ crossedSolver.store.partners (Var.pos ⟨0⟩)
    ∧ crossedModel.1.buffer < crossedSolver.pool.buffers.size
    ∧ ∀ v ∈ Var.range crossedSolver.varCount,
      crossedSolver.pool.value crossedModel.1 v = some true := by
  rw [crossedSolver_eq]
  decide +kernel

theorem reachable_crossedSolver : Reachable crossed.clauses crossedSolver :=
  .call (.ofFormula crossed externally) (.models _ _ _)

/-- The first variable is forced by the two clauses together. -/
theorem isForced_crossed :
    IsForced crossed.clauses crossedSolver crossedSolver.initComponent (Var.pos ⟨0⟩) := by
  obtain ⟨-, -, -, hopen, hpair, -, -⟩ := crossedSolver_state
  refine ⟨reachable_crossedSolver.sound.mem_initComponent (Or.inr ⟨_, _, hpair, rfl⟩)
    List.mem_cons_self hopen, hopen, fun ν hν => ?_⟩
  have h₁ := Clause.holds_pair.mp (allHold_iff.mp hν.1 [Var.pos ⟨0⟩, Var.pos ⟨1⟩] (by decide))
  have h₂ := Clause.holds_pair.mp (allHold_iff.mp hν.1 [Var.pos ⟨0⟩, Var.neg ⟨1⟩] (by decide))
  refine h₁.elim id fun h₁ => h₂.resolve_right fun h₂ => ?_
  rw [Lit.not_holds_of_neg (l := Var.neg ⟨1⟩) h₁] at h₂
  cases h₂

theorem Attained.external_exact_crossed : ∃ lits ledger' s',
    Fits crossedSolver crossedSolver.initComponent crossedSolver.pool crossedModel.1
      ∧ crossedSolver.impliedLiterals splitting 1 crossedSolver.initComponent ⟨[crossedModel.1]⟩
        false = .ok (.ok (.forced lits true), ledger', s')
      ∧ Var.pos ⟨0⟩ ∈ lits := by
  obtain ⟨hempty, hhead, hengine, -, -, hbuffer, hvalue⟩ := crossedSolver_state
  have hs := reachable_crossedSolver.sound
  have hν : Completes crossed.clauses crossedSolver fun _ => true :=
    ⟨by decide, hempty ▸ fun _ hl => absurd hl List.not_mem_nil⟩
  have hvars : ∀ v ∈ crossedSolver.initComponent.vars, v.index < crossedSolver.varCount :=
    fun _ hv => index_lt_of_mem_initComponent hv
  have hfits : Fits crossedSolver crossedSolver.initComponent crossedSolver.pool crossedModel.1 :=
    .of_completes hs hν hvars hbuffer hvalue
  have hunforced : ∀ s₁, (crossedSolver.inside crossedSolver.initComponent).propagate = (none, s₁) →
      s₁.UnforcedOn crossedSolver.initComponent := by
    intro s₁ hp
    rw [propagate_of_head (s := crossedSolver.inside _) hhead] at hp
    obtain ⟨-, rfl⟩ := Prod.mk.inj hp
    exact unforcedOn_of_empty (F := crossed.clauses) hs hempty
  obtain ⟨lits, ledger', s', hcall, -, -, hall⟩ :=
    (reachable_crossedSolver.attained.external_exact splitting_exact
      reachable_crossedSolver.storesFrom hengine hvars
      (fun id hid => (mem_clauses_initComponent hid).1) hs.closed_initComponent
      hs.spans_initComponent hunforced
      (List.forall_mem_singleton.mpr hfits : ∀ m ∈ (⟨[crossedModel.1]⟩ : ModelLedger).models, _) 1
      false).2 ⟨_, hν⟩
  refine ⟨lits, ledger', s', hfits, hcall, hall (Or.inr fun ν hgiven htrail => ?_) _
    isForced_crossed fun h => absurd h Bool.false_ne_true⟩
  exact (Unreplaced.ofFormula crossed externally).standsFor ⟨_, hν.1⟩ ν
    ⟨hgiven.roots, hgiven.given⟩ htrail

/-! ### Where a variable was replaced -/

/-- A substitution that ends without a conflict, from its parts. -/
theorem substitute_of_parts {e e' : Equivalences} {replaced : List (Var × Lit)}
    (h0 : s.level = 0) (hconf : s.conflicted = false) (he : s.equivalences? = some e)
    (hr : replacedVars e (Var.range s.varCount) = (replaced, e')) (hne : replaced ≠ [])
    (hp : (s.restarted e' ⟨replaced⟩).propagateFrom 0 = (none, s')) :
    s.substitute = .ok (⟨replaced⟩, s') := by
  unfold substitute
  rw [if_neg (by simp [h0]), if_neg (by simp [hconf]), he]
  cases replaced with
  | nil => exact absurd rfl hne
  | cons x rest =>
    unfold restarted at hp
    simp only [hr, hp]

/-- Two tied variables, one of which is true. -/
def tiedFact : Formula :=
  { clauses := [[Var.neg ⟨0⟩, Var.pos ⟨1⟩], [Var.pos ⟨0⟩, Var.neg ⟨1⟩],
      [Var.pos ⟨0⟩, Var.pos ⟨1⟩]] }

/-- The solver for `tiedFact`. -/
def tiedFactSolver : Solver := ofFormula tiedFact externally

theorem tiedFactSolver_eq : tiedFactSolver =
    (((((((new externally).growTo 2).growTo 2).insertClause [Var.neg ⟨0⟩, Var.pos ⟨1⟩] false).growTo
      2).insertClause [Var.pos ⟨0⟩, Var.neg ⟨1⟩] false).growTo 2).insertClause
        [Var.pos ⟨0⟩, Var.pos ⟨1⟩] false :=
  ofFormula_of_ascending (by decide) rfl externally

/-- The classes of `tiedFact`: the second variable points to the first one. -/
def tiedClasses : Equivalences := ⟨⟨#[Var.pos ⟨0⟩, Var.pos ⟨0⟩]⟩⟩

/-- Both variables are in one class, and nothing is decided. -/
theorem tiedFactSolver_state :
    tiedFactSolver.equivalences?.map (·.parent.entries) = some tiedClasses.parent.entries
    ∧ tiedFactSolver.store.exported = [([Var.neg ⟨0⟩, Var.pos ⟨1⟩], false),
      ([Var.pos ⟨0⟩, Var.neg ⟨1⟩], false), ([Var.pos ⟨0⟩, Var.pos ⟨1⟩], false)]
    ∧ tiedFactSolver.varCount = 2 ∧ tiedFactSolver.level = 0
    ∧ tiedFactSolver.conflicted = false := by
  rw [tiedFactSolver_eq]
  decide +kernel

theorem equivalences_tied : tiedFactSolver.equivalences? = some tiedClasses := by
  obtain ⟨⟨⟨entries⟩⟩, he, hentries⟩ := Option.map_eq_some_iff.mp tiedFactSolver_state.1
  cases hentries
  exact he

/-- The implications become tautologies, and the third clause a fact. -/
theorem insertReplaced_tied (s : Solver) : s.insertReplaced tiedClasses
    [([Var.neg ⟨0⟩, Var.pos ⟨1⟩], false), ([Var.pos ⟨0⟩, Var.neg ⟨1⟩], false),
      ([Var.pos ⟨0⟩, Var.pos ⟨1⟩], false)] = s.insertClause [Var.pos ⟨0⟩] false := by
  have h₁ : tiedClasses.findAll [Var.neg ⟨0⟩, Var.pos ⟨1⟩]
      = ([Var.neg ⟨0⟩, Var.pos ⟨0⟩], tiedClasses) := by cbv
  have h₂ : tiedClasses.findAll [Var.pos ⟨0⟩, Var.neg ⟨1⟩]
      = ([Var.pos ⟨0⟩, Var.neg ⟨0⟩], tiedClasses) := by cbv
  have h₃ : tiedClasses.findAll [Var.pos ⟨0⟩, Var.pos ⟨1⟩]
      = ([Var.pos ⟨0⟩, Var.pos ⟨0⟩], tiedClasses) := by cbv
  have n₁ : Clause.normalize [Var.neg ⟨0⟩, Var.pos ⟨0⟩] = none := by cbv
  have n₂ : Clause.normalize [Var.pos ⟨0⟩, Var.neg ⟨0⟩] = none := by cbv
  have n₃ : Clause.normalize [Var.pos ⟨0⟩, Var.pos ⟨0⟩] = some [Var.pos ⟨0⟩] := by cbv
  simp only [insertReplaced, h₁, h₂, h₃, n₁, n₂, n₃]

theorem replaced_tied : replacedVars tiedClasses (Var.range tiedFactSolver.varCount)
    = ([(⟨1⟩, Var.pos ⟨0⟩)], tiedClasses) := by
  rw [tiedFactSolver_state.2.2.1]
  cbv

/-- The solver with that fact stored anew. -/
def tiedRestarted : Solver :=
  let s := ({ tiedFactSolver with
    projection := moveProjection tiedFactSolver.projection (⟨1⟩, Var.pos ⟨0⟩) }
      : Solver).emptied.insertClause [Var.pos ⟨0⟩] false
  { s with order := VarOrder.empty.resize s.varCount, activity := s.activity.reset }

theorem restarted_tied :
    tiedFactSolver.restarted tiedClasses ⟨[(⟨1⟩, Var.pos ⟨0⟩)]⟩ = tiedRestarted := by
  unfold restarted
  simp only [rebuild_eq, tiedFactSolver_state.2.1, insertReplaced_tied]
  rfl

/-- What the substitution leaves. -/
def tiedRest : Solver := (tiedRestarted.propagateFrom 0).2

/-- Nothing is left but the fact, and the call for the replaced variable reports
nothing. -/
theorem tiedRest_state : (tiedRestarted.propagateFrom 0).1.isNone = true
    ∧ tiedRest.trail.lits.toList = [Var.pos ⟨0⟩]
    ∧ tiedRest.trail.head = tiedRest.trail.lits.size ∧ tiedRest.options.engine = .external
    ∧ tiedRest.varCount = 2 ∧ tiedRest.trail.isAssigned ⟨1⟩ = false
    ∧ tiedRest.store.long.size = 0
    ∧ (∀ l ∈ (Var.range 2).flatMap Var.lits, tiedRest.store.partners l = [])
    ∧ (tiedRest.impliedLiterals splitting 1 ⟨[⟨1⟩], []⟩ ⟨[]⟩ false).toOption.any
      (fun r => match r.1 with
        | .ok (.forced lits _) => lits = []
        | _ => false) = true := by
  unfold tiedRest tiedRestarted
  rw [tiedFactSolver_eq]
  decide +kernel

theorem substitute_tied : tiedFactSolver.substitute
    = .ok (⟨[(⟨1⟩, Var.pos ⟨0⟩)]⟩, tiedRest) := by
  obtain ⟨-, -, -, hlevel, hconflicted⟩ := tiedFactSolver_state
  refine substitute_of_parts hlevel hconflicted equivalences_tied replaced_tied (by simp) ?_
  rw [restarted_tied]
  exact Prod.ext (Option.isNone_iff_eq_none.mp tiedRest_state.1) rfl

theorem reachable_tiedRest : Reachable tiedFact.clauses tiedRest :=
  .call (.ofFormula tiedFact externally) (.substitute substitute_tied)

/-- On the variable that was kept the solver still stands for the clauses. -/
theorem standsFor_tiedRest : StandsFor tiedFact.clauses tiedRest ⟨[⟨0⟩], []⟩ :=
  (Unreplaced.ofFormula tiedFact externally).standsFor_of_substitute ⟨fun _ => true, by decide⟩
    substitute_tied (by decide)

theorem not_given_tiedRest (d : Clause) : ¬ tiedRest.store.Given d := by
  obtain ⟨-, -, -, -, hcount, -, hlong, hpairs, -⟩ := tiedRest_state
  intro hd
  have hrange := fun l hl => (reachable_tiedRest.sound.occurs_of_given hd (l := l) hl).1
  rcases hd with ⟨id, hid, -⟩ | ⟨l, m, hm, rfl⟩
  · exact absurd (hlong ▸ hid) (Nat.not_lt_zero id)
  · have hl : l ∈ (Var.range 2).flatMap Var.lits := List.mem_flatMap.mpr
      ⟨l.var, Var.mem_range.mpr (hcount ▸ hrange l List.mem_cons_self), Var.mem_lits.mpr rfl⟩
    rw [hpairs l hl] at hm
    cases hm

/-- **A replaced variable is missed**: both variables are true in all models of
the clauses, but the one that was replaced is not reported. -/
theorem replaced_variable_missed : ¬ ∀ (F : List Clause) (s : Solver) (c : Component)
    (P : SatProcedure) (fuel : Nat) (ledger : ModelLedger), P.Exact → Reachable F s →
      s.options.engine = .external → (∀ v ∈ c.vars, v.index < s.varCount) →
      (∀ id ∈ c.clauses, id < s.store.long.size) → s.Closed c → s.Spans c →
      (∀ s₁, (s.inside c).propagate = (none, s₁) → s₁.UnforcedOn c) →
      (∀ m ∈ ledger.models, Fits s c s.pool m) → (∃ ν, Completes F s ν) →
      ∃ lits ledger' s', s.impliedLiterals P fuel c ledger false
          = .ok (.ok (.forced lits true), ledger', s')
        ∧ ∀ l, IsForced F s c l → l ∈ lits := by
  intro hclaim
  obtain ⟨-, hlits, hhead, hengine, hcount, hopen, -, -, hrun⟩ := tiedRest_state
  have hactive : ∀ {s₁ : Solver}, s₁.store = tiedRest.store → ∀ d, ¬ s₁.Active ⟨[⟨1⟩], []⟩ d :=
    fun heq d hd => not_given_tiedRest d (heq ▸ hd.1)
  have hunforced : ∀ s₁, (tiedRest.inside ⟨[⟨1⟩], []⟩).propagate = (none, s₁) →
      s₁.UnforcedOn ⟨[⟨1⟩], []⟩ := by
    intro s₁ hp
    rw [propagate_of_head (s := tiedRest.inside _) hhead] at hp
    obtain ⟨-, rfl⟩ := Prod.mk.inj hp
    exact fun d hd => absurd hd (hactive rfl d)
  have hν : Completes tiedFact.clauses tiedRest fun _ => true := by
    refine ⟨by decide, fun l hl => ?_⟩
    rw [hlits] at hl
    exact List.mem_singleton.mp hl ▸ rfl
  have hforced : IsForced tiedFact.clauses tiedRest ⟨[⟨1⟩], []⟩ (Var.pos ⟨1⟩) := by
    refine ⟨List.mem_cons_self, hopen, fun ν hν => ?_⟩
    have h₁ := Clause.holds_pair.mp (allHold_iff.mp hν.1 [Var.neg ⟨0⟩, Var.pos ⟨1⟩] (by decide))
    have h₂ := Clause.holds_pair.mp (allHold_iff.mp hν.1 [Var.pos ⟨0⟩, Var.pos ⟨1⟩] (by decide))
    refine h₂.elim (fun h₂ => h₁.resolve_left fun h₁ => ?_) id
    rw [Lit.not_holds_of_neg (l := Var.neg ⟨0⟩) h₂] at h₁
    cases h₁
  obtain ⟨lits, ledger', s', hcall, hall⟩ := hclaim tiedFact.clauses tiedRest ⟨[⟨1⟩], []⟩
    splitting 1 ⟨[]⟩ splitting_exact reachable_tiedRest hengine
    (fun v hv => List.mem_singleton.mp hv ▸ hcount ▸ Nat.one_lt_two)
    (fun _ h => absurd h List.not_mem_nil)
    ⟨fun d hd => absurd hd (hactive rfl d), fun _ _ _ hd => absurd hd (hactive rfl _)⟩
    (fun _ h => absurd h List.not_mem_nil) hunforced (fun _ h => absurd h List.not_mem_nil) ⟨_, hν⟩
  rw [hcall] at hrun
  obtain rfl : lits = [] := of_decide_eq_true hrun
  cases hall _ hforced

end Solver

end Cleave
