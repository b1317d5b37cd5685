import Cleave.Backbone.Engine
import Cleave.Proofs.LookupSolver
import Mathlib.Data.List.Basic

/-!
# Backbones by assumption probing are right

The engine concludes from the questions to which a SAT procedure finds no
model. Let `V` be valuations that satisfy all clauses the engine was given
(`BackboneEngine.Serves`). If the procedure never denies a model that exists
(`SatProcedure.Trusted`), then every implied literal and every implied binary
clause of an answer is true under all of `V`. That the models found are models
is not needed: they only rule candidates out.
-/

namespace Cleave

/-- **A procedure that is right about some valuations**: it is trusted, or
there are none. -/
def SatProcedure.TrustedOn (P : SatProcedure) (V : Valuation → Prop) : Prop :=
  P.Trusted ∨ ∀ ν, ¬ V ν

theorem SatProcedure.TrustedOn.trusted {P : SatProcedure} {V : Valuation → Prop}
    (hP : P.TrustedOn V) : (∃ ν, V ν) → P.Trusted :=
  fun ⟨ν, hν⟩ => hP.resolve_right fun hno => hno ν hν

/-! ## The engine -/

namespace BackboneEngine

variable {P : SatProcedure} {V : Valuation → Prop} {e e' : BackboneEngine P}

/-- The clauses are over the engine's variables. -/
def Over (cs : List Clause) (count : Nat) : Prop := ∀ c ∈ cs, ∀ l ∈ c, l.var.index < count

/-- **The engine serves some valuations** if they satisfy all its clauses. It can look
up every variable. -/
structure Serves (V : Valuation → Prop) (e : BackboneEngine P) : Prop where
  size : e.solver.mapped.size = e.varCount
  clauses : (∃ ν, V ν) → ∃ cs, e.solver.Stands cs ∧ ∀ ν, V ν → allHold ν cs = true

theorem serves_new (V : Valuation → Prop) (P : SatProcedure) (count : Nat) :
    (new P count).Serves V :=
  ⟨VarTable.size_sized count, fun _ => ⟨[], LookupSolver.stands_new P count, fun _ _ => rfl⟩⟩

theorem Serves.addClause (hP : P.TrustedOn V) (h : e.Serves V) {c : Clause}
    (hrange : ∀ l ∈ c, l.var.index < e.varCount) (hc : ∀ ν, V ν → c.holds ν = true) :
    (e.addClause c).Serves V := by
  refine ⟨(LookupSolver.size_addClause _ c).trans h.size, fun hV => ?_⟩
  obtain ⟨cs, hcs, hall⟩ := h.clauses hV
  refine ⟨c :: cs, hcs.addClause (hP.trusted hV) fun l hl => h.size.symm ▸ hrange l hl,
    fun ν hν => allHold_iff.mpr fun d hd => ?_⟩
  rcases List.mem_cons.mp hd with rfl | hd
  · exact hc ν hν
  · exact allHold_iff.mp (hall ν hν) d hd

theorem Serves.addClauses (hP : P.TrustedOn V) (cs : List Clause) (h : e.Serves V)
    (hover : Over cs e.varCount) (hcs : ∀ c ∈ cs, ∀ ν, V ν → c.holds ν = true) :
    (cs.foldl BackboneEngine.addClause e).Serves V
      ∧ (cs.foldl BackboneEngine.addClause e).varCount = e.varCount := by
  induction cs generalizing e with
  | nil => exact ⟨h, rfl⟩
  | cons c rest ih =>
    exact ih (e := e.addClause c)
      (h.addClause hP (hover c List.mem_cons_self) (hcs c List.mem_cons_self))
      (fun d hd => hover d (List.mem_cons_of_mem _ hd))
      fun d hd => hcs d (List.mem_cons_of_mem _ hd)

/-- Looking up all variables changes nothing for the clauses. -/
theorem stands_lookupVars {cs : List Clause} (hP : P.Trusted)
    (hsize : e.solver.mapped.size = e.varCount) (h : e.solver.Stands cs) :
    e.lookupVars.solver.Stands cs ∧ e.lookupVars.solver.mapped.size = e.varCount := by
  refine ⟨(h.lookupAll hP _ fun l hl => ?_).1, (LookupSolver.size_lookupAll _ _).trans hsize⟩
  obtain ⟨v, hv, rfl⟩ := List.mem_map.mp hl
  exact hsize.symm ▸ Var.mem_range.mp hv

theorem Serves.lookupVars (hP : P.TrustedOn V) (h : e.Serves V) : e.lookupVars.Serves V := by
  refine ⟨(LookupSolver.size_lookupAll _ _).trans h.size, fun hV => ?_⟩
  obtain ⟨cs, hcs, hall⟩ := h.clauses hV
  exact ⟨cs, (stands_lookupVars (hP.trusted hV) h.size hcs).1, hall⟩

theorem Serves.addModels (models : List (List Lit)) (h : e.Serves V) :
    (models.foldl addModel e).Serves V ∧ (models.foldl addModel e).varCount = e.varCount := by
  induction models generalizing e with
  | nil => exact ⟨h, rfl⟩
  | cons m rest ih => exact ih (e := e.addModel m) ⟨h.size, h.clauses⟩

/-- The parts of a question. -/
theorem ask_eq_ok {assumptions : List Lit} {r : Reply} (hr : e.ask assumptions = .ok (r, e')) :
    ∃ satisfiable solver, e.solver.solve assumptions = .ok (satisfiable, solver)
      ∧ r = (if satisfiable then .satisfiable solver.originalModel else .refuted)
      ∧ e' = { e with solver := solver } := by
  obtain ⟨⟨satisfiable, solver⟩, hsolve, hr⟩ := Except.bind_eq_ok.mp hr
  obtain ⟨rfl, rfl⟩ := Prod.mk.inj (Except.ok.inj hr)
  exact ⟨satisfiable, solver, hsolve, rfl, rfl⟩

/-- **A question.** If it is denied some assumption is false everywhere. -/
theorem Serves.ask {assumptions : List Lit} {r : Reply} (h : e.Serves V)
    (hP : P.TrustedOn V) (ha : ∀ l ∈ assumptions, l.var.index < e.varCount)
    (hr : e.ask assumptions = .ok (r, e')) :
    e'.Serves V ∧ e'.varCount = e.varCount
      ∧ (r = .refuted → ∀ ν, V ν → ∃ l ∈ assumptions, l.holds ν = false)
      ∧ ∀ model, r = .satisfiable (some model) → ∀ l ∈ model, l.var.index < e.varCount := by
  obtain ⟨satisfiable, solver, hsolve, rfl, rfl⟩ := ask_eq_ok hr
  have hsize : solver.mapped.size = e.varCount := (LookupSolver.size_of_solve hsolve).trans h.size
  have ha' : ∀ l ∈ assumptions, l.var.index < e.solver.mapped.size := fun l hl =>
    h.size.symm ▸ ha l hl
  refine ⟨⟨hsize, fun hV => ?_⟩, rfl, fun hrefuted ν hν => ?_, fun model hmodel => ?_⟩
  · obtain ⟨cs, hcs, hall⟩ := h.clauses hV
    exact ⟨cs, (hcs.solve (hP.trusted hV) ha' hsolve).1, hall⟩
  · cases satisfiable with
    | true => cases hrefuted
    | false =>
      obtain ⟨cs, hcs, hall⟩ := h.clauses ⟨ν, hν⟩
      exact hcs.denied (hP.trusted ⟨ν, hν⟩) ha' hsolve (hall ν hν)
  · cases satisfiable with
    | true =>
      exact hsize ▸ LookupSolver.index_lt_of_mem_originalModel (Reply.satisfiable.inj hmodel)
    | false => cases hmodel

/-- An implied literal, under all of `V`. -/
structure SureLit (V : Valuation → Prop) (count : Nat) (l : Lit) : Prop where
  inRange : l.var.index < count
  holds : ∀ ν, V ν → l.holds ν = true

/-- An implied binary clause, under all of `V`. -/
structure SurePair (V : Valuation → Prop) (count : Nat) (c : Lit × Lit) : Prop where
  left : c.1.var.index < count
  right : c.2.var.index < count
  distinct : c.2.var ≠ c.1.var
  holds : ∀ ν, V ν → c.1.holds ν = true ∨ c.2.holds ν = true

theorem SurePair.ordered {count : Nat} {a b : Lit} (h : SurePair V count (a, b)) :
    SurePair V count (ordered a b) := by
  unfold BackboneEngine.ordered
  split
  · exact h
  · exact ⟨h.right, h.left, h.distinct.symm, fun ν hν => (h.holds ν hν).symm⟩

/-- **A right answer** about the valuations `V`. -/
structure Right (V : Valuation → Prop) (count : Nat) (answer : EngineAnswer) : Prop where
  units : ∀ l ∈ answer.units, SureLit V count l
  binaries : ∀ c ∈ answer.binaries, SurePair V count c
  refuted : answer.satisfiable = false → ∀ ν, ¬ V ν

theorem recordFound_varCount (request : EngineRequest) (answer : EngineAnswer)
    (e : BackboneEngine P) (model : Option (List Lit)) :
    (recordFound request answer e model).2.varCount = e.varCount := by
  cases model <;> rfl

theorem Serves.recordFound (h : e.Serves V) (request : EngineRequest) (answer : EngineAnswer)
    (model : Option (List Lit)) :
    (BackboneEngine.recordFound request answer e model).2.Serves V := by
  cases model with
  | none => exact h
  | some m => exact ⟨h.size, h.clauses⟩

theorem Right.record {count : Nat} {answer : EngineAnswer} (h : Right V count answer)
    (request : EngineRequest) (model : List Lit) : Right V count (record request answer model) := by
  unfold BackboneEngine.record
  split
  · exact ⟨h.units, h.binaries, h.refuted⟩
  · exact h

theorem Right.recordFound {count : Nat} {answer : EngineAnswer} (h : Right V count answer)
    (request : EngineRequest) (e : BackboneEngine P) (model : Option (List Lit)) :
    Right V count (BackboneEngine.recordFound request answer e model).1 := by
  cases model with
  | none => exact h
  | some m => exact h.record request m

/-- **The implied literals are right**: their opposites have no model. -/
theorem probeUnits_spec (hP : P.TrustedOn V) (request : EngineRequest) (vs : List Var)
    {answer answer' : EngineAnswer} (h : e.Serves V) (hvs : ∀ v ∈ vs, v.index < e.varCount)
    (hright : Right V e.varCount answer)
    (hr : probeUnits request vs answer e = .ok (answer', e')) :
    e'.Serves V ∧ e'.varCount = e.varCount ∧ Right V e.varCount answer' := by
  induction vs generalizing e answer with
  | nil =>
    obtain ⟨rfl, rfl⟩ := Prod.mk.inj (Except.ok.inj hr)
    exact ⟨h, rfl, hright⟩
  | cons v rest ih =>
    have hrest : ∀ w ∈ rest, w.index < e.varCount := fun w hw => hvs w (List.mem_cons_of_mem _ hw)
    unfold probeUnits at hr
    split at hr
    · exact ih h hrest hright hr
    · rename_i value hvalue
      have hv := hvs v List.mem_cons_self
      obtain ⟨⟨r, e₁⟩, hask, hr⟩ := Except.bind_eq_ok.mp hr
      obtain ⟨hs₁, hcount, hnone, -⟩ := h.ask hP (List.forall_mem_singleton.mpr hv) hask
      cases r with
      | satisfiable model =>
        have hcount' := (recordFound_varCount request answer e₁ model).trans hcount
        rw [← hcount'] at hrest hright ⊢
        exact ih (hs₁.recordFound request answer model) hrest
          (hright.recordFound request e₁ model) hr
      | refuted =>
        have hl : SureLit V e.varCount (v.lit value) := by
          refine ⟨hv, fun ν hν => ?_⟩
          obtain ⟨l, hl, hfalse⟩ := hnone rfl ν hν
          rw [List.mem_singleton.mp hl, Lit.holds_neg] at hfalse
          simpa using hfalse
        rw [← hcount] at hrest hright hl ⊢
        refine ih (e := e₁.addClause [v.lit value])
          (hs₁.addClause hP (List.forall_mem_singleton.mpr (hcount ▸ hv)) fun ν hν =>
            Clause.holds_singleton.mpr (hl.holds ν hν)) hrest ?_ hr
        split
        · refine ⟨fun l hmem => ?_, hright.binaries, hright.refuted⟩
          rcases List.mem_append.mp hmem with hmem | hmem
          · exact hright.units l hmem
          · exact List.mem_singleton.mp hmem ▸ hl
        · exact hright

/-- **What holds together with a literal**: its opposite has no model then. -/
theorem probeImplied_spec (hP : P.TrustedOn V) {l : Lit} (fuel : Nat)
    {implied found found' : List Lit} (h : e.Serves V) (hl : l.var.index < e.varCount)
    (himplied : ∀ k ∈ implied, k.var.index < e.varCount)
    (hr : probeImplied l fuel implied found e = .ok (found', e')) :
    e'.Serves V ∧ e'.varCount = e.varCount ∧ ∀ other ∈ found', other ∈ found
      ∨ (other ∈ implied ∧ ∀ ν, V ν → l.neg.holds ν = true ∨ other.holds ν = true) := by
  induction fuel generalizing e implied found with
  | zero =>
    obtain ⟨rfl, rfl⟩ := Prod.mk.inj (Except.ok.inj hr)
    exact ⟨h, rfl, fun other hother => Or.inl hother⟩
  | succ fuel ih =>
    unfold probeImplied at hr
    split at hr
    · obtain ⟨rfl, rfl⟩ := Prod.mk.inj (Except.ok.inj hr)
      exact ⟨h, rfl, fun other hother => Or.inl hother⟩
    · rename_i last hlast
      have hlastVar : last.neg.var.index < e.varCount :=
        himplied last (List.mem_of_getLast? hlast)
      obtain ⟨⟨r, e₁⟩, hask, hr⟩ := Except.bind_eq_ok.mp hr
      obtain ⟨hs₁, hcount, hnone, -⟩ := h.ask hP
        (List.forall_mem_cons.mpr ⟨hl, List.forall_mem_singleton.mpr hlastVar⟩) hask
      have hinit : ∀ k ∈ implied.dropLast, k.var.index < e₁.varCount := fun k hk =>
        hcount.symm ▸ himplied k (List.dropLast_subset _ hk)
      have hl₁ : l.var.index < e₁.varCount := hcount.symm ▸ hl
      rcases r with _ | (_ | model)
      case satisfiable.some =>
        obtain ⟨hs', hcount', hfound⟩ := ih hs₁ hl₁
          (fun k hk => hinit k (List.mem_of_mem_filter hk)) hr
        refine ⟨hs', hcount'.trans hcount, fun other hother => (hfound other hother).imp_right ?_⟩
        exact fun ⟨hin, hsure⟩ => ⟨List.dropLast_subset _ (List.mem_of_mem_filter hin), hsure⟩
      case satisfiable.none =>
        obtain ⟨hs', hcount', hfound⟩ := ih hs₁ hl₁ hinit hr
        exact ⟨hs', hcount'.trans hcount, fun other hother => (hfound other hother).imp_right
          fun ⟨hin, hsure⟩ => ⟨List.dropLast_subset _ hin, hsure⟩⟩
      case refuted =>
        obtain ⟨hs', hcount', hfound⟩ := ih hs₁ hl₁ hinit hr
        refine ⟨hs', hcount'.trans hcount, fun other hother => ?_⟩
        rcases hfound other hother with hin | ⟨hin, hsure⟩
        · rcases List.mem_cons.mp hin with rfl | hin
          · refine Or.inr ⟨List.mem_of_getLast? hlast, fun ν hν => ?_⟩
            obtain ⟨m, hm, hfalse⟩ := hnone rfl ν hν
            rcases List.mem_pair.mp hm with rfl | rfl
            · exact Or.inl (Lit.neg_holds_of_not hfalse)
            · exact Or.inr (by simpa using hfalse)
          · exact Or.inl hin
        · exact Or.inr ⟨List.dropLast_subset _ hin, hsure⟩

/-- **The implied binary clauses are right.** -/
theorem probeBinaries_spec (hP : P.TrustedOn V) (isOpen : Var → Bool) (ls : List Lit)
    {found found' : List (Lit × Lit)} (h : e.Serves V)
    (hls : ∀ l ∈ ls, l.var.index < e.varCount)
    (hfound : ∀ c ∈ found, SurePair V e.varCount c)
    (hr : probeBinaries isOpen ls found e = .ok (found', e')) :
    e'.Serves V ∧ ∀ c ∈ found', SurePair V e.varCount c := by
  induction ls generalizing e found with
  | nil =>
    obtain ⟨rfl, rfl⟩ := Prod.mk.inj (Except.ok.inj hr)
    exact ⟨h, hfound⟩
  | cons l rest ih =>
    have hrest : ∀ m ∈ rest, m.var.index < e.varCount := fun m hm =>
      hls m (List.mem_cons_of_mem _ hm)
    have hl := hls l List.mem_cons_self
    unfold probeBinaries at hr
    obtain ⟨⟨r, e₁⟩, hask, hr⟩ := Except.bind_eq_ok.mp hr
    obtain ⟨hs₁, hcount, -, hmodel⟩ := h.ask hP (List.forall_mem_singleton.mpr hl) hask
    rcases r with _ | (_ | model)
    case refuted | satisfiable.none =>
      rw [← hcount] at hrest hfound ⊢
      exact ih hs₁ hrest hfound hr
    case satisfiable.some =>
      obtain ⟨⟨others, e₂⟩, himplied, hr⟩ := Except.bind_eq_ok.mp hr
      obtain ⟨hs₂, hcount₂, hothers⟩ := probeImplied_spec hP _ hs₁ (hcount.symm ▸ hl)
        (fun k hk => hcount.symm ▸ hmodel model rfl k (List.mem_of_mem_filter hk)) himplied
      have hcount' : e₂.varCount = e.varCount := hcount₂.trans hcount
      have hmore : ∀ c ∈ found ++ others.map (fun other => ordered l.neg other),
          SurePair V e.varCount c := by
        intro c hc
        rcases List.mem_append.mp hc with hc | hc
        · exact hfound c hc
        · obtain ⟨other, hother, rfl⟩ := List.mem_map.mp hc
          rcases hothers other hother with hnil | ⟨hin, hsure⟩
          · cases hnil
          · obtain ⟨hin, hne⟩ := List.mem_filter.mp hin
            have hvar : other.var ≠ l.var := (by simpa using hne : _ ∧ _).1
            exact SurePair.ordered ⟨hl, hmodel model rfl other hin, hvar, hsure⟩
      rw [← hcount'] at hrest hmore ⊢
      exact ih hs₂ hrest hmore hr

theorem impliedBinaries_spec (hP : P.TrustedOn V) {found : List (Lit × Lit)} (h : e.Serves V)
    (hr : e.impliedBinaries = .ok (found, e')) :
    e'.Serves V ∧ ∀ c ∈ found, SurePair V e.varCount c := by
  obtain ⟨⟨all, e₁⟩, hprobe, hr⟩ := Except.bind_eq_ok.mp hr
  obtain ⟨rfl, rfl⟩ := Prod.mk.inj (Except.ok.inj hr)
  have hlits : ∀ l ∈ ((Var.range e.varCount).filter fun v => e.shared[v].isNone).flatMap Var.lits,
      l.var.index < e.varCount := by
    intro l hl
    obtain ⟨v, hv, hl⟩ := List.mem_flatMap.mp hl
    rw [Var.mem_lits.mp hl]
    exact Var.mem_range.mp (List.mem_of_mem_filter hv)
  obtain ⟨hs₁, hall⟩ := probeBinaries_spec hP _ _ h hlits (fun c hc => absurd hc List.not_mem_nil)
    hprobe
  refine ⟨hs₁, fun c hc => hall c ?_⟩
  exact List.mem_mergeSort.mp ((mem_squeeze _).mp hc)

/-- **What the engine answers is right.** -/
theorem run_spec (hP : P.TrustedOn V) (h : e.Serves V) {request : EngineRequest}
    {answer : EngineAnswer} (hr : e.run request = .ok (answer, e')) :
    Right V e.varCount answer := by
  unfold run at hr
  obtain ⟨⟨r, e₁⟩, hask, hr⟩ := Except.bind_eq_ok.mp hr
  obtain ⟨hs₁, hcount, hnone, -⟩ := (h.lookupVars hP).ask hP (by simp) hask
  cases r with
  | refuted =>
    obtain ⟨rfl, rfl⟩ := Prod.mk.inj (Except.ok.inj hr)
    refine ⟨by simp, by simp, fun _ ν hν => ?_⟩
    obtain ⟨l, hl, -⟩ := hnone rfl ν hν
    cases hl
  | satisfiable model =>
    simp only at hr
    obtain ⟨⟨answer₂, e₂⟩, hunits, hr⟩ := Except.bind_eq_ok.mp hr
    have hstart : Right V e.varCount { satisfiable := true } :=
      ⟨by simp, by simp, fun hno => (nomatch hno)⟩
    have hcount₁ := (recordFound_varCount request { satisfiable := true } e₁ model).trans hcount
    have hfirst := hstart.recordFound request e₁ model
    rw [show e.varCount = _ from hcount₁.symm] at hfirst ⊢
    obtain ⟨hs₂, hcount₂, hright⟩ := probeUnits_spec hP request _
      (hs₁.recordFound request { satisfiable := true } model)
      (fun v hv => Var.mem_range.mp hv) hfirst hunits
    dsimp only at hr
    split at hr
    · obtain ⟨⟨binaries, e₃⟩, hbin, hr⟩ := Except.bind_eq_ok.mp hr
      obtain ⟨rfl, rfl⟩ := Prod.mk.inj (Except.ok.inj hr)
      obtain ⟨-, hpairs⟩ := impliedBinaries_spec hP hs₂ hbin
      exact ⟨hright.units, fun c hc => hcount₂ ▸ hpairs c hc, hright.refuted⟩
    · obtain ⟨rfl, rfl⟩ := Prod.mk.inj (Except.ok.inj hr)
      exact hright

end BackboneEngine

end Cleave
