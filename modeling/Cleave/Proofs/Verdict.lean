import Cleave.Proofs.Orderly
import Cleave.Proofs.Reachable
import Cleave.Report

/-!
# The verdict of a run

A run makes a solver for its formula, lets some passes work on it, each only
if asked for, and solves last. Every pass keeps the solver faithful to the
formula at level 0 (`Solver.Faithful`): what it holds follows from the
formula, a valuation of what it holds gives one of the formula, and the
clauses are settled up to the head. Such a solver is solved rightly
(`Solver.Faithful.solve`), so whatever passes ran, the verdict is positive
exactly if the formula has a model (`Solver.Prepared.verdict`).

The passes of a report are these (`Invocation.prepared_of_reporting`), so what
the program prints last is right (`Invocation.run_right`).
-/

namespace Cleave

namespace Solver

variable {F : List Clause} {s s' : Solver} {c : Component}

/-- **A solver that is faithful to some clauses**, at level 0 and ready to be
solved. -/
structure Faithful (F : List Clause) (s : Solver) : Prop where
  sound : Sound F s
  level : s.level = 0
  settled : s.conflicted = false → SettledTo [] s.trail.head s
  satisfiable : s.conflicted = false → (∃ ν, GivenHold s ν) → Satisfiable F

/-! ## The passes -/

theorem faithful_ofFormula (f : Formula) (options : Options) :
    Faithful f.clauses (ofFormula f options) where
  sound := sound_ofFormula f options
  level := level_ofFormula f options
  settled := fun _ =>
    ⟨Nat.le_refl _, (sound_ofFormula f options).trail.headLe, settled_ofFormula f options⟩
  satisfiable := fun hf ⟨ν, hν⟩ => ⟨ν, (represents_ofFormula f options).covers hf ν hν⟩

namespace Faithful

variable (h : Faithful F s)

include h

theorem substitute {sub : Substitution} (hr : s.substitute = .ok (sub, s')) : Faithful F s' := by
  obtain ⟨hs', hred⟩ := substitute_spec h.sound hr
  exact ⟨hs', hred.level, fun hf => hred.settled hf (h.settled (hred.conflicted hf)),
    fun hf hν => h.satisfiable (hred.conflicted hf) (hred.valuation hf hν)⟩

/-- Orders, counters and models do not matter. -/
theorem withOthers (order : VarOrder) (stats : Statistics) (pool : ModelPool) :
    Faithful F { s with order := order, stats := stats, pool := pool } :=
  ⟨h.sound, h.level, fun hf => ⟨(h.settled hf).head, (h.settled hf).size, (h.settled hf).settled⟩,
    fun hf ⟨ν, hν⟩ => h.satisfiable hf ⟨ν, hν.roots, hν.given⟩⟩

theorem computeOrder {run : String → ToolRun} (hr : s.computeOrder c run = .ok (.ok s')) :
    Faithful F s' := by
  obtain ⟨order, stats, rfl⟩ := computeOrder_eq_ok hr
  exact h.withOthers order stats s.pool

theorem decompose {d : Decomposition} (hr : s.decompose c = .ok (d, s')) : Faithful F s' := by
  obtain ⟨stats, rfl⟩ := decompose_eq_ok hr
  exact h.withOthers s.order stats s.pool

/-- A call at level 0 leaves everything settled, unless it refutes the
formula. -/
theorem implied {P : SatProcedure} {fuel : Nat} {ledger ledger' : ModelLedger} {projected : Bool}
    {result : Except ToolError ImpliedLiterals} (hcall : s.Callable P c)
    (hr : s.impliedLiterals P fuel c ledger projected = .ok (result, ledger', s')) :
    Faithful F s' := by
  have hcon := impliedLiterals_concluded h.sound hcall hr s.trail.head
  have hconf : s'.conflicted = false → s.conflicted = false := by
    intro hf
    by_contra hc
    rw [(impliedLiterals_of_conflicted (by simpa using hc) hr).2] at hf
    cases hf
  refine ⟨hcon.sound, hcon.level.trans h.level, fun hf => ?_, fun hf ⟨ν, hν⟩ => ?_⟩
  · rcases hcon.state with ⟨clause, -, hdis⟩ | hready
    · -- at level 0 only the empty clause is disproved
      rcases hdis.clause with ⟨-, hc⟩ | ⟨hpos, -⟩
      · rw [hc] at hf
        cases hf
      · rw [hdis.level, h.level] at hpos
        exact absurd hpos (Nat.lt_irrefl 0)
    · refine ⟨Nat.le_refl _, hready.sound.trail.headLe, ?_⟩
      exact (hready.settled [] (h.settled (hconf hf))).mono fun l hl => List.mem_of_mem_take hl
  · exact h.satisfiable (hconf hf) ⟨ν, hν.of_keeps hcon.within.given hcon.within.roots⟩

/-- **A faithful solver is solved rightly.** -/
theorem solve {fuel : Nat} {v : Verdict} (hr : s.solve fuel = .ok (v, s')) :
    v ≠ .unknown ∧ (v = .satisfiable ↔ Satisfiable F)
      ∧ (v = .unsatisfiable ↔ ¬ Satisfiable F) := by
  obtain ⟨-, hknown, hunsat, hsat⟩ := solve_spec h.sound hr
  have hback : s.backtrackTo 0 = s := backtrackTo_of_le (Nat.le_of_eq h.level)
  have hright : v = .satisfiable → Satisfiable F := by
    intro hv
    obtain ⟨hconf, hval⟩ := hsat hv
    exact h.satisfiable hconf (hval _ (by rw [hback]; exact h.settled hconf))
  cases v with
  | satisfiable =>
    have hF := hright rfl
    exact ⟨hknown, ⟨fun _ => hF, fun _ => rfl⟩, ⟨fun hv => (nomatch hv), fun hno => absurd hF hno⟩⟩
  | unsatisfiable =>
    have hno := hunsat rfl
    exact ⟨hknown, ⟨fun hv => (nomatch hv), fun hF => absurd hF hno⟩, ⟨fun _ => hno, fun _ => rfl⟩⟩
  | unknown => exact absurd rfl hknown

end Faithful

/-! ## A run of passes -/

/-- **The passes of a run**, from the solver for the formula to the one to be
solved. Each may be left out; the component is that of the whole formula, once
equivalent literals are replaced. -/
inductive Prepared (P : SatProcedure) (s s' : Solver) : Prop where
  | intro (s₁ s₂ s₃ : Solver)
      (substituted : s₁ = s ∨ ∃ sub, s.substitute = .ok (sub, s₁))
      (ordered : s₂ = s₁ ∨ ∃ run, s₁.computeOrder s₁.initComponent run = .ok (.ok s₂))
      (decomposed : s₃ = s₂ ∨ ∃ d, s₂.decompose s₁.initComponent = .ok (d, s₃))
      (implied : s' = s₃ ∨ ∃ fuel projected result ledger t,
        s₃.impliedLiterals P fuel s₁.initComponent {} projected = .ok (.ok result, ledger, t)
          ∧ s' = { t with pool := ledger.release t.pool }) : Prepared P s s'

/-- **The passes keep a solver faithful.** -/
theorem Prepared.faithful {P : SatProcedure} (hprep : Prepared P s s') (hP : P.Trusted)
    (h : Faithful F s) : Faithful F s' := by
  obtain ⟨s₁, s₂, s₃, substituted, ordered, decomposed, implied⟩ := hprep
  have h₁ : Faithful F s₁ := by
    rcases substituted with rfl | ⟨sub, hr⟩
    · exact h
    · exact h.substitute hr
  have h₂ : Faithful F s₂ ∧ s₂.initComponent = s₁.initComponent := by
    rcases ordered with rfl | ⟨run, hr⟩
    · exact ⟨h₁, rfl⟩
    · refine ⟨h₁.computeOrder hr, ?_⟩
      obtain ⟨_, _, rfl⟩ := computeOrder_eq_ok hr
      rfl
  have h₃ : Faithful F s₃ ∧ s₃.initComponent = s₁.initComponent := by
    rcases decomposed with rfl | ⟨d, hr⟩
    · exact h₂
    · refine ⟨h₂.1.decompose hr, Eq.trans ?_ h₂.2⟩
      obtain ⟨_, rfl⟩ := decompose_eq_ok hr
      rfl
  rcases implied with rfl | ⟨fuel, projected, result, ledger, t, hr, rfl⟩
  · exact h₃.1
  · have hspans : s₃.Spans s₁.initComponent := h₃.2 ▸ h₃.1.sound.spans_initComponent
    exact (h₃.1.implied (Or.inr ⟨hP, hspans⟩) hr).withOthers _ _ _

/-- **The verdict of a run is right.** Whatever passes run on the solver for a
formula, under whatever options, if solving it ends then with a verdict, which
is positive exactly if the formula has a model. -/
theorem Prepared.verdict {P : SatProcedure} {f : Formula} {options : Options} {fuel : Nat}
    {v : Verdict} (hP : P.Trusted) (hprep : Prepared P (ofFormula f options) s)
    (hsolve : s.solve fuel = .ok (v, s')) :
    v ≠ .unknown ∧ (v = .satisfiable ↔ Satisfiable f.clauses)
      ∧ (v = .unsatisfiable ↔ ¬ Satisfiable f.clauses) :=
  (hprep.faithful hP (faithful_ofFormula f options)).solve hsolve

theorem Prepared.verdict_chain : ∃ s' s'' : Solver,
    Prepared splitting (ofFormula chain {}) s' ∧ s'.solve 1 = .ok (.satisfiable, s'')
      ∧ Satisfiable chain.clauses := by
  have hrun : ((ofFormula chain {}).impliedLiterals splitting 2 (ofFormula chain {}).initComponent
      {} false).toOption.any (fun r => match r.1 with
        | .ok _ => (Solver.solve { r.2.2 with pool := r.2.1.release r.2.2.pool } 1).toOption.any
            fun answer => answer.1 = Verdict.satisfiable
        | .error _ => false) = true := by
    rw [ofFormula_chain]
    decide +kernel
  obtain ⟨⟨r, ledger, t⟩, hcall, hresult⟩ := (Option.any_eq_true _ _).mp hrun
  cases r with
  | error e => cases hresult
  | ok result =>
    obtain ⟨⟨v, s''⟩, hsolve, hv⟩ := (Option.any_eq_true _ _).mp hresult
    obtain rfl := of_decide_eq_true hv
    have hsolve := Except.toOption_eq_some.mp hsolve
    have hprep : Prepared splitting (ofFormula chain {})
        { t with pool := ledger.release t.pool } :=
      ⟨_, _, _, Or.inl rfl, Or.inl rfl, Or.inl rfl,
        Or.inr ⟨2, false, result, ledger, t, Except.toOption_eq_some.mp hcall, rfl⟩⟩
    exact ⟨_, s'', hprep, hsolve, (Prepared.verdict splitting_trusted hprep hsolve).2.1.mp rfl⟩

end Solver

namespace Reporting

variable {α β : Type}

/-- A part that succeeds succeeds in all its parts. -/
theorem bind_eq_ok {x : Reporting α} {f : α → Reporting β} {b : β} {lines lines' : List String}
    (h : (x >>= f).run.run lines = (.ok b, lines')) :
    ∃ a lines₁, x.run.run lines = (.ok a, lines₁) ∧ (f a).run.run lines₁ = (.ok b, lines') := by
  have hbind : (x >>= f).run.run lines = match x.run.run lines with
      | (.ok a, lines₁) => (f a).run.run lines₁
      | (.error e, lines₁) => (.error e, lines₁) := by
    rw [ExceptT.run_bind, StateT.run_bind]
    cases x.run.run lines with
    | mk r l => cases r <;> rfl
  rw [hbind] at h
  split at h
  · exact ⟨_, _, ‹_›, h⟩
  · cases (Prod.mk.inj h).1

theorem answer_eq_ok {e : Except Fault α} {a : α} {lines lines' : List String}
    (h : (answer e).run.run lines = (.ok a, lines')) : e = .ok a := by
  cases e with
  | ok x => exact congrArg Except.ok (Except.ok.inj (Prod.mk.inj h).1)
  | error fault => cases (Prod.mk.inj h).1

theorem toolAnswer_eq_ok {e : Except ToolError α} {a : α} {lines lines' : List String}
    (h : (toolAnswer e).run.run lines = (.ok a, lines')) : e = .ok a := by
  cases e with
  | ok x => exact congrArg Except.ok (Except.ok.inj (Prod.mk.inj h).1)
  | error error => cases (Prod.mk.inj h).1

theorem pure_eq_ok {a b : α} {lines lines' : List String}
    (h : (pure a : Reporting α).run.run lines = (.ok b, lines')) : a = b :=
  Except.ok.inj (Prod.mk.inj h).1

end Reporting

namespace Invocation

open Reporting

variable {i : Invocation} {P : SatProcedure} {fuel : Nat} {w : Surroundings} {c : Component}
  {s s' : Solver} {lines lines' : List String} {v : Verdict}

theorem reportSubstitution_eq_ok
    (h : (i.reportSubstitution s).run.run lines = (.ok s', lines')) :
    s' = s ∨ ∃ sub, s.substitute = .ok (sub, s') := by
  unfold reportSubstitution at h
  split at h
  · obtain ⟨⟨sub, s₁⟩, _, hr, h⟩ := bind_eq_ok h
    obtain ⟨_, _, -, h⟩ := bind_eq_ok h
    obtain rfl := pure_eq_ok h
    exact Or.inr ⟨sub, answer_eq_ok hr⟩
  · exact Or.inl (pure_eq_ok h).symm

theorem reportOrder_eq_ok (h : (i.reportOrder w c s).run.run lines = (.ok s', lines')) :
    s' = s ∨ ∃ run, s.computeOrder c run = .ok (.ok s') := by
  unfold reportOrder at h
  split at h
  · obtain ⟨r, _, hr, h⟩ := bind_eq_ok h
    obtain ⟨s₁, _, htool, h⟩ := bind_eq_ok h
    obtain ⟨_, _, -, h⟩ := bind_eq_ok h
    obtain rfl := pure_eq_ok h
    obtain rfl := toolAnswer_eq_ok htool
    exact Or.inr ⟨_, answer_eq_ok hr⟩
  · exact Or.inl (pure_eq_ok h).symm

theorem reportComponents_eq_ok (h : (i.reportComponents c s).run.run lines = (.ok s', lines')) :
    s' = s ∨ ∃ d, s.decompose c = .ok (d, s') := by
  unfold reportComponents at h
  split at h
  · obtain ⟨⟨d, s₁⟩, _, hr, h⟩ := bind_eq_ok h
    obtain ⟨_, _, -, h⟩ := bind_eq_ok h
    obtain ⟨_, _, -, h⟩ := bind_eq_ok h
    obtain rfl := pure_eq_ok h
    exact Or.inr ⟨d, answer_eq_ok hr⟩
  · exact Or.inl (pure_eq_ok h).symm

theorem reportBackbone_eq_ok {projected : Bool}
    (h : (i.reportBackbone P fuel projected c s).run.run lines = (.ok s', lines')) :
    s' = s ∨ ∃ result ledger t,
      s.impliedLiterals P fuel c {} projected = .ok (.ok result, ledger, t)
      ∧ s' = { t with pool := ledger.release t.pool } := by
  unfold reportBackbone at h
  split at h
  · obtain ⟨⟨r, ledger, t⟩, _, hr, h⟩ := bind_eq_ok h
    obtain ⟨result, _, htool, h⟩ := bind_eq_ok h
    obtain ⟨_, _, -, h⟩ := bind_eq_ok h
    obtain rfl := pure_eq_ok h
    obtain rfl := toolAnswer_eq_ok htool
    exact Or.inr ⟨result, ledger, t, answer_eq_ok hr, rfl⟩
  · exact Or.inl (pure_eq_ok h).symm

/-- **A run that ends with a verdict** read a formula, prepared a solver for it
and solved that. -/
theorem prepared_of_reporting
    (h : (i.reporting P fuel w).run.run lines = (.ok v, lines')) :
    ∃ f s s', i.readFormula w = .ok f ∧ Solver.Prepared P (.ofFormula f i.options) s
      ∧ s.solve fuel = .ok (v, s') := by
  unfold reporting at h
  obtain ⟨f, _, hf, h⟩ := bind_eq_ok h
  obtain ⟨_, _, -, h⟩ := bind_eq_ok h
  obtain ⟨s₁, _, hsub, h⟩ := bind_eq_ok h
  obtain ⟨s₂, _, horder, h⟩ := bind_eq_ok h
  obtain ⟨s₃, _, hparts, h⟩ := bind_eq_ok h
  obtain ⟨s, _, hback, h⟩ := bind_eq_ok h
  obtain ⟨⟨v', s'⟩, _, hsolve, h⟩ := bind_eq_ok h
  obtain ⟨_, _, -, h⟩ := bind_eq_ok h
  obtain rfl := pure_eq_ok h
  refine ⟨f, s, s', (Prod.mk.inj hf).1, ⟨s₁, s₂, s₃, reportSubstitution_eq_ok hsub,
    reportOrder_eq_ok horder, reportComponents_eq_ok hparts, ?_⟩, answer_eq_ok hsolve⟩
  exact (reportBackbone_eq_ok hback).imp_right fun hr => ⟨fuel, f.projection.isSome, hr⟩

/-- **What a run reports is right**: it ends with a verdict only if it read a
formula, and the verdict is positive exactly if that has a model. -/
theorem run_right (hP : P.Trusted) (h : (i.run P fuel w).outcome = .ok v) :
    ∃ f, i.readFormula w = .ok f ∧ v ≠ .unknown ∧ (v = .satisfiable ↔ Satisfiable f.clauses)
      ∧ (v = .unsatisfiable ↔ ¬ Satisfiable f.clauses) := by
  have hrun : (i.reporting P fuel w).run.run [] = (.ok v, (i.run P fuel w).lines) :=
    Prod.ext h rfl
  obtain ⟨f, s, s', hf, hprep, hsolve⟩ := prepared_of_reporting hrun
  exact ⟨f, hf, (hprep.faithful hP (Solver.faithful_ofFormula f i.options)).solve hsolve⟩

end Invocation

end Cleave
