import Cleave.Proofs.Orderly

/-!
# Models that are handed out

A search that ends with a model says so because nothing of the component is
open and no conflict was reported. After an orderly history this is enough
(`Solver.Orderly.models_hold`): what the search assigned is settled, so every
given clause over the component has a true literal, and with it every clause
of the formula, for the solver keeps them all.

The native engine hands its models out through the ledger. They come from the
same searches, one level above the call.
-/

namespace Cleave

namespace Solver

variable {F : List Clause} {s s' : Solver} {p : Phase} {f : Formula} {options : Options}
  {c : Component}

/-- **A model of some clauses on a component**: it extends the assignment of
`s` to the component and satisfies the clauses over its open variables, those
that the solver has as given ones and those of the list. A tautology of the
list is no clause of the solver; it may be left without a value, if its
variable is open and not part of the component. -/
structure ModelsOn (F : List Clause) (s : Solver) (c : Component) (pool : ModelPool) (m : Model) :
    Prop where
  agrees : ∀ l ∈ s.trail.lits.toList, pool.value m l.var = some l.positive
  assigns : ∀ v ∈ c.vars, ∃ value, pool.value m v = some value
  given : ∀ d, s.store.Given d → (∃ l ∈ d, l.var ∈ c.vars ∧ s.trail.isAssigned l.var = false) →
    ∃ l ∈ d, pool.value m l.var = some l.positive
  satisfies : ∀ d ∈ F, (∃ l ∈ d, l.var ∈ c.vars ∧ s.trail.isAssigned l.var = false) →
    (∃ l ∈ d, pool.value m l.var = some l.positive)
      ∨ ∃ l ∈ d, l.neg ∈ d ∧ s.trail.isAssigned l.var = false ∧ l.var ∉ c.vars

/-- A model that fits satisfies the clauses that the solver keeps. -/
theorem Fits.modelsOn {pool : ModelPool} {m : Model} (h : Fits s c pool m) (hs : Sound F s)
    (hkeeps : ∀ d ∈ F, s.Keeps d) : ModelsOn F s c pool m := by
  have hassigns : ∀ v, v ∈ c.vars ∨ s.trail.isAssigned v = true →
      ∃ value, pool.value m v = some value := by
    intro v hv
    cases ha : s.trail.isAssigned v with
    | false => exact h.assigned v (hv.resolve_right (by simp [ha])) ha
    | true =>
      obtain ⟨x, hx, rfl⟩ := hs.trail.isAssigned_iff.mp ha
      exact ⟨_, h.trail x hx⟩
  have hgiven : ∀ d, s.store.Given d →
      (∃ l ∈ d, l.var ∈ c.vars ∧ s.trail.isAssigned l.var = false) →
      ∃ l ∈ d, pool.value m l.var = some l.positive := by
    intro d hd hopen
    by_cases htrue : ∃ l ∈ d, l ∈ s.trail.lits.toList
    · obtain ⟨l, hl, hin⟩ := htrue
      exact ⟨l, hl, h.trail l hin⟩
    · exact h.satisfies d ⟨hd, fun l hl hin => htrue ⟨l, hl, hin⟩, hopen⟩
  refine ⟨h.trail, fun v hv => hassigns v (Or.inl hv), hgiven, fun d hd hopen => ?_⟩
  rcases hkeeps d hd with ⟨l, hl, hneg⟩ | ⟨l, hl, hroot⟩ | ⟨g, hg, hmem⟩
  · -- one of two opposite literals is true as soon as their variable has a value
    by_cases hvar : l.var ∈ c.vars ∨ s.trail.isAssigned l.var = true
    · obtain ⟨value, hvalue⟩ := hassigns l.var hvar
      left
      by_cases hpos : value = l.positive
      · exact ⟨l, hl, hpos ▸ hvalue⟩
      · refine ⟨l.neg, hneg, hvalue.trans (congrArg some ?_)⟩
        exact (Bool.eq_not_of_ne hpos)
    · obtain ⟨hout, hfree⟩ := not_or.mp hvar
      exact Or.inr ⟨l, hl, hneg, by simpa using hfree, hout⟩
  · exact Or.inl ⟨l, hl, h.trail l (List.mem_of_mem_take hroot)⟩
  · obtain ⟨x, hx, hxc⟩ := hopen
    obtain ⟨l, hl, hvalue⟩ := hgiven g hg ⟨x, (hmem x).mpr hx, hxc⟩
    exact Or.inl ⟨l, (hmem l).mp hl, hvalue⟩

/-- A model that a search found, in a state with everything settled up to the
head. -/
theorem Fits.of_search {fuel n : Nat} {budget : Option Nat} {m : Model} (hs : Sound F s)
    (hn : SettledTo [] n s) (hcovered : s.Covered c)
    (hr : s.search fuel c budget = .ok (.satisfiable m, s')) : Fits s c s'.pool m := by
  obtain ⟨hd, -⟩ := search_spec hs (.refl hs) (fun _ hb => ⟨n, Nat.le_refl _, hb⟩) hr
  obtain ⟨known, hfound, hset⟩ := hd.answers
  exact hfound.fits hs hd.own hd.own.lits (hset [] hn) hcovered

/-- **Every model handed out is a model.** After an orderly history without a
conflict pending, let a component have all open variables of its active
clauses. Then a model that a search of it returns, within whatever budget,
and all models that the native engine adds to a ledger, extend the assignment
to the component and satisfy the clauses of the formula over it. -/
theorem Orderly.models_hold (h : Orderly f options s p) (hp : p.IsCalm) (hcovered : s.Covered c) :
    (∀ (fuel : Nat) (budget : Option Nat) (m : Model) (s' : Solver),
        s.search fuel c budget = .ok (.satisfiable m, s') → ModelsOn f.clauses s c s'.pool m)
      ∧ (s.options.engine = .native →
        ∀ (P : SatProcedure) (fuel : Nat) (ledger ledger' : ModelLedger) (projected : Bool)
          (result : Except ToolError ImpliedLiterals) (s' : Solver),
        s.impliedLiterals P fuel c ledger projected = .ok (result, ledger', s') →
          ∃ added, ledger'.models = ledger.models ++ added
            ∧ ∀ m ∈ added, ModelsOn f.clauses s c s'.pool m) := by
  have hinv := h.inv
  obtain ⟨n, -, hn⟩ := hinv.settledTo hp
  refine ⟨fun fuel budget m s' hr => ?_,
    fun hengine P fuel ledger ledger' projected result s' hr => ?_⟩
  · refine (Fits.of_search hinv.sound hn hcovered hr).modelsOn hinv.sound (hinv.represents ?_)
    by_contra hconf
    cases (search_of_conflicted (by simpa using hconf) hr).1
  · cases hconf : s.conflicted with
    | true =>
      -- a refuted solver leaves the ledger alone
      rcases impliedLiterals_eq_ok hr with ⟨-, -, rfl, -⟩ | ⟨hf, -⟩
      · exact ⟨[], (List.append_nil _).symm, fun m hm => absurd hm List.not_mem_nil⟩
      · rw [hconf] at hf
        cases hf
    | false =>
      obtain ⟨added, hadded, hfits⟩ :=
        (impliedLiterals_spec hinv.sound hengine hr n).enters.models
      exact ⟨added, hadded, fun m hm =>
        (hfits hn hcovered m hm).modelsOn hinv.sound (hinv.represents hconf)⟩

theorem Orderly.models_hold_chain : ∃ (m : Model) (s' : Solver),
    chainSolver.search 1 chainSolver.initComponent (some 0) = .ok (.satisfiable m, s')
      ∧ ModelsOn chain.clauses chainSolver chainSolver.initComponent s'.pool m
      ∧ chainSolver.trail.isAssigned ⟨1⟩ = false ∧ s'.pool.value m ⟨1⟩ = some true := by
  have horderly : Orderly chain {} chainSolver .idle := .models .start _
  have hrun : (chainSolver.search 1 chainSolver.initComponent (some 0)).toOption.any
      (fun r => match r.1 with
        | .satisfiable m => r.2.pool.value m ⟨1⟩ = some true
        | _ => false) = true := by
    rw [chainSolver_eq]
    decide +kernel
  have hopen : chainSolver.trail.isAssigned ⟨1⟩ = false := by
    rw [chainSolver_eq]
    decide +kernel
  obtain ⟨⟨r, s'⟩, hcall, hresult⟩ := (Option.any_eq_true _ _).mp hrun
  have hcall := Except.toOption_eq_some.mp hcall
  cases r with
  | satisfiable m =>
    have hmodel := (horderly.models_hold (fun _ hc => nomatch hc)
      horderly.inv.sound.closed_initComponent.vars).1 _ _ m s' hcall
    exact ⟨m, s', hcall, hmodel, hopen, of_decide_eq_true hresult⟩
  | refuted learnt => cases hresult
  | unknown => cases hresult

end Solver

end Cleave
