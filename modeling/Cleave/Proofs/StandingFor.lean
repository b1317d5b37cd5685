import Cleave.Proofs.Elimination
import Cleave.Proofs.OwnClauses

/-!
# Which states stand for the clauses given

A solver stands for some clauses on a component if whatever satisfies the solver
there can be read as a valuation of the clauses (`Solver.StandsFor`). It does as
long as no variable was replaced, since no other call loses a clause
(`Call.losesNothing`, `Unreplaced.standsFor`).

A substitution takes a replaced variable out of all clauses. A valuation of what
is left becomes one of the clauses before when the replaced variables get the
values of their representatives, and no other variable has to change. So the
solver still covers the clauses but for the variables that were replaced on the
way (`Replacing.coversBut`), and it stands for them on every component that has
none of these variables, as long as none of them is assigned
(`Replacing.standsFor`). Right after a substitution none is
(`Reachable.open_of_replaced`).
-/

namespace Cleave

namespace Solver

variable {F F' : List Clause} {s s' : Solver} {c : Component} {sub : Substitution}
  {vs : List Var} {ν : Valuation}

/-! ## Calls that replace nothing -/

/-- **The states that calls lead to without replacing a variable.** -/
inductive Unreplaced : List Clause → Solver → Prop where
  | blank (options : Options) (limit : Nat) : Unreplaced [] (blank options limit)
  | ofFormula (f : Formula) (options : Options) : Unreplaced f.clauses (ofFormula f options)
  | call {F F' : List Clause} {s s' : Solver} (h : Unreplaced F s) (hcall : Call F s F' s')
      (hkept : ∀ sub, s.substitute = .ok (sub, s') → sub.replaced = []) : Unreplaced F' s'

theorem Unreplaced.reachable (h : Unreplaced F s) : Reachable F s := by
  induction h with
  | blank options limit => exact .blank options limit
  | ofFormula f options => exact .ofFormula f options
  | call _ hcall _ ih => exact .call ih hcall

/-- **A step that loses no clause**: the given clauses and root facts stay, and the
new clauses are kept. -/
structure LosesNothing (F F' : List Clause) (s s' : Solver) : Prop where
  conflicted : s.conflicted = false
  given : s.store.KeepsGiven s'.store
  roots : ∀ l ∈ s.trail.roots, l ∈ s'.trail.roots
  kept : ∀ c ∈ F', c ∈ F ∨ s'.Keeps c

theorem LosesNothing.givenHold (h : LosesNothing F F' s s') (hν : GivenHold s' ν) : GivenHold s ν :=
  hν.of_keeps h.given h.roots

/-- A full search loses nothing. -/
theorem solve_roots {fuel : Nat} {v : Verdict} (hs : Sound F s)
    (hr : s.solve fuel = .ok (v, s')) : ∀ l ∈ s.trail.roots, l ∈ s'.trail.roots := by
  unfold solve at hr
  split at hr
  · obtain ⟨-, rfl⟩ := Prod.mk.inj (Except.ok.inj hr)
    exact fun _ hl => hl
  · obtain ⟨⟨r, s₁⟩, hsearch, hr⟩ := Except.bind_eq_ok.mp hr
    have hs₀ := hs.backtrackTo 0
    have hown := (search_spec hs₀ (.refl hs₀) (fun _ hb => ⟨0, Nat.le_refl 0, hb⟩) hsearch).1.own
    have hroots : ∀ l ∈ s.trail.roots, l ∈ s₁.trail.roots := fun l hl =>
      hown.roots l ((hs.roots_backtrackTo 0).2.2 l hl)
    cases r <;> · obtain ⟨-, rfl⟩ := Prod.mk.inj (Except.ok.inj hr)
                  exact hroots

/-- A substitution that replaces nothing leaves the clauses alone, or refutes
the formula. -/
theorem eq_of_substitute (hr : s.substitute = .ok (sub, s')) (hnil : sub.replaced = []) :
    s' = s ∨ s'.conflicted = true := by
  unfold Solver.substitute at hr
  split at hr
  · cases hr
  · split at hr
    · obtain ⟨-, rfl⟩ := Prod.mk.inj (Except.ok.inj hr)
      exact .inl rfl
    · split at hr
      · obtain ⟨-, rfl⟩ := Prod.mk.inj (Except.ok.inj hr)
        exact .inr rfl
      · split at hr
        · obtain ⟨-, rfl⟩ := Prod.mk.inj (Except.ok.inj hr)
          exact .inl rfl
        · rename_i replaced e' hne _
          simp only at hr
          split at hr <;>
          · obtain ⟨rfl, -⟩ := Prod.mk.inj (Except.ok.inj hr)
            exact absurd hnil hne

/-- **A call that replaces no variable loses no clause**, unless it refutes the
formula. -/
theorem Call.losesNothing (hcall : Call F s F' s') (hs : Sound F s)
    (hkept : ∀ sub, s.substitute = .ok (sub, s') → sub.replaced = [])
    (hconf' : s'.conflicted = false) : LosesNothing F F' s s' := by
  have hconf : s.conflicted = false := by
    by_contra hc
    rw [hcall.conflicted hs (by simpa using hc)] at hconf'
    cases hconf'
  have hadds : ∀ {G : List Clause}, Adds F G s s' → LosesNothing F G s s' := fun ha =>
    ⟨hconf, ha.given, ha.roots, ha.kept hconf'⟩
  have hsame : s.store.KeepsGiven s'.store → (∀ l ∈ s.trail.roots, l ∈ s'.trail.roots) →
      LosesNothing F F s s' := fun hgiven hroots => ⟨hconf, hgiven, hroots, fun _ hc => .inl hc⟩
  cases hcall with
  | add hr => exact hadds (addClause_adds hs hr).2
  | grow count => exact hadds (.growTo hs count)
  | project vars => exact hadds (.project hs vars)
  | setProjection vars => exact hadds (.setProjection hs vars)
  | decide hopen hr =>
    obtain ⟨hl, stats, hprop⟩ := decide_eq_ok hr
    have hs₀ : Sound F ({ s with stats := stats } : Solver) := hs
    have hdecided := hs₀.decided hl hopen
    have hw : Within s ({ s with stats := stats } : Solver) := .refl hs
    have hw' := (hw.decided hs.trail hl hopen).grown hdecided
      (propagate_spec hdecided hprop).1.grown
    exact hsame hw'.given hw'.roots
  | propagate hr =>
    have hw := (Within.refl hs).grown hs (propagate_spec hs hr).1.grown
    exact hsame hw.given hw.roots
  | backtrack k =>
    obtain ⟨hstore, -, hroots⟩ := hs.roots_backtrackTo k
    exact hsame (hstore ▸ .refl _) hroots
  | enter hr =>
    obtain ⟨-, -, rfl⟩ := enterScope_spec hr
    exact hsame (.refl _) fun _ hl => hl
  | restore previous => exact hsame (.refl _) fun _ hl => hl
  | search hr =>
    have hw := (search_spec hs (.refl hs) (fun _ hb => ⟨0, Nat.le_refl 0, hb⟩) hr).1.own
    exact hsame hw.given hw.roots
  | implied hengine hr =>
    have hw := (impliedLiterals_concluded hs hengine hr 0).within
    exact hsame hw.given hw.roots
  | solve hr => exact hsame (solve_keepsGiven hs hr) (solve_roots hs hr)
  | substitute hr =>
    rcases eq_of_substitute hr (hkept _ hr) with rfl | hc
    · exact hsame (.refl _) fun _ hl => hl
    · rw [hc] at hconf'
      cases hconf'
  | order hr =>
    obtain ⟨_, _, rfl⟩ := computeOrder_eq_ok hr
    exact hsame (.refl _) fun _ hl => hl
  | decompose hr =>
    obtain ⟨_, rfl⟩ := decompose_eq_ok hr
    exact hsame (.refl _) fun _ hl => hl
  | models pool => exact hsame (.refl _) fun _ hl => hl

theorem Unreplaced.represents (h : Unreplaced F s) : Represents F s := by
  induction h with
  | blank options limit => exact fun _ _ hc => absurd hc List.not_mem_nil
  | ofFormula f options => exact represents_ofFormula f options
  | call h hcall hkept ih =>
    intro hconf c hc
    have hr := hcall.losesNothing h.reachable.sound hkept hconf
    rcases hr.kept c hc with hc | hk
    · exact (ih hr.conflicted c hc).of_keeps hr.given hr.roots
    · exact hk

/-- A formula with a valuation is not refuted. -/
theorem Reachable.not_conflicted (h : Reachable F s) (hsat : Satisfiable F) :
    s.conflicted = false := by
  by_contra hc
  exact h.sound.refuted (by simpa using hc) hsat

/-- **As long as no variable was replaced** the solver stands for the clauses
given. -/
theorem Unreplaced.standsFor (h : Unreplaced F s) (hsat : Satisfiable F) : StandsFor F s c :=
  .of_covers (h.represents.covers (h.reachable.not_conflicted hsat))

/-! ## Calls that replace variables -/

/-- **The states that calls lead to, with the variables replaced on the way.** A
clause that is added later mentions none of these, unless it was given before. -/
inductive Replacing : List Clause → List Var → Solver → Prop where
  | unreplaced {F : List Clause} {s : Solver} (h : Unreplaced F s) : Replacing F [] s
  | call {F F' : List Clause} {vs : List Var} {s s' : Solver} (h : Replacing F vs s)
      (hcall : Call F s F' s') (hkept : ∀ sub, s.substitute = .ok (sub, s') → sub.replaced = [])
      (hapart : ∀ c ∈ F', c ∈ F ∨ ∀ l ∈ c, l.var ∉ vs) : Replacing F' vs s'
  | substitute {F : List Clause} {vs : List Var} {s s' : Solver} {sub : Substitution}
      (h : Replacing F vs s) (hr : s.substitute = .ok (sub, s')) :
      Replacing F (sub.replaced.map Prod.fst ++ vs) s'

theorem Replacing.reachable (h : Replacing F vs s) : Reachable F s := by
  induction h with
  | unreplaced h => exact h.reachable
  | call _ hcall _ _ ih => exact .call ih hcall
  | substitute _ hr ih => exact .call ih (.substitute hr)

/-- Only the variables of a solver matter to it. -/
theorem GivenHold.congr {ν' : Valuation} (hs : Sound F s) (h : GivenHold s ν)
    (heq : ∀ v : Var, v.index < s.varCount → ν v = ν' v) : GivenHold s ν' where
  roots := by
    intro l hl
    rw [← Lit.holds_congr (heq l.var (hs.trail.inRange l (List.mem_of_mem_take hl)))]
    exact h.roots l hl
  given := by
    intro c hc
    rw [← Clause.holds_congr fun l hl => heq l.var (hs.occurs_of_given hc hl).1]
    exact h.given c hc

theorem overwrite_of_not_mem {v : Var} (hv : v ∉ sub.replaced.map Prod.fst) :
    sub.overwrite ν v = ν v := by
  unfold Substitution.overwrite
  rw [Substitution.representative?_eq_none_iff.mpr fun x hx he =>
    hv (List.mem_map.mpr ⟨x, hx, he⟩)]

/-- **Back to the given clauses before**: the replaced variables get the values of
their representatives. -/
theorem Substitutes.givenHold_overwrite (hs : Sound F s) (h0 : s.level = 0)
    (h : s.Substitutes sub s') (hconf : s'.conflicted = false) (hν : GivenHold s' ν) :
    GivenHold s (sub.overwrite ν) := by
  cases h with
  | conflicted => exact hν
  | opposed => cases hconf
  | unchanged => exact hν
  | refuted => cases hconf
  | rebuilt hrep hp =>
    obtain ⟨hs₁, h₁⟩ := restarted_spec hs h0 hrep.classes sub
    have h₂ := propagateFrom_spec hs₁ h₁.level hp
    refine (h₁.given (h₂.conflicted ▸ hconf) ν (h₂.given ν hν)).congr hs fun v hv => ?_
    unfold Substitution.overwrite
    cases hr : sub.representative? v with
    | none =>
      rw [hrep.root_of_none hv hr]
      simp [Lit.holds, Var.pos]
    | some r =>
      obtain ⟨-, -, rfl⟩ := hrep.representative_iff.mp hr
      rfl

/-- **A solver covers some clauses but for some variables** if these alone have to
change in whatever satisfies the solver, to satisfy the clauses. -/
def CoversBut (F : List Clause) (vs : List Var) (s : Solver) : Prop :=
  s.conflicted = false → ∀ ν, GivenHold s ν → ∃ ν', allHold ν' F = true ∧ ∀ v, v ∉ vs → ν' v = ν v

/-- **Substitutions lose nothing but the variables they replace**, by induction on
the calls. -/
theorem Replacing.coversBut (h : Replacing F vs s) : CoversBut F vs s := by
  induction h with
  | unreplaced h => exact fun hconf ν hν => ⟨ν, h.represents.covers hconf ν hν, fun _ _ => rfl⟩
  | @call F F' vs s s' h hcall hkept hapart ih =>
    intro hconf ν hν
    have hr := hcall.losesNothing h.reachable.sound hkept hconf
    obtain ⟨ν', hF, hsame⟩ := ih hr.conflicted ν (hr.givenHold hν)
    refine ⟨ν', allHold_iff.mpr fun d hd => ?_, hsame⟩
    -- a new clause mentions no replaced variable
    rcases hapart d hd with hd | hfree
    · exact allHold_iff.mp hF d hd
    · rcases hr.kept d hd with hd | hk
      · exact allHold_iff.mp hF d hd
      · rw [Clause.holds_congr fun l hl => hsame l.var (hfree l hl)]
        exact hk.holds hν
  | @substitute F vs s s' sub h hr ih =>
    intro hconf ν hν
    obtain ⟨h0, hsub⟩ := substitutes_of_ok h.reachable.sound hr
    have hconf₀ : s.conflicted = false :=
      (substitute_spec h.reachable.sound hr).2.conflicted hconf
    obtain ⟨ν', hF, hsame⟩ := ih hconf₀ _
      (hsub.givenHold_overwrite h.reachable.sound h0 hconf hν)
    refine ⟨ν', hF, fun v hv => ?_⟩
    obtain ⟨hreplaced, hold⟩ := not_or.mp (List.mem_append.not.mp hv)
    exact (hsame v hold).trans (overwrite_of_not_mem hreplaced)

/-- **On a component without replaced variables** the solver stands for the clauses
given, as long as no replaced variable is assigned. -/
theorem Replacing.standsFor (h : Replacing F vs s) (hsat : Satisfiable F)
    (hopen : ∀ v ∈ vs, s.trail.isAssigned v = false) (hvars : ∀ v ∈ c.vars, v ∉ vs) :
    StandsFor F s c := by
  intro ν hν htrail
  obtain ⟨ν', hF, hsame⟩ := h.coversBut (h.reachable.not_conflicted hsat) ν hν
  refine ⟨ν', ⟨hF, fun l hl => ?_⟩, fun v hv => hsame v (hvars v hv)⟩
  have hl' : l.var ∉ vs := fun hin => by
    have hassigned := h.reachable.sound.trail.isAssigned_iff.mpr ⟨l, hl, rfl⟩
    rw [hopen l.var hin] at hassigned
    cases hassigned
  rw [Lit.holds_congr (hsame l.var hl')]
  exact htrail l hl

/-! ### Right after a substitution -/

/-- What is known at level 0 is about variables of given clauses. -/
theorem Reachable.open_of_absent {v : Var} (h : Reachable F s) (hsat : Satisfiable F)
    (h0 : s.level = 0) (hv : s.Absent v) : s.trail.isAssigned v = false := by
  by_contra hassigned
  obtain ⟨l, hl, rfl⟩ := h.sound.trail.isAssigned_iff.mp (by simpa using hassigned)
  have hown := h.restsOnGiven (h.not_conflicted hsat)
  have hent : Entails s.store.givenClauses [l] := hown.entails_of_level_zero h0 hl
  obtain ⟨ν, hν⟩ := hsat
  have hgiven : allHold ν s.store.givenClauses = true := allHold_iff.mpr fun d hd =>
    h.sound.entailed.has (ClauseStore.has_of_exported (ClauseStore.mem_givenClauses.mp hd)) ν hν
  -- no given clause notices another value of the variable
  have hflipped : allHold (Function.update ν l.var (!ν l.var)) s.store.givenClauses = true := by
    refine allHold_iff.mpr fun d hd => ?_
    have hstored := ClauseStore.has_of_exported (ClauseStore.mem_givenClauses.mp hd)
    rw [← Clause.holds_congr fun m hm =>
      (Function.update_of_ne (hv.clauses d hstored m hm) _ ν).symm]
    exact allHold_iff.mp hgiven d hd
  have hbefore := Lit.holds_iff.mp (hent.lit hgiven)
  have hafter := Lit.holds_iff.mp (hent.lit hflipped)
  rw [Function.update_self, hbefore] at hafter
  simp at hafter

/-- **No replaced variable is assigned** when a substitution ends. -/
theorem Reachable.open_of_replaced (h : Reachable F s) (hsat : Satisfiable F)
    (hr : s.substitute = .ok (sub, s')) :
    ∀ v ∈ sub.replaced.map Prod.fst, s'.trail.isAssigned v = false := by
  intro v hv
  obtain ⟨h0, hsub⟩ := substitutes_of_ok h.sound hr
  have h' : Reachable F s' := .call h (.substitute hr)
  cases hrep : sub.representative? v with
  | none =>
    obtain ⟨x, hx, hxv⟩ := List.mem_map.mp hv
    exact absurd hxv (Substitution.representative?_eq_none_iff.mp hrep x hx)
  | some r =>
    exact h'.open_of_absent hsat (substitute_spec h.sound hr).2.level
      (hsub.absent h.sound h0 hrep)

/-- **Right after the first substitution** the solver stands for the clauses given on
every component without replaced variables. -/
theorem Unreplaced.standsFor_of_substitute (h : Unreplaced F s) (hsat : Satisfiable F)
    (hr : s.substitute = .ok (sub, s')) (hvars : ∀ v ∈ c.vars, v ∉ sub.replaced.map Prod.fst) :
    StandsFor F s' c := by
  refine (Replacing.substitute (.unreplaced h) hr).standsFor hsat ?_ ?_ <;> rw [List.append_nil]
  · exact h.reachable.open_of_replaced hsat hr
  · exact hvars

end Solver

end Cleave
