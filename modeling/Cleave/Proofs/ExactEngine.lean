import Cleave.Proofs.Engine
import Mathlib.Data.List.Nodup

/-!
# What the backbone engine finds is all there is

`BackboneEngine.run_spec` says that everything the engine reports holds. With
a SAT procedure that is sound and complete (`SatProcedure.Exact`) nothing is
missing either, whichever models the procedure chooses to find.

The candidates are the values that all known models share. An implied literal
is true in every model, also in one that leaves variables open
(`IsModel.mem_of_entailed`), so it never leaves the candidates; and a
candidate that is not implied is lost to the model that refutes it. After the
candidates were probed a variable is therefore shared if and only if it has an
implied literal (`probeUnits_exact`). The literals that hold together with
another one are narrowed down in the same way (`probeImplied_exact`).
-/

namespace Cleave

/-! ## Shared values -/

namespace VarTable

theorem get_foldl_lits (m : List Lit) (t : VarTable (Option Bool)) {l : Lit}
    (hsize : l.var.index < t.size) (hm : ∀ k ∈ m, k.var = l.var → k = l)
    (hl : t[l.var] = some l.positive ∨ l ∈ m) :
    (m.foldl (fun t k => t.set k.var (some k.positive)) t)[l.var] = some l.positive := by
  induction m generalizing t with
  | nil => exact hl.resolve_right List.not_mem_nil
  | cons k m ih =>
    refine ih _ (by simpa using hsize) (fun j hj => hm j (List.mem_cons_of_mem _ hj)) ?_
    by_cases hvar : k.var = l.var
    · obtain rfl := hm k List.mem_cons_self hvar
      exact .inl (get_set_self hsize _)
    · rw [get_set_ne _ hvar]
      refine hl.imp_right fun hin => (List.mem_cons.mp hin).resolve_left ?_
      rintro rfl
      exact hvar rfl

theorem get_foldl_update {α : Type} [Inhabited α] (f : Var → α → α) (vs : List Var)
    (hvs : vs.Nodup) (t : VarTable α) {v : Var} (hsize : v.index < t.size) :
    (vs.foldl (fun t w => t.set w (f w t[w])) t)[v] = if v ∈ vs then f v t[v] else t[v] := by
  induction vs generalizing t with
  | nil => rfl
  | cons w vs ih =>
    obtain ⟨hw, hvs⟩ := List.nodup_cons.mp hvs
    rw [List.foldl_cons, ih hvs _ (by simpa using hsize)]
    by_cases hvar : w = v
    · subst hvar
      rw [if_neg hw, get_set_self hsize, if_pos List.mem_cons_self]
    · rw [get_set_ne _ hvar]
      simp [List.mem_cons, Ne.symm hvar]

end VarTable

namespace BackboneEngine

variable {P : SatProcedure} {cs : List Clause} {e e' : BackboneEngine P}

theorem get_addModel (hsize : e.shared.size = e.varCount) (m : List Lit) {v : Var}
    (hv : v.index < e.varCount) : (e.addModel m).shared[v] = narrow e.known e.shared[v]
      (m.foldl (fun t l => t.set l.var (some l.positive)) (VarTable.sized e.varCount))[v] :=
  (VarTable.get_foldl_update (fun w old => narrow e.known old (m.foldl
    (fun t l => t.set l.var (some l.positive)) (VarTable.sized e.varCount))[w]) _
      (Var.nodup_range e.varCount) e.shared (hsize ▸ hv)).trans (if_pos (Var.mem_range.mpr hv))

/-- **What a known model leaves** of the value of a literal it has. -/
theorem shared_addModel (hsize : e.shared.size = e.varCount) {m : List Lit}
    (hm : ∀ l ∈ m, l.neg ∉ m) {l : Lit} (hl : l ∈ m) (hvar : l.var.index < e.varCount) :
    (e.addModel m).shared[l.var] = narrow e.known e.shared[l.var] (some l.positive) := by
  rw [get_addModel hsize m hvar, VarTable.get_foldl_lits m (VarTable.sized e.varCount)
    (by simpa using hvar) (fun k hk hvar => (Lit.eq_or_eq_neg hvar).resolve_right fun heq =>
      hm l hl (heq ▸ hk)) (.inr hl)]

/-- A model with the opposite literal ends a shared value. -/
theorem shared_addModel_of_neg (hsize : e.shared.size = e.varCount) (hknown : e.known ≠ 0)
    {m : List Lit} (hm : ∀ l ∈ m, l.neg ∉ m) {v : Var} (hv : v.index < e.varCount) {value : Bool}
    (hvalue : e.shared[v] = some value) (hneg : (v.lit value).neg ∈ m) :
    (e.addModel m).shared[v] = none := by
  have hshared := shared_addModel hsize hm hneg hv
  rw [show (v.lit value).neg.var = v from rfl] at hshared
  rw [hshared, narrow, if_neg hknown, hvalue, if_neg]
  simp [Lit.neg, Var.lit]

/-- Another model never adds a shared value. -/
theorem shared_of_addModel (hsize : e.shared.size = e.varCount) (hknown : e.known ≠ 0)
    (m : List Lit) {v : Var} (hv : v.index < e.varCount) {value : Bool}
    (h : (e.addModel m).shared[v] = some value) : e.shared[v] = some value := by
  rw [get_addModel hsize m hv, narrow, if_neg hknown] at h
  split at h
  · exact h
  · cases h

/-- **The engine tracks the models of some clauses**: the procedure was given
the clauses and what follows from them, and no implied literal was lost. -/
structure Tracks (cs : List Clause) (e : BackboneEngine P) : Prop where
  clauses : ∃ ds, e.solver.Stands ds ∧ cs ⊆ ds ∧ ∀ ν, allHold ν cs = true → allHold ν ds = true
  mapped : e.solver.mapped.size = e.varCount
  size : e.shared.size = e.varCount
  shared : e.known ≠ 0 → ∀ l : Lit, l.var.index < e.varCount → Entails cs [l] →
    e.shared[l.var] = some l.positive

/-- The shared value of a variable is the one candidate it has. -/
theorem Tracks.eq_candidate (h : e.Tracks cs) (hknown : e.known ≠ 0) {v : Var}
    (hv : v.index < e.varCount) {value : Bool} (hvalue : e.shared[v] = some value) {k : Lit}
    (hk : k.var = v) (hent : Entails cs [k]) : k = v.lit value := by
  subst hk
  have hshared := h.shared hknown k hv hent
  rw [hvalue] at hshared
  exact Lit.eq_of_var_eq rfl (Option.some.inj hshared).symm

/-- Only the procedure takes notice of a clause. -/
theorem addClauses_eq (ds : List Clause) : ∃ solver, ds.foldl BackboneEngine.addClause e
    = { e with solver := solver } := by
  induction ds generalizing e with
  | nil => exact ⟨e.solver, rfl⟩
  | cons d ds ih => exact ih (e := e.addClause d)

theorem stands_addClauses (hP : P.Trusted) (ds : List Clause) {es : List Clause}
    (hover : Over ds e.varCount) (hsize : e.solver.mapped.size = e.varCount)
    (h : e.solver.Stands es) :
    (ds.foldl BackboneEngine.addClause e).solver.Stands (ds.reverse ++ es)
      ∧ (ds.foldl BackboneEngine.addClause e).solver.mapped.size = e.varCount := by
  induction ds generalizing e es with
  | nil => exact ⟨h, hsize⟩
  | cons d ds ih =>
    rw [List.reverse_cons, List.append_assoc]
    exact ih (e := e.addClause d) (fun c hc => hover c (List.mem_cons_of_mem _ hc))
      ((LookupSolver.size_addClause _ d).trans hsize)
      (h.addClause hP fun l hl => hsize.symm ▸ hover d List.mem_cons_self l hl)

/-- The engine with clauses tracks them. -/
theorem tracks_clauses (hP : P.Trusted) {cs : List Clause} {count : Nat} (hover : Over cs count) :
    (cs.foldl BackboneEngine.addClause (new P count)).Tracks cs := by
  obtain ⟨hstands, hmapped⟩ := stands_addClauses hP cs (e := new P count) hover
    (VarTable.size_sized count) (LookupSolver.stands_new P count)
  obtain ⟨solver, heq⟩ := addClauses_eq (e := new P count) cs
  rw [heq] at hstands hmapped ⊢
  refine ⟨⟨_, hstands, fun c hc => ?_, fun ν hν => allHold_iff.mpr fun c hc => ?_⟩, hmapped,
    VarTable.size_sized count, fun h => absurd rfl h⟩
  · simpa using hc
  · exact allHold_iff.mp hν c (by simpa using hc)

theorem Tracks.lookupVars (hP : P.Trusted) (h : e.Tracks cs) : e.lookupVars.Tracks cs := by
  obtain ⟨ds, hds, hsub, hall⟩ := h.clauses
  obtain ⟨hstands, hsize⟩ := stands_lookupVars hP h.mapped hds
  exact ⟨⟨ds, hstands, hsub, hall⟩, hsize, h.size, h.shared⟩

/-- **A model keeps the implied literals shared.** -/
theorem Tracks.addModel (h : e.Tracks cs) {m : List Lit} (hm : IsModel cs m) :
    (e.addModel m).Tracks cs := by
  refine ⟨h.clauses, h.mapped, ?_, fun _ l hvar hl => ?_⟩
  · unfold BackboneEngine.addModel
    exact (VarTable.size_foldl_set _ _ _).trans h.size
  · rw [shared_addModel h.size hm.consistent (hm.mem_of_unit hl) hvar, narrow]
    split
    · rfl
    · rename_i hknown
      rw [h.shared hknown l hvar hl, if_pos rfl]

theorem Tracks.addModels (ms : List (List Lit)) (h : e.Tracks cs) (hms : ∀ m ∈ ms, IsModel cs m) :
    (ms.foldl BackboneEngine.addModel e).Tracks cs
      ∧ (ms.foldl BackboneEngine.addModel e).varCount = e.varCount := by
  induction ms generalizing e with
  | nil => exact ⟨h, rfl⟩
  | cons m ms ih =>
    exact ih (h.addModel (hms m List.mem_cons_self)) fun k hk => hms k (List.mem_cons_of_mem _ hk)

/-- An implied literal may be given to the procedure as well. -/
theorem Tracks.addUnit (hP : P.Trusted) (h : e.Tracks cs) {l : Lit}
    (hvar : l.var.index < e.varCount) (hl : Entails cs [l]) : (e.addClause [l]).Tracks cs := by
  obtain ⟨ds, hds, hsub, hall⟩ := h.clauses
  refine ⟨⟨[l] :: ds, hds.addClause hP (List.forall_mem_singleton.mpr (h.mapped.symm ▸ hvar)),
    fun c hc => List.mem_cons_of_mem _ (hsub hc), fun ν hν => ?_⟩,
    (LookupSolver.size_addClause _ _).trans h.mapped, h.size, h.shared⟩
  exact allHold_iff.mpr (List.forall_mem_cons.mpr ⟨hl ν hν, allHold_iff.mp (hall ν hν)⟩)

/-! ## Questions -/

/-- **An exact reply** to a question: one of the assumptions is false wherever
the clauses hold, or a model over the engine's variables satisfies them all. -/
inductive Replied (cs : List Clause) (count : Nat) (assumptions : List Lit) : Reply → Prop where
  | refuted (h : Entails cs (assumptions.map Lit.neg)) : Replied cs count assumptions .refuted
  | found {m : List Lit} (model : IsModel cs m) (assumed : assumptions ⊆ m)
      (inRange : ∀ l ∈ m, l.var.index < count) :
      Replied cs count assumptions (.satisfiable (some m))

/-- A procedure that answers makes an engine that does. -/
theorem ask_of_solve {assumptions : List Lit} {satisfiable : Bool} {solver : LookupSolver P}
    (h : e.solver.solve assumptions = .ok (satisfiable, solver)) : e.ask assumptions
      = .ok (if satisfiable then .satisfiable solver.originalModel else .refuted,
        { e with solver := solver }) := by
  unfold BackboneEngine.ask
  rw [h]
  rfl

theorem Tracks.ask (hP : P.Exact) (h : e.Tracks cs)
    (assumptions : List Lit) (hass : ∀ l ∈ assumptions, l.var.index < e.varCount) :
    ∃ r solver, e.ask assumptions = .ok (r, { e with solver := solver })
      ∧ Tracks cs { e with solver := solver } ∧ Replied cs e.varCount assumptions r := by
  obtain ⟨ds, hds, hsub, hall⟩ := h.clauses
  rw [← h.mapped] at hass
  obtain ⟨satisfiable, solver, hsolve⟩ := hds.answers hP assumptions hass
  have hsize : solver.mapped.size = e.varCount := (LookupSolver.size_of_solve hsolve).trans h.mapped
  refine ⟨_, solver, ask_of_solve hsolve, ⟨⟨ds, (hds.solve hP.trusted hass hsolve).1, hsub, hall⟩,
    hsize, h.size, h.shared⟩, ?_⟩
  cases satisfiable with
  | false =>
    refine .refuted fun ν hν => ?_
    obtain ⟨l, hl, hfalse⟩ := hds.denied hP.trusted hass hsolve (hall ν hν)
    exact Clause.holds_iff.mpr ⟨l.neg, List.mem_map_of_mem hl, Lit.neg_holds_of_not hfalse⟩
  | true =>
    obtain ⟨m, hm, hmodel, hassumed⟩ := hds.found hP hass hsolve
    rw [if_pos rfl, hm]
    exact .found (hmodel.mono hsub) hassumed
      (hsize ▸ LookupSolver.index_lt_of_mem_originalModel hm)

/-! ## Implied literals -/

/-- A shared value is implied. -/
def Settled (cs : List Clause) (e : BackboneEngine P) (v : Var) : Prop :=
  ∀ value, e.shared[v] = some value → Entails cs [v.lit value]

/-- **The candidates are probed**: every variable is settled, and exactly the
implied literals are reported, in order. -/
structure Probed (cs : List Clause) (vs : List Var) (answer answer' : EngineAnswer)
    (e e' : BackboneEngine P) : Prop where
  tracks : e'.Tracks cs
  varCount : e'.varCount = e.varCount
  known : e'.known ≠ 0
  settled : ∀ v, v.index < e.varCount → (v ∈ vs ∨ Settled cs e v) → Settled cs e' v
  units : ∃ us, answer'.units = answer.units ++ us ∧ (us.map Lit.var).Sublist vs
    ∧ ∀ l, l ∈ us ↔ l.var ∈ vs ∧ Entails cs [l]
  satisfiable : answer'.satisfiable = answer.satisfiable
  binaries : answer'.binaries = answer.binaries
  models : ∀ m ∈ answer'.models, m ∈ answer.models ∨ IsModel cs m
  kept : answer.models ⊆ answer'.models

theorem Settled.addModel {v : Var} (h : Settled cs e v) (hsize : e.shared.size = e.varCount)
    (hknown : e.known ≠ 0) (hv : v.index < e.varCount) (m : List Lit) :
    Settled cs (e.addModel m) v := fun value hvalue =>
  h value (shared_of_addModel hsize hknown m hv hvalue)

theorem record_units (request : EngineRequest) (answer : EngineAnswer) (m : List Lit) :
    (record request answer m).units = answer.units := by
  unfold record
  split <;> rfl

theorem record_binaries (request : EngineRequest) (answer : EngineAnswer) (m : List Lit) :
    (record request answer m).binaries = answer.binaries := by
  unfold record
  split <;> rfl

theorem record_kept (request : EngineRequest) (answer : EngineAnswer) (m : List Lit) :
    answer.models ⊆ (record request answer m).models := by
  unfold record
  split
  · exact List.subset_append_left _ _
  · exact List.Subset.refl _

theorem record_satisfiable (request : EngineRequest) (answer : EngineAnswer) (m : List Lit) :
    (record request answer m).satisfiable = answer.satisfiable := by
  unfold record
  split <;> rfl

theorem mem_record_models {request : EngineRequest} {answer : EngineAnswer} {m k : List Lit}
    (hk : k ∈ (record request answer m).models) : k ∈ answer.models ∨ k = m := by
  unfold record at hk
  split at hk
  · exact (List.mem_append.mp hk).imp_right List.mem_singleton.mp
  · exact .inl hk

/-- A variable without an implied literal is passed over. -/
theorem Probed.skip {vs : List Var} {v : Var} {answer answer₁ answer' : EngineAnswer}
    {e₁ : BackboneEngine P} (h : Probed cs vs answer₁ answer' e₁ e')
    (hcount : e₁.varCount = e.varCount) (hunits : answer₁.units = answer.units)
    (hsat : answer₁.satisfiable = answer.satisfiable)
    (hbinaries : answer₁.binaries = answer.binaries)
    (hmodels : ∀ m ∈ answer₁.models, m ∈ answer.models ∨ IsModel cs m)
    (hkept : answer.models ⊆ answer₁.models)
    (hsettled : ∀ w, w.index < e.varCount → Settled cs e w → Settled cs e₁ w)
    (hv : Settled cs e₁ v) (hno : ∀ l : Lit, l.var = v → ¬ Entails cs [l]) :
    Probed cs (v :: vs) answer answer' e e' := by
  obtain ⟨us, heq, hsub, hus⟩ := h.units
  refine ⟨h.tracks, h.varCount.trans hcount, h.known, fun w hw hmem => ?_,
    ⟨us, hunits ▸ heq, hsub.cons _, fun l => ?_⟩, h.satisfiable.trans hsat,
    h.binaries.trans hbinaries, fun m hm => ?_, fun _ hm => h.kept (hkept hm)⟩
  · refine h.settled w (hcount ▸ hw) ?_
    rcases hmem with hmem | hset
    · rcases List.mem_cons.mp hmem with rfl | hmem
      · exact .inr hv
      · exact .inl hmem
    · exact .inr (hsettled w hw hset)
  · rw [hus]
    refine ⟨fun ⟨hmem, hl⟩ => ⟨List.mem_cons_of_mem _ hmem, hl⟩, fun ⟨hmem, hl⟩ => ⟨?_, hl⟩⟩
    exact (List.mem_cons.mp hmem).resolve_left fun heq => hno l heq hl
  · exact (h.models m hm).elim (hmodels m) .inr

/-- An implied literal is reported. -/
theorem Probed.report {vs : List Var} {l : Lit} {answer answer₁ answer' : EngineAnswer}
    {e₁ : BackboneEngine P} (h : Probed cs vs answer₁ answer' e₁ e')
    (hcount : e₁.varCount = e.varCount)
    (hunits : answer₁.units = answer.units ++ [l]) (hsat : answer₁.satisfiable = answer.satisfiable)
    (hbinaries : answer₁.binaries = answer.binaries)
    (hmodels : answer₁.models = answer.models) (hshared : e₁.shared = e.shared)
    (hvs : l.var ∉ vs) (hl : Entails cs [l]) (hno : ¬ Entails cs [l.neg])
    (hv : Settled cs e₁ l.var) :
    Probed cs (l.var :: vs) answer answer' e e' := by
  obtain ⟨us, heq, hsub, hus⟩ := h.units
  refine ⟨h.tracks, h.varCount.trans hcount, h.known, fun w hw hmem => ?_,
    ⟨l :: us, by rw [heq, hunits, List.append_assoc]; rfl, hsub.cons_cons _, fun k => ?_⟩,
    h.satisfiable.trans hsat, h.binaries.trans hbinaries, fun m hm => hmodels ▸ h.models m hm,
    hmodels ▸ h.kept⟩
  · refine h.settled w (hcount ▸ hw) ?_
    rcases hmem with hmem | hset
    · rcases List.mem_cons.mp hmem with rfl | hmem
      · exact .inr hv
      · exact .inl hmem
    · exact .inr fun value hvalue => hset value (hshared ▸ hvalue)
  · rw [List.mem_cons, List.mem_cons, hus]
    refine ⟨?_, fun ⟨hmem, hk⟩ => ?_⟩
    · rintro (rfl | ⟨hmem, hk⟩)
      · exact ⟨.inl rfl, hl⟩
      · exact ⟨.inr hmem, hk⟩
    · rcases hmem with heq | hmem
      · refine .inl ((Lit.eq_or_eq_neg heq).resolve_right fun hneg => ?_)
        exact hno (hneg ▸ hk)
      · exact .inr ⟨hmem, hk⟩

/-- **Exactly the implied literals are found**, whichever models are. -/
theorem probeUnits_exact (hP : P.Exact) {request : EngineRequest} (hrequest : request.units = true)
    (vs : List Var) (hnodup : vs.Nodup) (answer : EngineAnswer)
    (hvs : ∀ v ∈ vs, v.index < e.varCount) (h : e.Tracks cs) (hknown : e.known ≠ 0) :
    ∃ answer' e', probeUnits request vs answer e = .ok (answer', e')
      ∧ Probed cs vs answer answer' e e' := by
  induction vs generalizing e answer with
  | nil =>
    refine ⟨answer, e, rfl, h, rfl, hknown, fun v _ hv => hv.resolve_left List.not_mem_nil, ?_, rfl,
      rfl, fun m hm => .inl hm, List.Subset.refl _⟩
    exact ⟨[], (List.append_nil _).symm, List.Sublist.refl _, by simp⟩
  | cons v rest ih =>
    obtain ⟨hfresh, hnodup⟩ := List.nodup_cons.mp hnodup
    have hv := hvs v List.mem_cons_self
    have hrest : ∀ w ∈ rest, w.index < e.varCount := fun w hw => hvs w (List.mem_cons_of_mem _ hw)
    unfold probeUnits
    split
    · rename_i hopen
      obtain ⟨answer', e', hprobe, hprobed⟩ := ih hnodup answer hrest h hknown
      refine ⟨answer', e', hprobe, hprobed.skip rfl rfl rfl rfl (fun m hm => .inl hm)
        (List.Subset.refl _) (fun _ _ hw => hw) (fun value hvalue => ?_) fun l hl hent => ?_⟩
      · rw [hopen] at hvalue
        cases hvalue
      · have hshared := h.shared hknown l (hl ▸ hv) hent
        rw [hl, hopen] at hshared
        cases hshared
    · rename_i value hvalue
      have hcandidate : ∀ k : Lit, k.var = v → Entails cs [k] → k = v.lit value := fun k hk hent =>
        h.eq_candidate hknown hv hvalue hk hent
      obtain ⟨r, solver, hask, htracks, hreplied⟩ := h.ask hP [(v.lit value).neg]
        (List.forall_mem_singleton.mpr hv)
      simp only [hask, bind, Except.bind]
      cases hreplied with
      | found hmodel hassumed hin =>
        rename_i m
        have hneg : (v.lit value).neg ∈ m := hassumed List.mem_cons_self
        obtain ⟨answer', e', hprobe, hprobed⟩ := ih hnodup (record request answer m)
          (e := BackboneEngine.addModel { e with solver := solver } m) hrest
          (htracks.addModel hmodel) (Nat.succ_ne_zero _)
        refine ⟨answer', e', hprobe, hprobed.skip rfl (record_units _ _ _)
          (record_satisfiable _ _ _) (record_binaries _ _ _)
          (fun k hk => (mem_record_models hk).imp_right fun heq => by rw [heq]; exact hmodel)
          (record_kept _ _ _)
          (fun w hw hset => ?_) (fun other hother => ?_) fun k hk hent => ?_⟩
        · exact Settled.addModel (e := { e with solver := solver }) hset h.size hknown hw m
        · rw [shared_addModel_of_neg (e := { e with solver := solver }) h.size hknown
            hmodel.consistent hv hvalue hneg] at hother
          cases hother
        · refine hmodel.consistent _ ?_ hneg
          rw [← hcandidate k hk hent]
          exact hmodel.mem_of_unit hent
      | refuted hno =>
        have hent : Entails cs [v.lit value] := by simpa using hno
        obtain ⟨answer', e', hprobe, hprobed⟩ := ih hnodup
          { answer with units := answer.units ++ [v.lit value] }
          (e := BackboneEngine.addClause { e with solver := solver } [v.lit value]) hrest
          (htracks.addUnit hP.trusted hv hent) hknown
        refine ⟨answer', e', ?_, hprobed.report (e := e) rfl rfl rfl rfl rfl rfl hfresh hent
          (fun hneg => ?_) fun other hother => ?_⟩
        · simp only [hrequest, if_true]
          exact hprobe
        · exact absurd (congrArg Lit.positive (hcandidate _ rfl hneg)) (by simp [Lit.neg])
        · have hsame : e.shared[v] = some other := hother
          rw [hvalue] at hsame
          cases hsame
          exact hent

/-! ## Implied binary clauses -/

/-- **Exactly what holds together with a literal is found**: the models only
discard what one of them refutes. -/
theorem probeImplied_exact (hP : P.Exact) {l : Lit} (hl : l.var.index < e.varCount) (fuel : Nat)
    (implied found : List Lit) (hfuel : implied.length ≤ fuel) (himplied : ∀ k ∈ implied, k.var.index < e.varCount)
    (h : e.Tracks cs) :
    ∃ found' solver, probeImplied l fuel implied found e = .ok (found', { e with solver := solver })
      ∧ Tracks cs { e with solver := solver }
      ∧ ∀ k, k ∈ found' ↔ k ∈ found ∨ (k ∈ implied ∧ Entails cs [l.neg, k]) := by
  induction fuel generalizing e implied found with
  | zero =>
    obtain rfl := List.length_eq_zero_iff.mp (Nat.le_zero.mp hfuel)
    exact ⟨found, e.solver, rfl, h, by simp⟩
  | succ fuel ih =>
    unfold probeImplied
    split
    · rename_i hnone
      obtain rfl := List.getLast?_eq_none_iff.mp hnone
      exact ⟨found, e.solver, rfl, h, by simp⟩
    · rename_i last hlast
      obtain ⟨init, rfl⟩ : ∃ init, implied = init ++ [last] := List.getLast?_eq_some_iff.mp hlast
      have hinit : ∀ k ∈ init, k.var.index < e.varCount := fun k hk =>
        himplied k (List.mem_append_left _ hk)
      have hlength : init.length ≤ fuel := by simpa using hfuel
      obtain ⟨r, solver, hask, htracks, hreplied⟩ := h.ask hP [l, last.neg]
        (List.forall_mem_cons.mpr ⟨hl, List.forall_mem_singleton.mpr
          (himplied last (List.mem_append_right _ List.mem_cons_self))⟩)
      simp only [hask, bind, Except.bind, List.dropLast_concat]
      cases hreplied with
      | found hmodel hassumed hin =>
        rename_i m
        obtain ⟨found', solver', hprobe, htracks', hfound⟩ := ih (e := { e with solver := solver })
          hl (init.filter m.contains) found (Nat.le_trans (List.length_filter_le _ _) hlength)
          (fun k hk => hinit k (List.mem_of_mem_filter hk)) htracks
        refine ⟨found', solver', hprobe, htracks', fun k => ?_⟩
        rw [hfound, List.mem_filter, List.contains_iff_mem, List.mem_append, List.mem_singleton]
        refine or_congr_right (and_congr_left fun hent => ⟨fun hk => .inl hk.1, fun hk => ?_⟩)
        have hkm : k ∈ m := hmodel.mem_of_pair (hassumed List.mem_cons_self) hent
        rcases hk with hk | rfl
        · exact ⟨hk, hkm⟩
        · exact absurd (hassumed (by simp)) (hmodel.consistent k hkm)
      | refuted hno =>
        have hlast : Entails cs [l.neg, last] := by simpa using hno
        obtain ⟨found', solver', hprobe, htracks', hfound⟩ := ih (e := { e with solver := solver })
          hl init (last :: found) hlength hinit htracks
        refine ⟨found', solver', hprobe, htracks', fun k => ?_⟩
        rw [hfound, List.mem_cons, List.mem_append, List.mem_singleton]
        constructor
        · rintro ((rfl | hk) | ⟨hk, hent⟩)
          · exact .inr ⟨.inr rfl, hlast⟩
          · exact .inl hk
          · exact .inr ⟨.inl hk, hent⟩
        · rintro (hk | ⟨hk | rfl, hent⟩)
          · exact .inl (.inr hk)
          · exact .inr ⟨hk, hent⟩
          · exact .inl (.inl rfl)

/-- A binary clause found for a literal of a list. -/
def Partnered (cs : List Clause) (count : Nat) (isOpen : Var → Bool) (l : Lit) (c : Lit × Lit) :
    Prop :=
  ∃ k : Lit, k.var ≠ l.var ∧ isOpen k.var = true ∧ k.var.index < count ∧ Entails cs [l.neg, k]
    ∧ c = ordered l.neg k

/-- **Exactly the implied binary clauses are found** for every listed literal
that some model has. -/
theorem probeBinaries_exact (hP : P.Exact) (isOpen : Var → Bool) (ls : List Lit)
    (hls : ∀ l ∈ ls, l.var.index < e.varCount ∧ ¬ Entails cs [l.neg])
    (found : List (Lit × Lit)) (h : e.Tracks cs) :
    ∃ found' solver, probeBinaries isOpen ls found e = .ok (found', { e with solver := solver })
      ∧ Tracks cs { e with solver := solver }
      ∧ ∀ c, c ∈ found' ↔ c ∈ found ∨ ∃ l ∈ ls, Partnered cs e.varCount isOpen l c := by
  induction ls generalizing e found with
  | nil => exact ⟨found, e.solver, rfl, h, by simp⟩
  | cons l rest ih =>
    obtain ⟨⟨hl, hlive⟩, hrest⟩ := List.forall_mem_cons.mp hls
    obtain ⟨r, solver, hask, htracks, hreplied⟩ :=
      h.ask hP [l] (List.forall_mem_singleton.mpr hl)
    unfold probeBinaries
    simp only [hask, bind, Except.bind]
    cases hreplied with
    | refuted hno => exact absurd hno hlive
    | found hmodel hassumed hin =>
      rename_i m
      obtain ⟨others, solver₁, hprobe, htracks₁, hothers⟩ := probeImplied_exact hP
        (e := { e with solver := solver }) hl _ (m.filter fun k => k.var ≠ l.var && isOpen k.var) []
        (Nat.le_refl _) (fun k hk => hin k (List.mem_of_mem_filter hk)) htracks
      obtain ⟨found', solver₂, hmore, htracks₂, hfound⟩ := ih (e := { e with solver := solver₁ })
        hrest (found ++ others.map fun k => ordered l.neg k) htracks₁
      refine ⟨found', solver₂, ?_, htracks₂, fun c => ?_⟩
      · simp only [hprobe]
        exact hmore
      · have hpartnered : c ∈ others.map (fun k => ordered l.neg k)
            ↔ Partnered cs e.varCount isOpen l c := by
          rw [List.mem_map]
          constructor
          · rintro ⟨k, hk, rfl⟩
            obtain ⟨hk, hent⟩ := ((hothers k).mp hk).resolve_left List.not_mem_nil
            obtain ⟨hkm, hopen⟩ := List.mem_filter.mp hk
            simp only [ne_eq, decide_not, Bool.and_eq_true, Bool.not_eq_eq_eq_not, Bool.not_true,
              decide_eq_false_iff_not] at hopen
            exact ⟨k, hopen.1, hopen.2, hin k hkm, hent, rfl⟩
          · rintro ⟨k, hvar, hopen, -, hent, rfl⟩
            refine ⟨k, (hothers k).mpr (.inr ⟨List.mem_filter.mpr
              ⟨hmodel.mem_of_pair (hassumed List.mem_cons_self) hent, ?_⟩, hent⟩), rfl⟩
            simp [hvar, hopen]
        rw [hfound, List.mem_append, hpartnered, or_assoc]
        refine or_congr_right ⟨?_, ?_⟩
        · rintro (hc | ⟨k, hk, hc⟩)
          · exact ⟨l, List.mem_cons_self, hc⟩
          · exact ⟨k, List.mem_cons_of_mem _ hk, hc⟩
        · rintro ⟨k, hk, hc⟩
          rcases List.mem_cons.mp hk with rfl | hk
          · exact .inl hc
          · exact .inr ⟨k, hk, hc⟩

/-- **A variable without an implied literal.** -/
def Unfixed (cs : List Clause) (count : Nat) (v : Var) : Prop :=
  v.index < count ∧ ∀ l : Lit, l.var = v → ¬ Entails cs [l]

/-- **An implied binary clause** over two variables without an implied literal,
the smaller literal first. -/
structure ImpliedPair (cs : List Clause) (count : Nat) (c : Lit × Lit) : Prop where
  ordered : c.1.code < c.2.code
  distinct : c.1.var ≠ c.2.var
  left : Unfixed cs count c.1.var
  right : Unfixed cs count c.2.var
  holds : Entails cs [c.1, c.2]

/-- The strict order of binary clauses: by the smaller literal, then by the
other one. -/
def PairLt (x y : Lit × Lit) : Prop :=
  x.1.code < y.1.code ∨ (x.1 = y.1 ∧ x.2.code < y.2.code)

theorem pairLe_iff {x y : Lit × Lit} :
    pairLe x y = true ↔ x.1.code < y.1.code ∨ (x.1 = y.1 ∧ x.2.code ≤ y.2.code) := by
  simp [pairLe, Lit.blt, Lit.ble]

theorem pairwise_sorted (found : List (Lit × Lit)) :
    (squeeze (found.mergeSort pairLe)).Pairwise PairLt := by
  have htrans : ∀ x y z : Lit × Lit, pairLe x y = true → pairLe y z = true → pairLe x z = true := by
    intro x y z hxy hyz
    rw [pairLe_iff] at *
    rcases hxy with hxy | ⟨hxy, hxy'⟩ <;> rcases hyz with hyz | ⟨hyz, hyz'⟩
    · exact .inl (Nat.lt_trans hxy hyz)
    · exact .inl (hyz ▸ hxy)
    · exact .inl (hxy ▸ hyz)
    · exact .inr ⟨hxy.trans hyz, Nat.le_trans hxy' hyz'⟩
  have htotal : ∀ x y : Lit × Lit, (pairLe x y || pairLe y x) = true := by
    intro x y
    rw [Bool.or_eq_true, pairLe_iff, pairLe_iff, ← Lit.code_inj, ← Lit.code_inj]
    omega
  refine pairwise_squeeze_of_order (fun x y hle hne => ?_) (fun x y z hlt hle => ?_) _
    (List.pairwise_mergeSort htrans htotal found)
  · rcases pairLe_iff.mp hle with hlt | ⟨heq, hle⟩
    · exact .inl hlt
    · refine .inr ⟨heq, Nat.lt_of_le_of_ne hle fun hcode => hne ?_⟩
      exact Prod.ext heq (Lit.code_inj.mp hcode)
  · rcases hlt with hlt | ⟨heq, hlt⟩ <;> rcases pairLe_iff.mp hle with hle | ⟨heq', hle⟩
    · exact .inl (Nat.lt_trans hlt hle)
    · exact .inl (heq' ▸ hlt)
    · exact .inl (heq ▸ hle)
    · exact .inr ⟨heq.trans heq', Nat.lt_of_lt_of_le hlt hle⟩

theorem ordered_of_lt {a b : Lit} (h : a.code < b.code) : ordered a b = (a, b) :=
  if_pos (decide_eq_true (Nat.le_of_lt h))

/-- The clause found for a literal is the pair in order. -/
theorem ImpliedPair.of_ordered {count : Nat} {a b : Lit} (hvar : b.var ≠ a.var)
    (ha : Unfixed cs count a.var) (hb : Unfixed cs count b.var) (hent : Entails cs [a, b]) :
    ImpliedPair cs count (BackboneEngine.ordered a b) := by
  have hne : a.code ≠ b.code := fun hcode => hvar (congrArg Lit.var (Lit.code_inj.mp hcode).symm)
  unfold BackboneEngine.ordered
  split
  · rename_i hle
    exact ⟨Nat.lt_of_le_of_ne (of_decide_eq_true hle) hne, hvar.symm, ha, hb, hent⟩
  · rename_i hle
    have hlt : b.code < a.code := Nat.lt_of_not_le fun hle' => hle (decide_eq_true hle')
    exact ⟨hlt, hvar, hb, ha, hent.perm (List.Perm.swap b a [])⟩

/-- After the candidates were probed the open variables are those without an
implied literal. -/
theorem Tracks.isNone_shared_iff (h : e.Tracks cs) (hknown : e.known ≠ 0)
    (hsettled : ∀ v, v.index < e.varCount → Settled cs e v) {v : Var} (hv : v.index < e.varCount) :
    e.shared[v].isNone = true ↔ Unfixed cs e.varCount v := by
  constructor
  · intro hnone
    refine ⟨hv, fun l hl hent => ?_⟩
    subst hl
    rw [h.shared hknown l hv hent] at hnone
    cases hnone
  · intro hfree
    cases hvalue : e.shared[v] with
    | none => rfl
    | some value => exact absurd (hsettled v hv value hvalue) (hfree.2 _ rfl)

/-- **Exactly the implied binary clauses**, in order and each once. -/
theorem impliedBinaries_exact (hP : P.Exact) (h : e.Tracks cs)
    (hknown : e.known ≠ 0) (hsettled : ∀ v, v.index < e.varCount → Settled cs e v) :
    ∃ found e', e.impliedBinaries = .ok (found, e') ∧ found.Pairwise PairLt
      ∧ ∀ c, c ∈ found ↔ ImpliedPair cs e.varCount c := by
  have hopen : ∀ {v : Var}, v.index < e.varCount →
      (e.shared[v].isNone = true ↔ Unfixed cs e.varCount v) := fun hv =>
    h.isNone_shared_iff hknown hsettled hv
  have hlits : ∀ l, l ∈ ((Var.range e.varCount).filter fun v => e.shared[v].isNone).flatMap Var.lits
      ↔ Unfixed cs e.varCount l.var := by
    intro l
    rw [List.mem_flatMap]
    constructor
    · rintro ⟨v, hv, hl⟩
      obtain ⟨hrange, hnone⟩ := List.mem_filter.mp hv
      rw [Var.mem_lits.mp hl]
      exact (hopen (Var.mem_range.mp hrange)).mp hnone
    · intro hfree
      exact ⟨l.var, List.mem_filter.mpr ⟨Var.mem_range.mpr hfree.1, (hopen hfree.1).mpr hfree⟩,
        Var.mem_lits.mpr rfl⟩
  obtain ⟨found, solver, hprobe, -, hfound⟩ := probeBinaries_exact hP
    (fun v => e.shared[v].isNone) _
    (fun l hl => ⟨((hlits l).mp hl).1, ((hlits l).mp hl).2 _ rfl⟩) [] h
  refine ⟨squeeze (found.mergeSort pairLe), { e with solver := solver }, ?_, pairwise_sorted found,
    fun c => ?_⟩
  · unfold impliedBinaries
    simp only [hprobe, bind, Except.bind, pure, Except.pure]
  · rw [mem_squeeze, List.mem_mergeSort, hfound]
    constructor
    · intro hc
      obtain ⟨l, hl, k, hvar, hnone, hk, hent, rfl⟩ := hc.resolve_left List.not_mem_nil
      exact .of_ordered hvar ((hlits l).mp hl) ((hopen hk).mp hnone) hent
    · rintro ⟨hlt, hvar, hleft, hright, hent⟩
      refine .inr ⟨c.1.neg, (hlits _).mpr hleft, c.2, hvar.symm, (hopen hright.1).mpr hright,
        hright.1, ?_, ?_⟩
      · rwa [Lit.neg_neg]
      · rw [Lit.neg_neg, ordered_of_lt hlt]

/-! ## A run -/

/-- **An exact answer** about some clauses over the variables below a count. -/
structure ExactAnswer (cs : List Clause) (count : Nat) (request : EngineRequest)
    (answer : EngineAnswer) : Prop where
  satisfiable : answer.satisfiable = true ↔ Satisfiable cs
  units : ∀ l : Lit, l ∈ answer.units ↔ Satisfiable cs ∧ l.var.index < count ∧ Entails cs [l]
  ascending : answer.units.Pairwise fun l k => l.var.index < k.var.index
  binaries : ∀ c, c ∈ answer.binaries
    ↔ Satisfiable cs ∧ request.binaries = true ∧ ImpliedPair cs count c
  sorted : answer.binaries.Pairwise PairLt
  models : ∀ m ∈ answer.models, IsModel cs m
  found : Satisfiable cs → request.models = true → answer.models ≠ []

theorem ascending_of_sublist {ls : List Lit} {count : Nat}
    (h : (ls.map Lit.var).Sublist (Var.range count)) :
    ls.Pairwise fun l k => l.var.index < k.var.index := by
  have hrange : (Var.range count).Pairwise fun v w => v.index < w.index :=
    List.pairwise_map.mpr List.pairwise_lt_range
  exact (List.pairwise_map (R := fun v w : Var => v.index < w.index)).mp (hrange.sublist h)

/-- What is reported once a model is known. -/
theorem Probed.exact {request : EngineRequest} {answer : EngineAnswer} {m : List Lit} {count : Nat}
    (hm : IsModel cs m) (h : Probed cs (Var.range count)
      (record request { satisfiable := true } m) answer e e') (pairs : List (Lit × Lit))
    (hsorted : pairs.Pairwise PairLt)
    (hpairs : ∀ c, c ∈ pairs ↔ request.binaries = true ∧ ImpliedPair cs count c) :
    ExactAnswer cs count request { answer with binaries := pairs } := by
  obtain ⟨us, hus, hsub, hmem⟩ := h.units
  rw [record_units] at hus
  obtain rfl : answer.units = us := hus
  have hsat := hm.satisfiable
  refine ⟨⟨fun _ => hsat, fun _ => ?_⟩, fun l => ?_, ascending_of_sublist hsub,
    fun c => ?_, hsorted, fun k hk => ?_, fun _ hmodels => ?_⟩
  · exact h.satisfiable.trans (record_satisfiable _ _ _)
  · rw [hmem, Var.mem_range, and_iff_right hsat]
  · rw [hpairs, and_iff_right hsat]
  · rcases h.models k hk with hk | hk
    · rcases mem_record_models hk with hk | rfl
      · cases hk
      · exact hm
    · exact hk
  · refine List.ne_nil_of_mem (h.kept (?_ : m ∈ _))
    unfold record
    rw [if_pos hmodels]
    exact List.mem_append_right _ List.mem_cons_self

/-- **The engine answers exactly**, whatever models are known or found. -/
theorem Tracks.run (hP : P.Exact) {request : EngineRequest} (hrequest : request.units = true)
    (h : e.Tracks cs) :
    ∃ answer e', e.run request = .ok (answer, e') ∧ ExactAnswer cs e.varCount request answer := by
  obtain ⟨r, solver, hask, htracks, hreplied⟩ := (h.lookupVars hP.trusted).ask hP [] (by simp)
  unfold BackboneEngine.run
  simp only [hask, bind, Except.bind]
  cases hreplied with
  | refuted hno =>
    have hunsat : ¬ Satisfiable cs := by
      rintro ⟨ν, hν⟩
      exact Bool.false_ne_true (hno ν hν)
    refine ⟨_, _, rfl, ?_⟩
    exact ⟨by simp [hunsat], by simp [hunsat], .nil, by simp [hunsat], .nil, by simp,
      fun hsat => absurd hsat hunsat⟩
  | found hmodel hassumed hin =>
    rename_i m
    obtain ⟨answer, e₂, hprobe, hprobed⟩ := probeUnits_exact hP hrequest
      (Var.range ({ e.lookupVars with solver := solver }.addModel m).varCount) (Var.nodup_range _)
      (record request { satisfiable := true } m) (fun v hv => Var.mem_range.mp hv)
      (htracks.addModel hmodel) (Nat.succ_ne_zero _)
    have hcount : e₂.varCount = e.varCount := hprobed.varCount
    simp only [recordFound, hprobe]
    change Probed cs (Var.range e.varCount) _ _ _ _ at hprobed
    split
    · rename_i hbinaries
      obtain ⟨pairs, e₃, hpairs, hsorted, hexact⟩ := impliedBinaries_exact hP
        hprobed.tracks hprobed.known fun v hv =>
          hprobed.settled v (hcount ▸ hv) (.inl (Var.mem_range.mpr (hcount ▸ hv)))
      rw [hcount] at hexact
      simp only [hpairs]
      exact ⟨_, _, rfl, hprobed.exact hmodel pairs hsorted fun c => by
        rw [hexact, and_iff_right hbinaries]⟩
    · rename_i hbinaries
      have hnone : answer.binaries = [] := hprobed.binaries.trans (record_binaries _ _ _)
      refine ⟨_, _, rfl, hprobed.exact hmodel answer.binaries ?_ fun c => ?_⟩
      · rw [hnone]
        exact .nil
      · simp [hnone, hbinaries]

/-- An engine with clauses and some of their models answers exactly. -/
theorem run_known (hP : P.Exact) {count : Nat} (hover : Over cs count) {known : List (List Lit)}
    (hknown : ∀ m ∈ known, IsModel cs m) {request : EngineRequest} (hunits : request.units = true) :
    ∃ answer e', (known.foldl addModel (cs.foldl addClause (new P count))).run request
        = .ok (answer, e') ∧ ExactAnswer cs count request answer := by
  obtain ⟨htracks, hmodels⟩ := (tracks_clauses hP.trusted hover).addModels known hknown
  obtain ⟨solver, heq⟩ := addClauses_eq (e := new P count) cs
  have hcount : (known.foldl addModel (cs.foldl addClause (new P count))).varCount = count := by
    rw [hmodels, heq]
    rfl
  obtain ⟨answer, e', hrun, hexact⟩ := htracks.run hP hunits
  rw [hcount] at hexact
  exact ⟨answer, e', hrun, hexact⟩

/-- **Exact answers agree**: the clauses alone determine them. -/
theorem ExactAnswer.unique {count : Nat} {request : EngineRequest} {answer answer' : EngineAnswer}
    (h : ExactAnswer cs count request answer) (h' : ExactAnswer cs count request answer') :
    answer'.satisfiable = answer.satisfiable ∧ answer'.units = answer.units
      ∧ answer'.binaries = answer.binaries := by
  refine ⟨Bool.eq_iff_iff.mpr (h'.satisfiable.trans h.satisfiable.symm), ?_, ?_⟩
  · exact eq_of_sorted (fun _ _ => Nat.lt_asymm) h'.ascending h.ascending fun l =>
      (h'.units l).trans (h.units l).symm
  · refine eq_of_sorted (fun x y hxy hyx => ?_) h'.sorted h.sorted fun c =>
      (h'.binaries c).trans (h.binaries c).symm
    rcases hxy with hxy | ⟨heq, hxy⟩ <;> rcases hyx with hyx | ⟨heq', hyx⟩
    · exact Nat.lt_asymm hxy hyx
    · exact Nat.lt_irrefl _ (heq' ▸ hxy)
    · exact Nat.lt_irrefl _ (heq ▸ hyx)
    · exact Nat.lt_asymm hxy hyx

/-- **The engine is exact**, whichever models are known beforehand and whichever
the procedure finds: it tells whether the clauses are satisfiable, the implied
literals by variable, and the implied binary clauses over the other variables
in order. No other exact answer exists. -/
theorem run_exact (hP : P.Exact) {count : Nat} (hover : Over cs count) {known : List (List Lit)}
    (hknown : ∀ m ∈ known, IsModel cs m) {request : EngineRequest} (hunits : request.units = true) :
    ∃ answer e', (known.foldl addModel (cs.foldl addClause (new P count))).run request
        = .ok (answer, e')
      ∧ ExactAnswer cs count request answer
      ∧ ∀ other, ExactAnswer cs count request other → other.satisfiable = answer.satisfiable
        ∧ other.units = answer.units ∧ other.binaries = answer.binaries := by
  obtain ⟨answer, e', hrun, hexact⟩ := run_known hP hover hknown hunits
  exact ⟨answer, e', hrun, hexact, fun other => hexact.unique⟩

/-- Three clauses with an implied literal and an implied equivalence. -/
def equivalenceClauses : List Clause :=
  [[⟨⟨0⟩, false⟩, ⟨⟨1⟩, true⟩], [⟨⟨0⟩, true⟩, ⟨⟨1⟩, false⟩], [⟨⟨2⟩, true⟩]]

theorem run_exact_equivalence : ∃ answer e',
    ([[⟨⟨0⟩, true⟩, ⟨⟨1⟩, true⟩, ⟨⟨2⟩, true⟩]].foldl addModel
      (equivalenceClauses.foldl addClause (new splitting 3))).run { binaries := true }
        = .ok (answer, e')
      ∧ ExactAnswer equivalenceClauses 3 { binaries := true } answer
      ∧ ∀ other, ExactAnswer equivalenceClauses 3 { binaries := true } other →
        other.satisfiable = answer.satisfiable ∧ other.units = answer.units
          ∧ other.binaries = answer.binaries := by
  refine run_exact splitting_exact (by unfold Over; decide) (List.forall_mem_singleton.mpr ?_) rfl
  exact ⟨by decide, by decide⟩

end BackboneEngine

end Cleave
