import Cleave.Proofs.Reachable

/-!
# Substitution keeps the models

What a solver stores and assigns at level 0 is a list of clauses
(`Solver.theory`), and the solver is sound for its own list as much as for
the clauses it was given. So all that substitution leaves behind follows from
what was there before, learnt clauses included, and a conflict refutes it.

Back again, the replaced variables are free in what is left, and only the
valuations that give them the values of their representatives are meant:
exactly these satisfy the solver before (`Solver.Eliminates.models`). A
valuation of what is left becomes one of them when its replaced variables are
overwritten, which is what extending a model does
(`Substitution.extendModel_gives`).
-/

namespace Cleave

/-- A model that has the values of a valuation, for all variables below a
bound. -/
def ModelPool.Gives (p : ModelPool) (m : Model) (count : Nat) (ν : Valuation) : Prop :=
  ∀ v : Var, v.index < count → p.value m v = some (ν v)

/-! ## Overwriting replaced variables -/

namespace Substitution

variable {sub : Substitution} {ν : Valuation} {v : Var} {r : Lit}

/-- Every replaced variable has the value of its representative. -/
def RespectedBy (sub : Substitution) (ν : Valuation) : Prop :=
  ∀ v r, sub.representative? v = some r → ν v = r.holds ν

/-- The valuation that gives the replaced variables the values of their
representatives. -/
def overwrite (sub : Substitution) (ν : Valuation) : Valuation := fun v =>
  match sub.representative? v with
  | some r => r.holds ν
  | none => ν v

/-- Nothing is left to overwrite. -/
theorem RespectedBy.overwrite_eq (h : sub.RespectedBy ν) : sub.overwrite ν = ν := by
  funext v
  unfold overwrite
  cases hr : sub.representative? v with
  | none => rfl
  | some r => exact (h v r hr).symm

theorem mem_of_representative (h : sub.representative? v = some r) : (v, r) ∈ sub.replaced := by
  obtain ⟨⟨w, m⟩, hfind, rfl⟩ := Option.map_eq_some_iff.mp h
  have hw : w = v := by simpa using List.find?_some hfind
  exact hw ▸ List.mem_of_find?_eq_some hfind

theorem representative?_cons (w : Var) (m : Lit) (rest : List (Var × Lit)) (v : Var) :
    (⟨(w, m) :: rest⟩ : Substitution).representative? v
      = if w = v then some m else (⟨rest⟩ : Substitution).representative? v := by
  unfold representative?
  rw [List.find?_cons]
  by_cases hw : w = v
  · simp [hw]
  · simp [hw]

theorem representative?_eq_none_iff :
    sub.representative? v = none ↔ ∀ x ∈ sub.replaced, x.1 ≠ v := by
  simp [representative?]

/-- **The first replacement comes first**: its variable is not replaced again, and
no representative is replaced. -/
theorem overwrite_cons {rest : List (Var × Lit)} (hv : v ∉ rest.map Prod.fst)
    (hkept : ∀ x ∈ rest, v ≠ x.2.var) (ν : Valuation) :
    (⟨(v, r) :: rest⟩ : Substitution).overwrite ν
      = (⟨rest⟩ : Substitution).overwrite fun w => if v = w then r.holds ν else ν w := by
  funext w
  unfold overwrite
  rw [representative?_cons]
  by_cases hw : v = w
  · have hnone : (⟨rest⟩ : Substitution).representative? w = none :=
      representative?_eq_none_iff.mpr fun x hx he =>
        hv (List.mem_map.mpr ⟨x, hx, he.trans hw.symm⟩)
    rw [if_pos hw, hnone]
    simp [hw]
  · rw [if_neg hw]
    cases hrep : (⟨rest⟩ : Substitution).representative? w with
    | none => simp [hw]
    | some r' =>
      have hne : v ≠ r'.var := hkept _ (mem_of_representative hrep)
      exact Lit.holds_congr (by simp [hne])

/-- A model with another value for one variable. -/
theorem gives_assign {p : ModelPool} {m : Model} {count : Nat} {value : Bool}
    (hm : m.buffer < p.buffers.size) (h : p.Gives m count ν) :
    (p.assign m (v.lit value)).2.Gives (p.assign m (v.lit value)).1 count
      fun w => if v = w then value else ν w := by
  intro w hw
  rw [ModelPool.value_assign hm]
  show (if v = w then some value else p.value m w) = some (if v = w then value else ν w)
  split
  · rfl
  · exact h w hw

/-- **Extending a model** overwrites its replaced variables, if no
representative is replaced itself. -/
theorem extendModel_gives {count : Nat} (replaced : List (Var × Lit))
    (hnodup : (replaced.map Prod.fst).Nodup)
    (hrange : ∀ x ∈ replaced, x.2.var.index < count)
    (hkept : ∀ x ∈ replaced, ∀ y ∈ replaced, y.1 ≠ x.2.var) {p : ModelPool} {m : Model}
    {ν : Valuation} (h : p.Gives m count ν) :
    ((⟨replaced⟩ : Substitution).extendModel p m).2.Gives
      ((⟨replaced⟩ : Substitution).extendModel p m).1 count
      ((⟨replaced⟩ : Substitution).overwrite ν) := by
  induction replaced generalizing p m ν with
  | nil => exact h
  | cons x rest ih =>
    obtain ⟨v, r⟩ := x
    obtain ⟨hv, hrest⟩ := List.nodup_cons.mp hnodup
    have hr := h r.var (hrange _ List.mem_cons_self)
    have hrun : (⟨(v, r) :: rest⟩ : Substitution).extendModel p m
        = (⟨rest⟩ : Substitution).extendModel (p.assign m (v.lit (r.holds ν))).2
          (p.assign m (v.lit (r.holds ν))).1 := by
      unfold extendModel
      rw [List.foldl_cons]
      simp only [hr]
      rfl
    rw [hrun, overwrite_cons hv fun x hx => hkept x (List.mem_cons_of_mem _ hx) _ List.mem_cons_self]
    exact ih hrest (fun x hx => hrange x (List.mem_cons_of_mem _ hx))
      (fun x hx y hy => hkept x (List.mem_cons_of_mem _ hx) y (List.mem_cons_of_mem _ hy))
      (gives_assign (ModelPool.buffer_lt_of_value hr) h)

end Substitution

namespace Solver

variable {F : List Clause} {s s' : Solver} {e : Equivalences} {sub : Substitution} {v : Var}
  {r : Lit} {ν : Valuation}

/-! ## What a solver knows -/

/-- **All that a solver stores and assigns**, as a list of clauses. -/
def theory (s : Solver) : List Clause :=
  s.store.exported.map Prod.fst ++ s.trail.lits.toList.map fun l => [l]

theorem allHold_theory (hs : Sound F s) : allHold ν s.theory = true ↔ s.Satisfied ν := by
  rw [allHold_iff]
  constructor
  · intro h
    refine ⟨fun c hc => ?_, fun l hl => ?_⟩
    · obtain ⟨d, hd, hperm⟩ := hs.store.exported_of_has hc
      rw [← Clause.holds_perm hperm]
      exact h d.1 (List.mem_append_left _ (List.mem_map_of_mem hd))
    · exact Clause.holds_singleton.mp (h [l] (List.mem_append_right _ (List.mem_map_of_mem hl)))
  · intro h c hc
    rcases List.mem_append.mp hc with hc | hc
    · obtain ⟨d, hd, rfl⟩ := List.mem_map.mp hc
      exact h.stored _ (ClauseStore.has_of_exported hd)
    · obtain ⟨l, hl, rfl⟩ := List.mem_map.mp hc
      exact Clause.holds_singleton.mpr (h.trail l hl)

/-- **A solver is sound for all that it knows.** -/
theorem Sound.theory (hs : Sound F s) (hconf : s.conflicted = false) : Sound s.theory s := by
  have hstored : ∀ c, s.store.Has c → Entails s.theory c := fun c hc ν hν =>
    ((allHold_theory hs).mp hν).stored c hc
  have htrail : ∀ l ∈ s.trail.lits.toList, ∀ c : Clause, l ∈ c → Entails s.theory c :=
    fun l hl c hc ν hν => Clause.holds_iff.mpr ⟨l, hc, ((allHold_theory hs).mp hν).trail l hl⟩
  exact {
    trail := hs.trail
    store := hs.store
    watches := hs.watches
    listed := hs.listed
    entailed := ⟨fun l hl => hstored _ (.unit hl), fun l b hb => hstored _ (.binary hb),
      fun c hc => hstored _ (.long hc)⟩
    justified := by
      intro pre l post hsplit
      have hl : l ∈ s.trail.lits.toList := by
        rw [hsplit]
        simp
      exact (hs.justified pre l post hsplit).transfer fun _ => htrail l hl _ List.mem_cons_self
    pending := hs.pending
    refuted := fun hc => absurd (hconf ▸ hc) (by simp) }

/-- What follows from a list that holds is satisfied. -/
theorem Sound.satisfied (hs : Sound F s) (h0 : s.level = 0) (hν : allHold ν F = true) :
    s.Satisfied ν where
  stored := fun _ hc => hs.entailed.has hc ν hν
  trail := fun _ hl => (hs.entails_of_level_zero h0 hl).lit hν

/-- Only the variables of a solver matter to it. -/
theorem Satisfied.congr {ν' : Valuation} (hs : Sound F s) (h : s.Satisfied ν)
    (heq : ∀ v : Var, v.index < s.varCount → ν v = ν' v) : s.Satisfied ν' where
  stored := by
    intro c hc
    rw [← Clause.holds_congr fun l hl => heq l.var (hs.store.has_inRange hc l hl)]
    exact h.stored c hc
  trail := by
    intro l hl
    rw [← Lit.holds_congr (heq l.var (hs.trail.inRange l hl))]
    exact h.trail l hl

/-! ## Representatives -/

namespace Replaces

variable (h : s.Replaces e sub)

include h

theorem mem_replaced :
    (v, r) ∈ sub.replaced
      ↔ v.index < s.varCount ∧ (e.root v.pos).var ≠ v ∧ r = e.root v.pos := by
  rw [h.replaced, List.mem_map]
  constructor
  · rintro ⟨w, hw, heq⟩
    obtain ⟨rfl, rfl⟩ := Prod.mk.inj heq
    obtain ⟨hin, hne⟩ := List.mem_filter.mp hw
    exact ⟨Var.mem_range.mp hin, by simpa using hne, rfl⟩
  · rintro ⟨hin, hne, rfl⟩
    exact ⟨v, List.mem_filter.mpr ⟨Var.mem_range.mpr hin, by simpa using hne⟩, rfl⟩

/-- A replaced variable is represented by its root. -/
theorem representative_iff :
    sub.representative? v = some r
      ↔ v.index < s.varCount ∧ (e.root v.pos).var ≠ v ∧ r = e.root v.pos := by
  constructor
  · exact fun hr => h.mem_replaced.mp (Substitution.mem_of_representative hr)
  · intro hr
    cases hfound : sub.representative? v with
    | none =>
      have hne := Substitution.representative?_eq_none_iff.mp hfound (v, r) (h.mem_replaced.mpr hr)
      exact absurd rfl hne
    | some m =>
      have hm := h.mem_replaced.mp (Substitution.mem_of_representative hfound)
      rw [hm.2.2, hr.2.2]

/-- A variable that is not replaced is its own root. -/
theorem root_of_none (hin : v.index < s.varCount) (hnone : sub.representative? v = none) :
    e.root v.pos = v.pos := by
  by_cases hv : (e.root v.pos).var = v
  · exact Equivalences.root_of_root_var (e.root_root v.pos) hv.symm
  · rw [h.representative_iff.mpr ⟨hin, hv, rfl⟩] at hnone
    cases hnone

theorem representative_kept (hr : sub.representative? v = some r) :
    sub.representative? r.var = none := by
  obtain ⟨-, -, rfl⟩ := h.representative_iff.mp hr
  cases hfound : sub.representative? (e.root v.pos).var with
  | none => rfl
  | some m =>
    obtain ⟨-, hne, -⟩ := h.representative_iff.mp hfound
    have hroot : e.root (e.root v.pos).var.pos = (e.root v.pos).var.pos :=
      Equivalences.root_of_root_var (e.root_root v.pos) rfl
    exact absurd (congrArg Lit.var hroot) hne

/-- No root is of a replaced variable. -/
theorem root_ne (hr : sub.representative? v = some r) (l : Lit) : (e.root l).var ≠ v := by
  intro hv
  obtain ⟨-, hne, -⟩ := h.representative_iff.mp hr
  have hroot : e.root v.pos = v.pos :=
    Equivalences.root_of_root_var (e.root_root l) hv.symm
  exact hne (congrArg Lit.var hroot)

/-- Roots have the smallest variable of their class. -/
theorem index_root_le {l : Lit} (hl : s.Equivalent v.pos l) :
    (e.root v.pos).var.index ≤ l.var.index := by
  rw [h.complete _ _ hl]
  exact e.index_root_le l

theorem representative_of_mem {x : Var × Lit} (hx : x ∈ sub.replaced) :
    sub.representative? x.1 = some x.2 :=
  h.representative_iff.mpr (h.mem_replaced.mp hx)

theorem nodup : (sub.replaced.map Prod.fst).Nodup := by
  rw [h.replaced, List.map_map]
  show (List.map id _).Nodup
  rw [List.map_id]
  exact (Var.nodup_range _).filter _

/-- Extending a model by the classes. -/
theorem extendModel_gives {p : ModelPool} {m : Model} (hm : p.Gives m s.varCount ν) :
    (sub.extendModel p m).2.Gives (sub.extendModel p m).1 s.varCount (sub.overwrite ν) := by
  refine Substitution.extendModel_gives sub.replaced h.nodup (fun x hx => ?_)
    (fun x hx y hy he => ?_) hm
  · obtain ⟨hin, -, heq⟩ := h.representative_iff.mp (h.representative_of_mem hx)
    rw [heq]
    exact Nat.lt_of_le_of_lt (e.index_root_le x.1.pos) hin
  · have hnone := h.representative_kept (h.representative_of_mem hx)
    rw [← he, h.representative_of_mem hy] at hnone
    cases hnone

end Replaces

/-- Only classes that were found are replaced. -/
theorem Substitutes.replaces (h : s.Substitutes sub s') (hr : sub.representative? v = some r) :
    ∃ e, s.Replaces e sub := by
  cases h with
  | conflicted => cases hr
  | opposed => cases hr
  | unchanged hrep => cases hr
  | refuted hrep => exact ⟨_, hrep⟩
  | rebuilt hrep => exact ⟨_, hrep⟩

/-- Without a conflict the classes were all found. -/
theorem Substitutes.replaces_of_not_conflicted (h : s.Substitutes sub s')
    (hconf : s'.conflicted = false) : ∃ e, s.Replaces e sub := by
  cases h with
  | conflicted hc => exact absurd (hc ▸ hconf) (by simp)
  | opposed => cases hconf
  | unchanged hrep => exact ⟨_, hrep⟩
  | refuted hrep => exact ⟨_, hrep⟩
  | rebuilt hrep => exact ⟨_, hrep⟩

/-! ## Replaced variables are gone -/

/-- **Nothing mentions a variable**: no stored clause, no implication, no watch
list and no list of the membership index. -/
structure Gone (s : Solver) (v : Var) : Prop extends s.Absent v where
  implied : ∀ l : Lit, l.var = v → s.store.implied l = []
  watches : ∀ l : Lit, l.var = v → s.watches[l].toList = []

theorem Absent.gone (hs : Sound F s) (h : s.Absent v) : s.Gone v where
  toAbsent := h
  implied := by
    intro l hl
    refine List.eq_nil_iff_forall_not_mem.mpr fun b hb => ?_
    exact h.clauses _ (.binary hb) l.neg List.mem_cons_self hl
  watches := by
    intro l hl
    refine List.eq_nil_iff_forall_not_mem.mpr fun id hid => ?_
    obtain ⟨hlt, hwatched⟩ := (hs.watches.mem_iff l id).mp hid
    refine h.clauses _ (.long (ClauseStore.clause_mem hlt)) l ?_ hl
    rcases hwatched with rfl | rfl
    · exact List.mem_cons_self
    · exact List.mem_cons_of_mem _ List.mem_cons_self

theorem Substitutes.absent (hs : Sound F s) (h0 : s.level = 0) (h : s.Substitutes sub s')
    (hr : sub.representative? v = some r) : s'.Absent v := by
  cases h with
  | conflicted => cases hr
  | opposed => cases hr
  | unchanged => cases hr
  | refuted hrep hp =>
    obtain ⟨hs₁, h₁⟩ := restarted_spec hs h0 hrep.classes sub
    have habsent := (propagateFrom_spec hs₁ h₁.level hp).absent v (h₁.absent v (hrep.root_ne hr))
    exact ⟨habsent.clauses, habsent.index⟩
  | rebuilt hrep hp =>
    obtain ⟨hs₁, h₁⟩ := restarted_spec hs h0 hrep.classes sub
    exact (propagateFrom_spec hs₁ h₁.level hp).absent v (h₁.absent v (hrep.root_ne hr))

/-! ## The models -/

/-- All that was stored gives the classes one value. -/
theorem Replaces.respectedBy (hs : Sound F s) (h : s.Replaces e sub) (hν : allHold ν F = true) :
    sub.RespectedBy ν := by
  intro v r hr
  obtain ⟨hin, -, rfl⟩ := h.representative_iff.mp hr
  have hgiven : ∀ c, s.store.Given c → c.holds ν = true := fun c hc => hs.entailed.given hc ν hν
  rw [h.classes.respects hgiven v.pos (h.classes.size ▸ hin)]
  simp [Lit.holds, Var.pos]

/-- **Back to the clauses before**: with the representatives' values, what is
left means all that there was. -/
theorem Substitutes.satisfied_overwrite (hs : Sound F s) (h0 : s.level = 0)
    (h : s.Substitutes sub s') (hconf : s'.conflicted = false) (hν : s'.Satisfied ν) :
    s.Satisfied (sub.overwrite ν) := by
  cases h with
  | conflicted => exact hν
  | opposed => cases hconf
  | unchanged => exact hν
  | refuted => cases hconf
  | rebuilt hrep hp =>
    obtain ⟨hs₁, h₁⟩ := restarted_spec hs h0 hrep.classes sub
    have h₂ := propagateFrom_spec hs₁ h₁.level hp
    refine (h₁.satisfied (h₂.conflicted ▸ hconf) ν (h₂.satisfied ν hν)).congr hs fun v hv => ?_
    unfold Substitution.overwrite
    cases hr : sub.representative? v with
    | none =>
      rw [hrep.root_of_none hv hr]
      simp [Lit.holds, Var.pos]
    | some r =>
      obtain ⟨-, -, rfl⟩ := hrep.representative_iff.mp hr
      rfl

/-- **What substitution promises** of the clauses and the trail before it. -/
structure Eliminates (s : Solver) (sub : Substitution) (s' : Solver) : Prop where
  refuted : s'.conflicted = true → ∀ ν, ¬ s.Satisfied ν
  /-- The models before are those that are left, with the representatives'
  values. -/
  models : s'.conflicted = false → ∀ ν, s.Satisfied ν ↔ s'.Satisfied ν ∧ sub.RespectedBy ν
  gone : ∀ v r, sub.representative? v = some r → s'.Gone v
  /-- No representative is replaced. -/
  kept : ∀ v r, sub.representative? v = some r → sub.representative? r.var = none
  /-- A representative belongs to the class, and has its smallest variable. -/
  least : ∀ v r, sub.representative? v = some r →
    s.Equivalent v.pos r ∧ ∀ l, s.Equivalent v.pos l → r.var.index ≤ l.var.index
  /-- Whatever is not replaced is the smallest variable of its class. -/
  complete : s'.conflicted = false → ∀ v : Var, v.index < s.varCount →
    sub.representative? v = none → ∀ l, s.Equivalent v.pos l → v.index ≤ l.var.index
  /-- Extending a model of what is left gives one of all that there was. -/
  extended : s'.conflicted = false → ∀ (p : ModelPool) (m : Model) (ν : Valuation),
    s'.Satisfied ν → p.Gives m s.varCount ν →
      (sub.extendModel p m).2.Gives (sub.extendModel p m).1 s.varCount (sub.overwrite ν)
        ∧ s.Satisfied (sub.overwrite ν)

/-- **Substitution keeps the models** in every reachable state at level 0. -/
theorem Reachable.substitution_keeps_models (h : Reachable F s) (h0 : s.level = 0)
    (hconf : s.conflicted = false) :
    ∃ sub s', s.substitute = .ok (sub, s') ∧ s.Eliminates sub s' := by
  have hs : Sound s.theory s := Sound.theory h.sound hconf
  obtain ⟨sub, s', hrun, hsub⟩ := exists_substitute hs h0
  obtain ⟨hs', hred⟩ := substitute_spec hs hrun
  refine ⟨sub, s', hrun, {
    refuted := fun hc ν hν => hs'.refuted hc ⟨ν, (allHold_theory hs).mpr hν⟩
    models := fun hc ν => ⟨fun hν => ?_, fun ⟨hν, hresp⟩ => ?_⟩
    gone := fun v r hr => (hsub.absent hs h0 hr).gone hs'
    kept := fun v r hr => ?_
    least := fun v r hr => ?_
    complete := fun hc v hv hnone l hl => ?_
    extended := fun hc p m ν hν hm => ⟨?_, hsub.satisfied_overwrite hs h0 hc hν⟩ }⟩
  · have hall := (allHold_theory hs).mpr hν
    obtain ⟨e, hrep⟩ := hsub.replaces_of_not_conflicted hc
    exact ⟨hs'.satisfied hred.level hall, hrep.respectedBy hs hall⟩
  · rw [← hresp.overwrite_eq]
    exact hsub.satisfied_overwrite hs h0 hc hν
  · obtain ⟨e, hrep⟩ := hsub.replaces hr
    exact hrep.representative_kept hr
  · obtain ⟨e, hrep⟩ := hsub.replaces hr
    obtain ⟨hin, -, rfl⟩ := hrep.representative_iff.mp hr
    exact ⟨hrep.classes.joined v.pos hin, fun l hl => hrep.index_root_le hl⟩
  · obtain ⟨e, hrep⟩ := hsub.replaces_of_not_conflicted hc
    have hle := hrep.index_root_le hl
    rwa [hrep.root_of_none hv hnone] at hle
  · obtain ⟨e, hrep⟩ := hsub.replaces_of_not_conflicted hc
    exact hrep.extendModel_gives hm

/-- Two tied variables and a clause with a third one. -/
def tiedPair : Formula :=
  { clauses := [[Var.neg ⟨0⟩, Var.pos ⟨1⟩], [Var.pos ⟨0⟩, Var.neg ⟨1⟩],
      [Var.pos ⟨0⟩, Var.pos ⟨1⟩, Var.pos ⟨2⟩]] }

/-- The solver for `tiedPair`. -/
def tiedSolver : Solver := ofFormula tiedPair {}

theorem tiedSolver_eq : tiedSolver =
    (((((((new {}).growTo 3).growTo 2).insertClause [Var.neg ⟨0⟩, Var.pos ⟨1⟩] false).growTo
      2).insertClause [Var.pos ⟨0⟩, Var.neg ⟨1⟩] false).growTo 3).insertClause
        [Var.pos ⟨0⟩, Var.pos ⟨1⟩, Var.pos ⟨2⟩] false :=
  ofFormula_of_ascending (by decide) rfl {}

theorem Reachable.substitution_keeps_models_tied : ∃ sub s',
    tiedSolver.substitute = .ok (sub, s') ∧ tiedSolver.Eliminates sub s'
      ∧ s'.conflicted = false ∧ sub.representative? ⟨1⟩ = some (Var.pos ⟨0⟩) ∧ s'.Gone ⟨1⟩ := by
  have hreach : Reachable tiedPair.clauses tiedSolver := .ofFormula tiedPair {}
  have h0 : tiedSolver.level = 0 := by
    rw [tiedSolver_eq]
    decide +kernel
  have hopen : tiedSolver.conflicted = false := by
    rw [tiedSolver_eq]
    decide +kernel
  obtain ⟨sub, s', hrun, h⟩ := hreach.substitution_keeps_models h0 hopen
  -- all true is a model, so nothing is refuted
  have hν : tiedSolver.Satisfied fun _ => true := hreach.sound.satisfied h0 (by decide)
  have hconf : s'.conflicted = false := Bool.eq_false_iff.mpr fun hc => h.refuted hc _ hν
  have htied : tiedSolver.Tied (Var.pos ⟨1⟩) (Var.pos ⟨0⟩) := by
    rw [tiedSolver_eq]
    exact ⟨by decide +kernel, by decide +kernel, by decide +kernel, by decide +kernel⟩
  have hclass : tiedSolver.Equivalent (Var.pos ⟨1⟩) (Var.pos ⟨0⟩) := .rel _ _ htied
  cases hr : sub.representative? ⟨1⟩ with
  | none =>
    have hle := h.complete hconf ⟨1⟩ (htied.inRange hreach.sound).1 hr _ hclass
    exact absurd hle (by decide)
  | some r =>
    have hle : r.var.index ≤ 0 := (h.least _ r hr).2 _ hclass
    have hvar : r.var = ⟨0⟩ := Var.index_inj.mp (Nat.le_zero.mp hle)
    have hvalue := ((h.models hconf _).mp hν).2 _ r hr
    have hpos : r.positive = true := by simpa [Lit.holds] using hvalue.symm
    have heq : r = Var.pos ⟨0⟩ := Lit.eq_of_var_eq hvar hpos
    exact ⟨sub, s', hrun, h, hconf, heq ▸ hr, h.gone _ r hr⟩

end Solver

end Cleave
