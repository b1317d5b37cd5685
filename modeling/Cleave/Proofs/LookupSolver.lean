import Cleave.Backbone.Lookup
import Cleave.Proofs.SatProcedure

/-!
# Looking up variables makes no difference

`LookupSolver.Stands` connects a `LookupSolver` with the clauses it was given: the
procedure holds their translations, and the literals of different variables have
nothing to do with each other. So a valuation of the variables makes a model for the
procedure (`LookupSolver.Stands.denied`), and a model that the procedure found is read
back as a model of the clauses (`LookupSolver.Stands.found`).
-/

namespace Cleave

namespace LookupSolver

variable {P : SatProcedure} {t t' : LookupSolver P} {cs : List Clause} {l k : Lit} {x y : P.Literal}

/-! ## Translated literals -/

/-- The procedure's literal for a literal, if its variable was looked up. -/
def raw (t : LookupSolver P) (l : Lit) : Option P.Literal :=
  t.mapped[l.var].map fun x => if l.positive then x else P.neg x

theorem raw_eq_some : t.raw l = some y
    ↔ ∃ x, t.mapped[l.var] = some x ∧ (if l.positive then x else P.neg x) = y :=
  Option.map_eq_some_iff

/-- The translation respects opposites. -/
theorem raw_neg (h : t.raw l = some x) : t.raw l.neg = some (P.neg x) := by
  obtain ⟨y, hy, rfl⟩ := raw_eq_some.mp h
  refine raw_eq_some.mpr ⟨y, hy, ?_⟩
  cases hp : l.positive <;> simp [hp, P.neg_neg, Lit.neg]

theorem index_lt_of_raw (h : t.raw l = some x) : l.var.index < t.mapped.size := by
  obtain ⟨y, hy, -⟩ := raw_eq_some.mp h
  by_contra hno
  rw [VarTable.get_of_size_le _ (Nat.le_of_not_lt hno)] at hy
  cases hy

/-- **The literals of different variables are different**, and were made by the
procedure. -/
structure Wf (t : LookupSolver P) (vars : List P.Literal) : Prop where
  made : ∀ (v : Var) x, t.mapped[v] = some x → x ∈ vars
  apart : ∀ (v w : Var) x y, t.mapped[v] = some x → t.mapped[w] = some y → v ≠ w →
    x ≠ y ∧ x ≠ P.neg y

namespace Wf

variable {vars : List P.Literal}

theorem over_raw (h : t.Wf vars) (hl : t.raw l = some x) : P.Over vars [x] := by
  obtain ⟨y, hy, rfl⟩ := raw_eq_some.mp hl
  refine List.forall_mem_singleton.mpr ?_
  cases l.positive
  · exact Or.inr ((P.neg_neg y).symm ▸ h.made _ _ hy)
  · exact Or.inl (h.made _ _ hy)

theorem var_eq (h : t.Wf vars) (hl : t.raw l = some x) (hk : t.raw k = some y)
    (hxy : x = y ∨ x = P.neg y) : l.var = k.var := by
  obtain ⟨a, ha, rfl⟩ := raw_eq_some.mp hl
  obtain ⟨b, hb, rfl⟩ := raw_eq_some.mp hk
  by_contra hne
  obtain ⟨hab, hneg⟩ := h.apart _ _ a b ha hb hne
  -- whatever the signs, one variable has the literal of the other or its opposite
  have hsame : a = b ∨ a = P.neg b := by
    cases hl : l.positive <;> cases hk : k.positive <;>
      simpa [hl, hk, P.neg_neg, SatProcedure.neg_eq_iff, or_comm] using hxy
  exact hsame.elim hab hneg

/-- **The translation is injective.** -/
theorem raw_inj (h : t.Wf vars) (hl : t.raw l = some x) (hk : t.raw k = some x) : l = k := by
  have hvar := h.var_eq hl hk (Or.inl rfl)
  refine (Lit.eq_or_eq_neg hvar).resolve_right fun heq => ?_
  rw [heq, raw_neg hk] at hl
  exact P.neg_ne x (Option.some.inj hl)

end Wf

/-! ## Clauses -/

/-- **The solver stands for some clauses**: the procedure holds their translations. -/
def Stands (t : LookupSolver P) (cs : List Clause) : Prop :=
  ∃ vars raws, P.Holds t.sat vars raws ∧ t.Wf vars
    ∧ raws.map (List.map some) = cs.map (List.map t.raw)

theorem size_lookupVar (t : LookupSolver P) (v : Var) :
    (t.lookupVar v).2.mapped.size = t.mapped.size := by
  unfold lookupVar
  split
  · rfl
  · exact VarTable.size_set _ _ _

theorem size_lookupAll (c : Clause) (t : LookupSolver P) :
    (t.lookupAll c).2.mapped.size = t.mapped.size := by
  induction c generalizing t with
  | nil => rfl
  | cons l rest ih => exact (ih _).trans (size_lookupVar t l.var)

theorem size_addClause (t : LookupSolver P) (c : Clause) :
    (t.addClause c).mapped.size = t.mapped.size := size_lookupAll c t

theorem size_of_solve {assumptions : List Lit} {satisfiable : Bool}
    (hr : t.solve assumptions = .ok (satisfiable, t')) : t'.mapped.size = t.mapped.size := by
  obtain ⟨⟨b, sat⟩, -, hend⟩ := Except.bind_eq_ok.mp hr
  obtain ⟨-, rfl⟩ := Prod.mk.inj (Except.ok.inj hend)
  exact size_lookupAll assumptions t

/-- **More variables were looked up.** -/
def Grows (t t' : LookupSolver P) : Prop := ∀ l x, t.raw l = some x → t'.raw l = some x

theorem mem_of_map_raw {c : Clause} {xs : List P.Literal} (h : xs.map some = c.map t.raw)
    (hl : l ∈ c) : ∃ x ∈ xs, t.raw l = some x := by
  have hmem : t.raw l ∈ xs.map some := h ▸ List.mem_map_of_mem hl
  obtain ⟨x, hx, he⟩ := List.mem_map.mp hmem
  exact ⟨x, hx, he.symm⟩

theorem exists_of_map_raw {c : Clause} {xs : List P.Literal} (h : xs.map some = c.map t.raw)
    (hx : x ∈ xs) : ∃ l ∈ c, t.raw l = some x := by
  have hmem : some x ∈ c.map t.raw := h ▸ List.mem_map_of_mem hx
  exact List.mem_map.mp hmem

/-- What was translated stays so. -/
theorem Grows.map_raw (h : Grows t t') {c : Clause} {xs : List P.Literal}
    (hxs : xs.map some = c.map t.raw) : xs.map some = c.map t'.raw := by
  rw [hxs]
  refine List.map_congr_left fun l hl => ?_
  obtain ⟨x, -, hx⟩ := mem_of_map_raw hxs hl
  rw [hx, h l x hx]

/-- The literals of translated clauses are over the procedure's variables. -/
theorem Wf.over_map {vars : List P.Literal} (h : t.Wf vars) {c : Clause} {xs : List P.Literal}
    (hxs : xs.map some = c.map t.raw) : P.Over vars xs := by
  intro x hx
  obtain ⟨l, -, hl⟩ := exists_of_map_raw hxs hx
  exact h.over_raw hl x List.mem_cons_self

theorem stands_new (P : SatProcedure) (count : Nat) : (new P count).Stands [] := by
  have hnone : ∀ (v : Var) x, (new P count).mapped[v] ≠ some x := by
    intro v x h
    rw [show (new P count).mapped[v] = none from VarTable.get_sized count v] at h
    cases h
  exact ⟨[], [], .start, ⟨fun v x h => absurd h (hnone v x), fun v _ x _ h => absurd h (hnone v x)⟩,
    rfl⟩

section

variable (hP : P.Trusted)

include hP

/-- **Looking up a variable.** -/
theorem Stands.lookupVar (h : t.Stands cs) {v : Var} (hv : v.index < t.mapped.size) :
    (t.lookupVar v).2.Stands cs ∧ Grows t (t.lookupVar v).2
      ∧ (t.lookupVar v).2.mapped[v] = some (t.lookupVar v).1 := by
  unfold LookupSolver.lookupVar
  split
  · rename_i x hx
    exact ⟨h, fun _ _ h => h, hx⟩
  · rename_i hnone
    obtain ⟨vars, raws, hholds, hwf, hraws⟩ := h
    have hfresh := hP.fresh _ _ _ hholds
    obtain ⟨hnew, hnewNeg⟩ :
        (P.addVariable t.sat).1 ∉ vars ∧ P.neg (P.addVariable t.sat).1 ∉ vars := by
      constructor
      · exact fun hin => hfresh (List.forall_mem_singleton.mpr (Or.inl hin))
      · exact fun hin => hfresh (List.forall_mem_singleton.mpr (Or.inr hin))
    have hself : (t.mapped.set v (some (P.addVariable t.sat).1))[v]
        = some (P.addVariable t.sat).1 := VarTable.get_set_self hv _
    have hother : ∀ {w : Var}, w ≠ v →
        (t.mapped.set v (some (P.addVariable t.sat).1))[w] = t.mapped[w] :=
      fun hne => VarTable.get_set_ne _ hne.symm _
    have hgrows : Grows t ⟨(P.addVariable t.sat).2,
        t.mapped.set v (some (P.addVariable t.sat).1)⟩ := by
      intro l x hx
      obtain ⟨y, hy, hxy⟩ := raw_eq_some.mp hx
      refine raw_eq_some.mpr ⟨y, ?_, hxy⟩
      refine (hother fun hvar => ?_).trans hy
      rw [hvar, hnone] at hy
      cases hy
    -- a new literal is apart from all that were made before
    have hapart : ∀ (w : Var) y, t.mapped[w] = some y →
        (P.addVariable t.sat).1 ≠ y ∧ (P.addVariable t.sat).1 ≠ P.neg y := by
      refine fun w y hy => ⟨fun he => hnew (he ▸ hwf.made w y hy), fun he => hnewNeg ?_⟩
      rw [he, P.neg_neg]
      exact hwf.made w y hy
    refine ⟨⟨_, raws, hholds.addVariable, ⟨fun w x hx => ?_, fun w w' x y hx hy hne => ?_⟩, ?_⟩,
      hgrows, hself⟩
    · by_cases hw : w = v
      · rw [hw, hself] at hx
        exact Option.some.inj hx ▸ List.mem_cons_self
      · rw [hother hw] at hx
        exact List.mem_cons_of_mem _ (hwf.made w x hx)
    · by_cases hw : w = v
      · rw [hw, hself] at hx
        obtain rfl := Option.some.inj hx
        rw [hother fun hw' => hne (hw.trans hw'.symm)] at hy
        exact hapart w' y hy
      · rw [hother hw] at hx
        by_cases hw' : w' = v
        · rw [hw', hself] at hy
          obtain rfl := Option.some.inj hy
          obtain ⟨h₁, h₂⟩ := hapart w x hx
          exact ⟨h₁.symm, fun he => h₂ (he ▸ (P.neg_neg _).symm)⟩
        · rw [hother hw'] at hy
          exact hwf.apart w w' x y hx hy hne
    · refine hraws.trans (List.map_congr_left fun c hc => ?_)
      have hmem : c.map t.raw ∈ raws.map (List.map some) := hraws ▸ List.mem_map_of_mem hc
      obtain ⟨xs, -, hxs⟩ := List.mem_map.mp hmem
      exact hxs.symm.trans (hgrows.map_raw hxs)

/-- **Looking up literals**, by induction on them. -/
theorem Stands.lookupAll (c : Clause) (h : t.Stands cs)
    (hc : ∀ l ∈ c, l.var.index < t.mapped.size) :
    (t.lookupAll c).2.Stands cs ∧ Grows t (t.lookupAll c).2
      ∧ (t.lookupAll c).1.map some = c.map (t.lookupAll c).2.raw := by
  induction c generalizing t with
  | nil => exact ⟨h, fun _ _ h => h, rfl⟩
  | cons l rest ih =>
    obtain ⟨hl, hrest⟩ := List.forall_mem_cons.mp hc
    obtain ⟨h₁, hgrows₁, hmapped⟩ := h.lookupVar hP hl
    obtain ⟨h₂, hgrows₂, hxs⟩ := ih h₁ fun k hk => (size_lookupVar t l.var).symm ▸ hrest k hk
    have hraw : (t.lookupVar l.var).2.raw l = some (t.lookup l).1 :=
      raw_eq_some.mpr ⟨_, hmapped, rfl⟩
    exact ⟨h₂, fun k x hx => hgrows₂ k x (hgrows₁ k x hx),
      congrArg₂ List.cons (hgrows₂ l _ hraw).symm hxs⟩

/-- **Adding a clause.** -/
theorem Stands.addClause (h : t.Stands cs) {c : Clause}
    (hc : ∀ l ∈ c, l.var.index < t.mapped.size) :
    (t.addClause c).Stands (c :: cs) := by
  obtain ⟨⟨vars, raws, hholds, hwf, hraws⟩, -, hxs⟩ := h.lookupAll hP c hc
  exact ⟨vars, _ :: raws, hholds.addClause (hwf.over_map hxs), ⟨hwf.made, hwf.apart⟩,
    congrArg₂ List.cons hxs hraws⟩

end

/-! ## Questions -/

/-- The procedure's literals that are true under a valuation. -/
def trueUnder (t : LookupSolver P) (ν : Valuation) : List P.Literal :=
  (Var.range t.mapped.size).filterMap fun v => t.raw (v.lit (ν v))

theorem mem_trueUnder {ν : Valuation} :
    x ∈ t.trueUnder ν ↔ ∃ l : Lit, l.holds ν = true ∧ t.raw l = some x := by
  unfold trueUnder
  rw [List.mem_filterMap]
  constructor
  · rintro ⟨v, -, hx⟩
    exact ⟨v.lit (ν v), Lit.holds_iff.mpr rfl, hx⟩
  · rintro ⟨l, hl, hx⟩
    refine ⟨l.var, Var.mem_range.mpr (index_lt_of_raw hx), ?_⟩
    rw [show l.var.lit (ν l.var) = l from Lit.eq_of_var_eq rfl (Lit.holds_iff.mp hl)]
    exact hx

/-- **A question**, as the procedure gets it. -/
theorem Stands.solve (hP : P.Trusted) {assumptions : List Lit} {satisfiable : Bool}
    (h : t.Stands cs)
    (ha : ∀ l ∈ assumptions, l.var.index < t.mapped.size)
    (hr : t.solve assumptions = .ok (satisfiable, t')) :
    t'.Stands cs ∧ ∃ st vars raws xs, P.Holds st vars raws ∧ t'.Wf vars ∧ P.Over vars xs
      ∧ P.solve st xs = .ok (satisfiable, t'.sat)
      ∧ raws.map (List.map some) = cs.map (List.map t'.raw)
      ∧ xs.map some = assumptions.map t'.raw := by
  obtain ⟨⟨vars, raws, hholds, hwf, hraws⟩, -, hxs⟩ := h.lookupAll hP assumptions ha
  obtain ⟨⟨b, sat⟩, hsolve, hend⟩ := Except.bind_eq_ok.mp hr
  obtain ⟨rfl, rfl⟩ := Prod.mk.inj (Except.ok.inj hend)
  have hover := hwf.over_map hxs
  exact ⟨⟨vars, raws, hholds.solve hover hsolve, ⟨hwf.made, hwf.apart⟩, hraws⟩, _, vars,
    raws, _, hholds, ⟨hwf.made, hwf.apart⟩, hover, hsolve, hraws, hxs⟩

/-- **A denial is right**: a valuation would make a model for the procedure. -/
theorem Stands.denied (hP : P.Trusted) {assumptions : List Lit} (h : t.Stands cs)
    (ha : ∀ l ∈ assumptions, l.var.index < t.mapped.size)
    (hr : t.solve assumptions = .ok (false, t')) {ν : Valuation} (hν : allHold ν cs = true) :
    ∃ l ∈ assumptions, l.holds ν = false := by
  obtain ⟨-, st, vars, raws, xs, hholds, hwf, hover, hsolve, hraws, hxs⟩ := h.solve hP ha hr
  by_contra hno
  refine hP.denies _ _ _ _ _ hholds hover hsolve
    ⟨t'.trueUnder ν, ⟨fun x hx hneg => ?_, fun r hr => ?_⟩, fun x hx => ?_⟩
  · obtain ⟨l, hl, hlx⟩ := mem_trueUnder.mp hx
    obtain ⟨k, hk, hkx⟩ := mem_trueUnder.mp hneg
    rw [hwf.raw_inj hkx (raw_neg hlx), Lit.holds_neg, hl] at hk
    cases hk
  · have hc : r.map some ∈ cs.map (List.map t'.raw) := hraws ▸ List.mem_map_of_mem hr
    obtain ⟨c, hc, heq⟩ := List.mem_map.mp hc
    obtain ⟨l, hl, hlν⟩ := Clause.holds_iff.mp (allHold_iff.mp hν c hc)
    obtain ⟨x, hx, hraw⟩ := mem_of_map_raw heq.symm hl
    exact ⟨x, hx, mem_trueUnder.mpr ⟨l, hlν, hraw⟩⟩
  · obtain ⟨l, hl, hraw⟩ := exists_of_map_raw hxs hx
    refine mem_trueUnder.mpr ⟨l, ?_, hraw⟩
    by_contra hfalse
    exact hno ⟨l, hl, by simpa using hfalse⟩

/-- **A variable's value in a model** is the literal whose translation the model
has. -/
theorem valueIn_eq_some {m : List P.Literal} (hm : ∀ x ∈ m, P.neg x ∉ m) (v : Var) :
    t.valueIn m v = some l ↔ l.var = v ∧ ∃ x ∈ m, t.raw l = some x := by
  obtain ⟨w, positive⟩ := l
  unfold valueIn raw
  constructor
  · intro h
    obtain ⟨x, hx, h⟩ := Option.bind_eq_some_iff.mp h
    split at h
    · rename_i hmem
      obtain ⟨rfl, rfl⟩ := Lit.mk.inj (Option.some.inj h)
      exact ⟨rfl, x, List.contains_iff_mem.mp hmem, by simp [hx]⟩
    · split at h
      · rename_i hmem
        obtain ⟨rfl, rfl⟩ := Lit.mk.inj (Option.some.inj h)
        exact ⟨rfl, P.neg x, List.contains_iff_mem.mp hmem, by simp [hx]⟩
      · cases h
  · rintro ⟨rfl, x, hx, hraw⟩
    obtain ⟨y, hy, hxy⟩ := Option.map_eq_some_iff.mp hraw
    refine Option.bind_eq_some_iff.mpr ⟨y, hy, ?_⟩
    cases positive with
    | true =>
      obtain rfl : y = x := hxy
      rw [if_pos (List.contains_iff_mem.mpr hx)]
      rfl
    | false =>
      obtain rfl : P.neg y = x := hxy
      have hno : y ∉ m := fun hin => hm y hin hx
      rw [if_neg (by simpa using hno), if_pos (List.contains_iff_mem.mpr hx)]
      rfl

/-- A model is read back over the variables of the table. -/
theorem index_lt_of_mem_originalModel {m : List Lit} (hm : t.originalModel = some m) :
    ∀ l ∈ m, l.var.index < t.mapped.size := by
  obtain ⟨model, -, rfl⟩ := Option.map_eq_some_iff.mp hm
  intro l hl
  obtain ⟨v, hv, hl⟩ := List.mem_filterMap.mp hl
  unfold valueIn at hl
  obtain ⟨x, -, hl⟩ := Option.bind_eq_some_iff.mp hl
  have hvar : l.var = v := by
    split at hl
    · exact Option.some.inj hl ▸ rfl
    · split at hl
      · exact Option.some.inj hl ▸ rfl
      · cases hl
  exact hvar ▸ Var.mem_range.mp hv

theorem mem_readBack {m : List P.Literal} (hm : ∀ x ∈ m, P.neg x ∉ m) :
    l ∈ t.readBack m ↔ ∃ x ∈ m, t.raw l = some x := by
  unfold readBack
  rw [List.mem_filterMap]
  constructor
  · rintro ⟨v, -, hv⟩
    exact ((valueIn_eq_some hm v).mp hv).2
  · rintro ⟨x, hx, hraw⟩
    exact ⟨l.var, Var.mem_range.mpr (index_lt_of_raw hraw),
      (valueIn_eq_some hm _).mpr ⟨rfl, x, hx, hraw⟩⟩

/-- **A model that was found is read back** as a model of the clauses. -/
theorem Stands.found (hP : P.Exact) {assumptions : List Lit} (h : t.Stands cs)
    (ha : ∀ l ∈ assumptions, l.var.index < t.mapped.size)
    (hr : t.solve assumptions = .ok (true, t')) :
    ∃ m, t'.originalModel = some m ∧ IsModel cs m ∧ assumptions ⊆ m := by
  obtain ⟨-, st, vars, raws, xs, hholds, hwf, hover, hsolve, hraws, hxs⟩ :=
    h.solve hP.trusted ha hr
  obtain ⟨m, hmodel, hm, hassumed⟩ := hP.finds _ _ _ _ _ hholds hover hsolve
  have hmem : ∀ {l : Lit}, l ∈ t'.readBack m ↔ ∃ x ∈ m, t'.raw l = some x :=
    mem_readBack hm.consistent
  refine ⟨t'.readBack m, congrArg (Option.map t'.readBack) hmodel,
    ⟨fun l hl hneg => ?_, fun c hc => ?_⟩, fun l hl => ?_⟩
  · obtain ⟨x, hx, hraw⟩ := hmem.mp hl
    obtain ⟨y, hy, hrawNeg⟩ := hmem.mp hneg
    rw [raw_neg hraw] at hrawNeg
    exact hm.consistent x hx (Option.some.inj hrawNeg ▸ hy)
  · have hr : c.map t'.raw ∈ raws.map (List.map some) := hraws ▸ List.mem_map_of_mem hc
    obtain ⟨r, hr, heq⟩ := List.mem_map.mp hr
    obtain ⟨x, hx, hxm⟩ := hm.satisfies r hr
    obtain ⟨l, hl, hraw⟩ := exists_of_map_raw heq hx
    exact ⟨l, hl, hmem.mpr ⟨x, hxm, hraw⟩⟩
  · obtain ⟨x, hx, hraw⟩ := mem_of_map_raw hxs hl
    exact hmem.mpr ⟨x, hassumed hx, hraw⟩

/-- An exact procedure answers. -/
theorem Stands.answers (hP : P.Exact) (h : t.Stands cs) (assumptions : List Lit)
    (ha : ∀ l ∈ assumptions, l.var.index < t.mapped.size) :
    ∃ satisfiable t', t.solve assumptions = .ok (satisfiable, t') := by
  obtain ⟨⟨vars, raws, hholds, hwf, -⟩, -, hxs⟩ := h.lookupAll hP.trusted assumptions ha
  obtain ⟨satisfiable, sat, hsolve⟩ := hP.answers _ _ _ _ hholds (hwf.over_map hxs)
  refine ⟨satisfiable, { (t.lookupAll assumptions).2 with sat := sat }, ?_⟩
  unfold LookupSolver.solve
  simp only [hsolve, bind, Except.bind, pure, Except.pure]

end LookupSolver

end Cleave
