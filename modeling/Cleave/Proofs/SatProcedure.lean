import Cleave.Backbone.Procedure
import Cleave.Proofs.Meaning
import Cleave.Proofs.Tables

/-!
# Incremental SAT procedures that are right

A SAT procedure is used rightly if its clauses and assumptions are over variables that
it made (`SatProcedure.Holds`). It is to be trusted if its new variables are new and it
denies a model only if there is none (`SatProcedure.Trusted`), and it is exact if a
model can be read otherwise (`SatProcedure.Exact`).

Splitting is exact (`splitting_exact`).
-/

namespace Cleave

/-- **Literals that satisfy clauses**: no two of them are opposite and every
clause has one of them. Variables may be left open. -/
structure IsModel (cs : List Clause) (m : List Lit) : Prop where
  consistent : ∀ l ∈ m, l.neg ∉ m
  satisfies : ∀ c ∈ cs, ∃ l ∈ c, l ∈ m

namespace IsModel

variable {cs ds : List Clause} {m : List Lit}

/-- The literals of a model as a valuation; open variables get one value. -/
def valuation (m : List Lit) (other : Bool) : Valuation := fun v =>
  if v.pos ∈ m then true else if v.neg ∈ m then false else other

theorem holds_valuation (h : IsModel cs m) (other : Bool) {l : Lit} (hl : l ∈ m) :
    l.holds (valuation m other) = true := by
  obtain ⟨v, positive⟩ := l
  refine Lit.holds_iff.mpr ?_
  unfold valuation
  cases positive with
  | true => exact if_pos hl
  | false =>
    have hpos : v.pos ∉ m := fun hpos => h.consistent _ hpos hl
    exact (if_neg hpos).trans (if_pos hl)

theorem allHold_valuation (h : IsModel cs m) (other : Bool) :
    allHold (valuation m other) cs = true := by
  refine allHold_iff.mpr fun c hc => ?_
  obtain ⟨l, hl, hm⟩ := h.satisfies c hc
  exact Clause.holds_iff.mpr ⟨l, hl, h.holds_valuation other hm⟩

theorem satisfiable (h : IsModel cs m) : Satisfiable cs := ⟨_, h.allHold_valuation true⟩

theorem mono (h : IsModel cs m) (hsub : ds ⊆ cs) : IsModel ds m :=
  ⟨h.consistent, fun c hc => h.satisfies c (hsub hc)⟩

/-- **A model has every literal that follows from the clauses and from literals
of the model**: an open variable could as well have the other value. -/
theorem mem_of_entailed (h : IsModel cs m) {assumptions : List Lit} (hsub : assumptions ⊆ m)
    {l : Lit} (hl : ∀ ν, allHold ν cs = true → (∀ a ∈ assumptions, a.holds ν = true) →
      l.holds ν = true) : l ∈ m := by
  by_contra hno
  have hholds := hl _ (h.allHold_valuation (!l.positive)) fun a ha =>
    h.holds_valuation _ (hsub ha)
  by_cases hneg : l.neg ∈ m
  · rw [Lit.not_holds_of_neg (h.holds_valuation _ hneg)] at hholds
    cases hholds
  · obtain ⟨v, positive⟩ := l
    have hopen : valuation m (!positive) v = !positive := by
      cases positive with
      | true => exact (if_neg hno).trans (if_neg hneg)
      | false => exact (if_neg hneg).trans (if_neg hno)
    have hvalue : valuation m (!positive) v = positive := Lit.holds_iff.mp hholds
    rw [hopen] at hvalue
    cases positive <;> cases hvalue

theorem mem_of_unit (h : IsModel cs m) {l : Lit} (hl : Entails cs [l]) : l ∈ m :=
  h.mem_of_entailed (List.nil_subset m) fun _ hν _ => hl.lit hν

theorem mem_of_pair (h : IsModel cs m) {l k : Lit} (hl : l ∈ m) (hk : Entails cs [l.neg, k]) :
    k ∈ m := by
  refine h.mem_of_entailed (List.cons_subset.mpr ⟨hl, List.nil_subset m⟩) fun ν hν hlν => ?_
  have hholds := hlν l List.mem_cons_self
  refine (Clause.holds_pair.mp (hk ν hν)).resolve_left fun hneg => ?_
  rw [Lit.not_holds_of_neg hneg] at hholds
  cases hholds

/-- A literal of an open variable can be added. -/
theorem consistent_cons {l : Lit} (hm : ∀ k ∈ m, k.neg ∉ m) (hvars : ∀ k ∈ m, k.var ≠ l.var) :
    ∀ k ∈ l :: m, k.neg ∉ l :: m := by
  intro k hk hneg
  rcases List.mem_cons.mp hk with rfl | hk
  · rcases List.mem_cons.mp hneg with hneg | hneg
    · exact absurd (congrArg Lit.positive hneg) (by simp [Lit.neg])
    · exact hvars _ hneg rfl
  · rcases List.mem_cons.mp hneg with hneg | hneg
    · exact hvars k hk (hneg ▸ rfl)
    · exact hm k hk hneg

end IsModel

namespace SatProcedure

variable {P : SatProcedure}

theorem neg_eq_iff {x y : P.Literal} : P.neg x = y ↔ x = P.neg y :=
  ⟨fun h => h ▸ (P.neg_neg x).symm, fun h => h ▸ P.neg_neg y⟩

/-- The same for the literals of a procedure. -/
structure IsModel (P : SatProcedure) (cs : List (List P.Literal)) (m : List P.Literal) : Prop where
  consistent : ∀ x ∈ m, P.neg x ∉ m
  satisfies : ∀ c ∈ cs, ∃ x ∈ c, x ∈ m

/-- Literals over variables of the procedure. -/
def Over (P : SatProcedure) (vars xs : List P.Literal) : Prop := ∀ x ∈ xs, x ∈ vars ∨ P.neg x ∈ vars

/-- **A procedure that is used rightly**: the variables it made, and the clauses over
them that it was given, on the way to a state. -/
inductive Holds (P : SatProcedure) : P.State → List P.Literal → List (List P.Literal) → Prop where
  | start : Holds P P.start [] []
  | addVariable {st : P.State} {vars : List P.Literal} {cs : List (List P.Literal)}
      (h : Holds P st vars cs) : Holds P (P.addVariable st).2 ((P.addVariable st).1 :: vars) cs
  | addClause {st : P.State} {vars : List P.Literal} {cs : List (List P.Literal)}
      (h : Holds P st vars cs) {c : List P.Literal} (hc : P.Over vars c) :
      Holds P (P.addClause st c) vars (c :: cs)
  | solve {st st' : P.State} {vars : List P.Literal} {cs : List (List P.Literal)}
      {assumptions : List P.Literal} {satisfiable : Bool} (h : Holds P st vars cs)
      (hassumptions : P.Over vars assumptions)
      (hr : P.solve st assumptions = .ok (satisfiable, st')) : Holds P st' vars cs

/-- **A procedure to be trusted**: a variable it makes is new, and where it denies a
model there is none. -/
structure Trusted (P : SatProcedure) : Prop where
  fresh : ∀ st vars cs, P.Holds st vars cs → ¬ P.Over vars [(P.addVariable st).1]
  denies : ∀ st vars cs assumptions st', P.Holds st vars cs → P.Over vars assumptions →
    P.solve st assumptions = .ok (false, st') → ¬ ∃ m, P.IsModel cs m ∧ assumptions ⊆ m

/-- **A sound and complete procedure**: it always answers, it denies a model
only if there is none, and otherwise a model can be read in which the assumptions
are true. Which model it finds is left open. -/
structure Exact (P : SatProcedure) : Prop where
  answers : ∀ st vars cs assumptions, P.Holds st vars cs → P.Over vars assumptions →
    ∃ satisfiable st', P.solve st assumptions = .ok (satisfiable, st')
  trusted : P.Trusted
  finds : ∀ st vars cs assumptions st', P.Holds st vars cs → P.Over vars assumptions →
    P.solve st assumptions = .ok (true, st') →
      ∃ m, P.model st' = some m ∧ P.IsModel cs m ∧ assumptions ⊆ m

end SatProcedure

/-! ## Splitting -/

namespace Splitting

/-- What is true stays true when a true literal is assumed. -/
theorem allHold_assume {ν : Valuation} {l : Lit} {cs : List Clause} (hl : l.holds ν = true)
    (h : allHold ν cs = true) : allHold ν (assume l cs) = true := by
  refine allHold_iff.mpr fun c hc => ?_
  obtain ⟨d, hd, rfl⟩ := List.mem_map.mp hc
  obtain ⟨m, hm, hholds⟩ := Clause.holds_iff.mp (allHold_iff.mp h d (List.mem_of_mem_filter hd))
  refine Clause.holds_iff.mpr ⟨m, List.mem_filter.mpr ⟨hm, ?_⟩, hholds⟩
  refine decide_eq_true fun he => ?_
  rw [he, Lit.holds_neg, hl] at hholds
  cases hholds

/-- **Splitting is complete**: without an answer there is no model. -/
theorem not_satisfiable_of_solve {cs : List Clause} (h : solve cs = none) :
    ¬ Satisfiable cs := by
  fun_induction solve cs with
  | case1 cs hshort => cases h
  | case2 cs hshort =>
    rintro ⟨ν, hν⟩
    have := allHold_iff.mp hν [] (shortest?_mem hshort)
    cases this
  | case3 cs l rest hshort _ model hmodel ih => cases h
  | case4 cs l rest hshort _ hnone hunit ih =>
    rintro ⟨ν, hν⟩
    obtain rfl := List.isEmpty_iff.mp hunit
    have hl := Clause.holds_singleton.mp (allHold_iff.mp hν [l] (shortest?_mem hshort))
    exact ih hnone ⟨ν, allHold_assume hl hν⟩
  | case5 cs l rest hshort _ hnone hunit ih₁ ih₂ =>
    rintro ⟨ν, hν⟩
    cases hl : l.holds ν with
    | true => exact ih₁ hnone ⟨ν, allHold_assume hl hν⟩
    | false =>
      exact ih₂ (by simpa using h) ⟨ν, allHold_assume (Lit.neg_holds_of_not hl) hν⟩

theorem var_ne_of_mem_assume {l m : Lit} {cs : List Clause} {c : Clause} (hc : c ∈ assume l cs)
    (hm : m ∈ c) : m.var ≠ l.var := by
  obtain ⟨d, hd, rfl⟩ := List.mem_map.mp hc
  obtain ⟨hmd, hne⟩ := List.mem_filter.mp hm
  intro hvar
  rcases Lit.eq_or_eq_neg hvar with rfl | rfl
  · simp [hmd] at hd
  · simp at hne

theorem mem_assume {l : Lit} {cs : List Clause} {c : Clause} (hc : c ∈ assume l cs) :
    ∃ d ∈ cs, ∀ m ∈ c, m ∈ d := by
  obtain ⟨d, hd, rfl⟩ := List.mem_map.mp hc
  exact ⟨d, List.mem_of_mem_filter hd, fun m hm => List.mem_of_mem_filter hm⟩

/-- A model of what is left makes up a model with the literal assumed. -/
theorem isModel_cons {l : Lit} {cs : List Clause} {m : List Lit} (h : IsModel (assume l cs) m)
    (hvars : ∀ k ∈ m, k.var ≠ l.var) : IsModel cs (l :: m) := by
  refine ⟨IsModel.consistent_cons h.consistent hvars, fun c hc => ?_⟩
  by_cases hl : l ∈ c
  · exact ⟨l, hl, List.mem_cons_self⟩
  · obtain ⟨k, hk, hm⟩ := h.satisfies (c.filter (· ≠ l.neg))
      (List.mem_map.mpr ⟨c, List.mem_filter.mpr ⟨hc, by simpa using hl⟩, rfl⟩)
    exact ⟨k, List.mem_of_mem_filter hk, List.mem_cons_of_mem _ hm⟩

/-- **Splitting is sound**: an answer is a model over variables of the clauses. -/
theorem isModel_of_solve {cs : List Clause} {m : List Lit} (h : solve cs = some m) :
    IsModel cs m ∧ ∀ k ∈ m, ∃ c ∈ cs, ∃ l ∈ c, l.var = k.var := by
  -- the literals of a part are over other variables than the one assumed
  have hstep : ∀ {cs : List Clause} {l : Lit} {c : Clause} {m : List Lit}, c ∈ cs →
      (∃ k ∈ c, k.var = l.var) → (IsModel (assume l cs) m ∧
        ∀ k ∈ m, ∃ c ∈ assume l cs, ∃ l ∈ c, l.var = k.var) →
      IsModel cs (l :: m) ∧ ∀ k ∈ l :: m, ∃ c ∈ cs, ∃ l ∈ c, l.var = k.var := by
    intro cs l c m hc hlc ⟨hmodel, hvars⟩
    refine ⟨isModel_cons hmodel fun k hk => ?_, fun k hk => ?_⟩
    · obtain ⟨d, hd, l', hl', hvar⟩ := hvars k hk
      exact hvar ▸ var_ne_of_mem_assume hd hl'
    · rcases List.mem_cons.mp hk with rfl | hk
      · exact ⟨c, hc, hlc⟩
      · obtain ⟨d, hd, l', hl', hvar⟩ := hvars k hk
        obtain ⟨c', hc', hsub⟩ := mem_assume hd
        exact ⟨c', hc', l', hsub l' hl', hvar⟩
  fun_induction solve cs generalizing m with
  | case1 cs hshort =>
    cases h
    have hnil : cs = [] := by
      cases cs with
      | nil => rfl
      | cons c rest => cases hshort
    subst hnil
    exact ⟨⟨by simp, by simp⟩, by simp⟩
  | case2 cs hshort => cases h
  | case3 cs l rest hshort _ model hmodel ih =>
    cases h
    exact hstep (shortest?_mem hshort) ⟨l, List.mem_cons_self, rfl⟩ (ih hmodel)
  | case4 cs l rest hshort _ hnone hunit ih => cases h
  | case5 cs l rest hshort _ hnone hunit ih₁ ih₂ =>
    obtain ⟨model, hmodel, rfl⟩ := Option.map_eq_some_iff.mp h
    exact hstep (shortest?_mem hshort) ⟨l, List.mem_cons_self, rfl⟩ (ih₂ hmodel)

/-- Giving values to open variables keeps a model. -/
theorem isModel_complete {cs : List Clause} (lits : List Lit) {m : List Lit} (h : IsModel cs m) :
    IsModel cs (complete lits m) := by
  unfold complete
  induction lits generalizing m with
  | nil => exact h
  | cons l rest ih =>
    rw [List.foldl_cons]
    split
    · exact ih h
    · rename_i hopen
      have hvar : ∀ k ∈ m, k.var ≠ l.var := by simpa using hopen
      refine ih ⟨IsModel.consistent_cons h.consistent hvar, fun c hc => ?_⟩
      obtain ⟨k, hk, hm⟩ := h.satisfies c hc
      exact ⟨k, hk, List.mem_cons_of_mem _ hm⟩

end Splitting

/-- What splitting remembers are the clauses, and its variables are numbered. -/
theorem splitting_holds {st : splitting.State} {vars : List Lit} {cs : List Clause}
    (h : splitting.Holds st vars cs) :
    st.clauses = cs ∧ ∀ x ∈ vars, x.positive = true ∧ x.var.index < st.varCount := by
  induction h with
  | start => exact ⟨rfl, fun x hx => absurd hx List.not_mem_nil⟩
  | addVariable _ ih =>
    refine ⟨ih.1, List.forall_mem_cons.mpr ⟨⟨rfl, Nat.lt_succ_self _⟩, fun x hx => ?_⟩⟩
    exact ⟨(ih.2 x hx).1, Nat.lt_succ_of_lt (ih.2 x hx).2⟩
  | @addClause _ _ _ _ c _ ih => exact ⟨congrArg (c :: ·) ih.1, ih.2⟩
  | solve _ _ hr ih =>
    obtain ⟨-, rfl⟩ := Prod.mk.inj (Except.ok.inj hr)
    exact ih

theorem splitting_trusted : splitting.Trusted where
  fresh := by
    intro st vars cs hst hover
    obtain ⟨-, hvars⟩ := splitting_holds hst
    rcases hover _ List.mem_cons_self with hin | hin
    · exact absurd (hvars _ hin).2 (Nat.lt_irrefl _)
    · exact absurd (hvars _ hin).1 Bool.false_ne_true
  denies := by
    rintro st vars cs assumptions st' hst - hr ⟨m, hm, hassumed⟩
    obtain ⟨rfl, -⟩ := splitting_holds hst
    obtain ⟨hnone, -⟩ := Prod.mk.inj (Except.ok.inj hr)
    have hsearch : Splitting.search st assumptions = none := by simpa using hnone
    refine Splitting.not_satisfiable_of_solve (Option.map_eq_none_iff.mp hsearch)
      (IsModel.satisfiable (m := m) ⟨hm.consistent, fun c hc => ?_⟩)
    rcases List.mem_append.mp hc with hc | hc
    · obtain ⟨l, hl, rfl⟩ := List.mem_map.mp hc
      exact ⟨l, List.mem_cons_self, hassumed hl⟩
    · exact hm.satisfies c hc

/-- **Splitting is exact.** -/
theorem splitting_exact : splitting.Exact where
  answers := fun _ _ _ _ _ _ => ⟨_, _, rfl⟩
  trusted := splitting_trusted
  finds := by
    rintro st vars cs (assumptions : List Lit) st' hst - hr
    obtain ⟨rfl, -⟩ := splitting_holds hst
    obtain ⟨hsome, rfl⟩ := Prod.mk.inj (Except.ok.inj hr)
    obtain ⟨m, hsearch⟩ := Option.isSome_iff_exists.mp hsome
    obtain ⟨model, hmodel, rfl⟩ := Option.map_eq_some_iff.mp hsearch
    have hall := Splitting.isModel_complete (assumptions ++ st.clauses.flatten)
      (Splitting.isModel_of_solve hmodel).1
    refine ⟨_, hsearch, ⟨hall.consistent, fun c hc => ?_⟩, fun l hl => ?_⟩
    · exact hall.satisfies c (List.mem_append_right _ hc)
    · obtain ⟨k, hk, hm⟩ := hall.satisfies [l]
        (List.mem_append_left _ (List.mem_map.mpr ⟨l, hl, rfl⟩))
      exact List.mem_singleton.mp hk ▸ hm

end Cleave
