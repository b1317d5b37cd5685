import Cleave.Proofs.Equivalence
import Cleave.Proofs.Storing
import Mathlib.Logic.Relation

/-!
# The classes of a solver

Two given binary clauses tie two open literals together (`Solver.Tied`), and
the class of a literal is what a chain of ties leads to
(`Solver.Equivalent`). Every valuation of the given clauses gives a class one
value.

The search for classes visits each variable once and unites it with what it
is tied to. So a root is always in the class of its literal
(`Solver.Classes`), and in the end tied literals have the same root, as
uniting never parts what was united before (`Equivalences.Coarser`). Roots
have the smallest variable on their way, hence of their class. If a literal
meets its own opposite, no valuation is left.
-/

namespace Cleave

/-- What an optional result is, or what holds without one. -/
def Yields {α : Type} (P : α → Prop) (Q : Prop) : Option α → Prop
  | some a => P a
  | none => Q

theorem Yields.imp {α : Type} {P P' : α → Prop} {Q : Prop} {o : Option α} (h : Yields P Q o)
    (himp : ∀ a, P a → P' a) : Yields P' Q o := by
  cases o with
  | none => exact h
  | some a => exact himp a h

/-- A fold keeps what each of its steps keeps, of all elements passed. -/
theorem Yields.foldlM {α β : Type} {P : List α → β → Prop} {Q : Prop} {f : β → α → Option β}
    (xs : List α) {b : β}
    (hstep : ∀ done b, P done b → ∀ x ∈ xs, Yields (P (done ++ [x])) Q (f b x))
    (hb : P [] b) : Yields (P xs) Q (xs.foldlM f b) := by
  suffices h : ∀ done b, P done b → Yields (P (done ++ xs)) Q (xs.foldlM f b) from h [] b hb
  clear hb
  induction xs with
  | nil =>
    intro done b hb
    rwa [List.append_nil]
  | cons x rest ih =>
    intro done b hb
    have hx := hstep done b hb x List.mem_cons_self
    rw [List.foldlM_cons, List.append_cons]
    cases hf : f b x with
    | none => rw [hf] at hx; exact hx
    | some b' =>
      rw [hf] at hx
      exact ih (fun d c hc y hy => hstep d c hc y (List.mem_cons_of_mem _ hy)) _ _ hx

namespace Equivalences

variable {e e' e'' : Equivalences}

/-- What had one root has one root still. -/
def Coarser (e e' : Equivalences) : Prop := ∀ a b, e.root a = e.root b → e'.root a = e'.root b

theorem Coarser.refl (e : Equivalences) : e.Coarser e := fun _ _ h => h

theorem Coarser.trans (h : e.Coarser e') (h' : e'.Coarser e'') : e.Coarser e'' :=
  fun a b hab => h' a b (h a b hab)

end Equivalences

namespace Solver

variable {F : List Clause} {s : Solver} {e : Equivalences} {a b l : Lit}

/-! ## Equivalent literals -/

/-- **Two open literals are tied** if given binary clauses make them imply each
other. -/
structure Tied (s : Solver) (a b : Lit) : Prop where
  openLeft : s.trail.isAssigned a.var = false
  openRight : s.trail.isAssigned b.var = false
  forward : b ∈ s.store.partners a.neg
  backward : b.neg ∈ s.store.partners a

theorem Tied.neg (h : s.Tied a b) : s.Tied a.neg b.neg where
  openLeft := h.openLeft
  openRight := h.openRight
  forward := by rw [Lit.neg_neg]; exact h.backward
  backward := by rw [Lit.neg_neg]; exact h.forward

theorem Tied.inRange (hs : Sound F s) (h : s.Tied a b) :
    a.var.index < s.varCount ∧ b.var.index < s.varCount := by
  have hb := ClauseStore.mem_implied_of_partner h.forward
  refine ⟨?_, hs.store.impliedInRange _ _ hb⟩
  rw [Lit.neg_neg] at hb
  exact Lit.code_lt.mp (hs.store.sizeImplications ▸ ClauseStore.code_lt_of_implied hb)

/-- Tied literals have one value wherever the given clauses hold. -/
theorem Tied.holds (h : s.Tied a b) {ν : Valuation}
    (hν : ∀ c, s.store.Given c → c.holds ν = true) : a.holds ν = b.holds ν := by
  have h₁ := Clause.holds_pair.mp (hν _ (Or.inr ⟨a.neg, b, h.forward, rfl⟩))
  have h₂ := Clause.holds_pair.mp (hν _ (Or.inr ⟨a, b.neg, h.backward, rfl⟩))
  rw [Lit.holds_neg] at h₁ h₂
  cases hva : a.holds ν <;> cases hvb : b.holds ν <;> simp_all

/-- **Equivalent literals** are joined by a chain of tied ones. -/
def Equivalent (s : Solver) : Lit → Lit → Prop := Relation.EqvGen s.Tied

namespace Equivalent

theorem neg (h : s.Equivalent a b) : s.Equivalent a.neg b.neg := by
  induction h with
  | rel a b hab => exact .rel _ _ hab.neg
  | refl a => exact .refl _
  | symm a b _ ih => exact .symm _ _ ih
  | trans a b c _ _ ih ih' => exact .trans _ _ _ ih ih'

/-- An assigned literal is equivalent to itself alone. -/
theorem eq_or_open (h : s.Equivalent a b) :
    a = b ∨ (s.trail.isAssigned a.var = false ∧ s.trail.isAssigned b.var = false) := by
  induction h with
  | rel a b hab => exact Or.inr ⟨hab.openLeft, hab.openRight⟩
  | refl a => exact Or.inl rfl
  | symm a b _ ih => exact ih.imp Eq.symm And.symm
  | trans a b c _ _ ih ih' =>
    rcases ih with rfl | ih
    · exact ih'
    · rcases ih' with rfl | ih'
      · exact Or.inr ih
      · exact Or.inr ⟨ih.1, ih'.2⟩

theorem holds (h : s.Equivalent a b) {ν : Valuation}
    (hν : ∀ c, s.store.Given c → c.holds ν = true) : a.holds ν = b.holds ν := by
  induction h with
  | rel a b hab => exact hab.holds hν
  | refl a => rfl
  | symm a b _ ih => exact ih.symm
  | trans a b c _ _ ih ih' => exact ih.trans ih'

end Equivalent

/-! ## The search for classes -/

/-- **Classes of a solver**: every literal is equivalent to its root. -/
structure Classes (s : Solver) (e : Equivalences) : Prop where
  size : e.parent.size = s.varCount
  joined : ∀ l : Lit, l.var.index < s.varCount → s.Equivalent l (e.root l)

/-- No valuation satisfies the given clauses. -/
def NoneGiven (s : Solver) : Prop := ∀ ν, ¬ ∀ c, s.store.Given c → c.holds ν = true

namespace Classes

/-- Assigned variables are never united. -/
theorem fixed (h : Classes s e) (hl : l.var.index < s.varCount)
    (ha : s.trail.isAssigned l.var = true) : e.root l = l := by
  rcases (h.joined l hl).eq_or_open with heq | ⟨hopen, -⟩
  · exact heq.symm
  · rw [ha] at hopen
    cases hopen

/-- Every valuation of the given clauses respects the classes. -/
theorem respects (h : Classes s e) {ν : Valuation}
    (hν : ∀ c, s.store.Given c → c.holds ν = true) : e.Respects ν := fun l hl =>
  ((h.joined l (h.size ▸ hl)).holds hν).symm

theorem discrete (s : Solver) : Classes s (.discrete s.varCount) where
  size := by simp [Equivalences.discrete, VarTable.size, Var.range]
  joined := fun l hl => by
    rw [Equivalences.root_discrete hl]
    exact .refl l

theorem of_roots {e' : Equivalences} (h : Classes s e) (hsize : e'.parent.size = e.parent.size)
    (hroot : ∀ l, e'.root l = e.root l) : Classes s e' where
  size := hsize.trans h.size
  joined := fun l hl => (hroot l).symm ▸ h.joined l hl

/-- **Uniting two tied literals.** -/
theorem union (hs : Sound F s) (h : Classes s e) (hab : s.Tied a b) :
    Yields (fun e' => Classes s e' ∧ e.Coarser e' ∧ e'.root a = e'.root b) s.NoneGiven
      (e.union? a b) := by
  obtain ⟨ha, hb⟩ := hab.inRange hs
  have hroots : s.Equivalent (e.root a) (e.root b) :=
    .trans _ _ _ (.symm _ _ (h.joined a ha)) (.trans _ _ _ (.rel _ _ hab) (h.joined b hb))
  rw [← h.size] at ha hb
  rcases Equivalences.union?_spec ha hb with
    ⟨hnone, -⟩ | ⟨e', keep, other, he', hsize, hpair, hroot, hsame⟩
  · rw [hnone]
    exact fun ν hν => (h.respects hν).union?_ne_none ha hb (hab.holds hν) hnone
  · rw [he']
    have hother : s.Equivalent other keep := by
      rcases hpair with ⟨rfl, rfl⟩ | ⟨rfl, rfl⟩
      · exact .symm _ _ hroots
      · exact hroots
    refine ⟨⟨hsize.trans h.size, fun l hl => ?_⟩, fun x y hxy => ?_, hsame⟩
    · refine .trans _ _ _ (h.joined l hl) ?_
      rw [hroot]
      rcases Equivalences.replace_cases keep other (e.root l) with
        heq | ⟨hl', heq⟩ | ⟨hl', heq⟩
      · rw [heq]
        exact .refl _
      · rw [heq, hl']
        exact hother
      · rw [heq, hl']
        exact hother.neg
    · rw [hroot, hroot, hxy]

end Classes

/-- A variable has the root of all that it is tied to. -/
def Unites (s : Solver) (e : Equivalences) (v : Var) : Prop :=
  ∀ b, s.Tied v.pos b → e.root v.pos = e.root b

theorem Unites.mono {e' : Equivalences} {v : Var} (h : s.Unites e v) (he : e.Coarser e') :
    s.Unites e' v :=
  fun b hb => he _ _ (h b hb)

/-- What one variable adds. -/
theorem uniteVar_spec (hs : Sound F s) (h : Classes s e) (v : Var) :
    Yields (fun e' => Classes s e' ∧ e.Coarser e' ∧ s.Unites e' v) s.NoneGiven
      (s.uniteVar e v) := by
  unfold uniteVar
  split
  · rename_i hassigned
    refine ⟨h, .refl e, fun b hb => ?_⟩
    have hopen := hb.openLeft
    rw [show v.pos.var = v from rfl, hassigned] at hopen
    cases hopen
  · rename_i hopen
    have hfold := Yields.foldlM (Q := s.NoneGiven) (f := fun e b =>
        if s.trail.isAssigned b.var || !(s.store.partners v.pos).contains b.neg then some e
        else e.union? v.pos b)
      (P := fun done e' => Classes s e' ∧ e.Coarser e'
        ∧ ∀ b ∈ done, s.Tied v.pos b → e'.root v.pos = e'.root b)
      (s.store.partners v.neg) (b := e) ?_
      ⟨h, .refl e, fun b hb => absurd hb List.not_mem_nil⟩
    · exact hfold.imp fun e' ⟨hc, hcoarse, hdone⟩ =>
        ⟨hc, hcoarse, fun b hb => hdone b hb.forward hb⟩
    · intro done e₁ ⟨hc, hcoarse, hdone⟩ b hb
      have hstep : ∀ e₂, e₁.Coarser e₂ → (s.Tied v.pos b → e₂.root v.pos = e₂.root b) →
          ∀ x ∈ done ++ [b], s.Tied v.pos x → e₂.root v.pos = e₂.root x := by
        intro e₂ he₂ hnew x hx htied
        rcases List.mem_append.mp hx with hx | hx
        · exact he₂ _ _ (hdone x hx htied)
        · rw [List.mem_singleton.mp hx] at htied ⊢
          exact hnew htied
      split
      · rename_i hskip
        refine ⟨hc, hcoarse, hstep e₁ (.refl e₁) fun htied => ?_⟩
        have hback := htied.backward
        have hopenb := htied.openRight
        simp_all
      · rename_i hboth
        obtain ⟨hopenb, hback⟩ : s.trail.isAssigned b.var = false
            ∧ b.neg ∈ s.store.partners v.pos := by simpa using hboth
        have htied : s.Tied v.pos b := ⟨(Bool.not_eq_true _).mp hopen, hopenb, hb, hback⟩
        exact (hc.union hs htied).imp fun e₂ ⟨hc₂, hcoarse₂, hsame⟩ =>
          ⟨hc₂, hcoarse.trans hcoarse₂, hstep e₂ hcoarse₂ fun _ => hsame⟩

/-- **Equivalent literals have one root**, once all variables are united with the
literals they are tied to. -/
theorem Equivalent.root_eq (hs : Sound F s) (hall : ∀ v ∈ Var.range s.varCount, s.Unites e v)
    {a b : Lit} (hab : s.Equivalent a b) : e.root a = e.root b := by
  induction hab with
  | rel a b hab =>
    have hunites := hall a.var (Var.mem_range.mpr (hab.inRange hs).1)
    rcases hp : a.positive with _ | _
    · -- a negative literal, by its opposite
      have ha : a.neg = a.var.pos := Lit.eq_of_var_eq rfl (by simp [Lit.neg, hp, Var.pos])
      have hneg := hunites b.neg (ha ▸ hab.neg)
      rw [← ha] at hneg
      rw [← Lit.neg_inj]
      exact (e.root_flipUnless a false).symm.trans (hneg.trans (e.root_flipUnless b false))
    · have ha : a = a.var.pos := Lit.eq_of_var_eq rfl hp
      have hpos := hunites b (ha ▸ hab)
      rwa [← ha] at hpos
  | refl a => rfl
  | symm a b _ ih => exact ih.symm
  | trans a b c _ _ ih ih' => exact ih.trans ih'

/-- **The classes that are found** are those of the solver: two literals are
equivalent only if they have one root. -/
theorem equivalences?_spec (hs : Sound F s) :
    Yields (fun e => Classes s e ∧ ∀ a b, s.Equivalent a b → e.root a = e.root b) s.NoneGiven
      s.equivalences? := by
  have hfold := Yields.foldlM (Q := s.NoneGiven) (f := s.uniteVar)
    (P := fun done e => Classes s e ∧ ∀ v ∈ done, s.Unites e v) (Var.range s.varCount)
    (b := .discrete s.varCount) ?_
    ⟨.discrete s, fun v hv => absurd hv List.not_mem_nil⟩
  · exact hfold.imp fun e he => ⟨he.1, fun a b hab => hab.root_eq hs he.2⟩
  · rintro done e ⟨hc, hdone⟩ v _
    refine (uniteVar_spec hs hc v).imp fun e' he' => ⟨he'.1, fun w hw => ?_⟩
    obtain ⟨-, hcoarse, hunites⟩ := he'
    rcases List.mem_append.mp hw with hw | hw
    · exact (hdone w hw).mono hcoarse
    · rw [List.mem_singleton.mp hw]
      exact hunites

/-- The replaced variables, with their roots. Looking for them changes no
root. -/
theorem replacedVars_spec (vs : List Var) {e : Equivalences}
    (hvs : ∀ v ∈ vs, v.index < e.parent.size) :
    (replacedVars e vs).1
        = (vs.filter fun v => (e.root v.pos).var ≠ v).map (fun v => (v, e.root v.pos))
      ∧ (replacedVars e vs).2.parent.size = e.parent.size
      ∧ ∀ l, (replacedVars e vs).2.root l = e.root l := by
  induction vs generalizing e with
  | nil => exact ⟨rfl, rfl, fun _ => rfl⟩
  | cons v rest ih =>
    obtain ⟨hfound, hsize, hroot⟩ := Equivalences.find_spec (l := v.pos) (hvs v List.mem_cons_self)
    obtain ⟨hrest, hsize', hroot'⟩ := ih (e := (e.find v.pos).2) fun w hw =>
      hsize ▸ hvs w (List.mem_cons_of_mem _ hw)
    refine ⟨?_, hsize'.trans hsize, fun l => (hroot' l).trans (hroot l)⟩
    show (if (e.find v.pos).1.var = v then (replacedVars (e.find v.pos).2 rest).1
      else (v, (e.find v.pos).1) :: (replacedVars (e.find v.pos).2 rest).1) = _
    rw [hfound, hrest]
    simp only [hroot]
    by_cases hv : (e.root v.pos).var = v
    · simp [hv]
    · simp [hv]

end Solver

end Cleave
