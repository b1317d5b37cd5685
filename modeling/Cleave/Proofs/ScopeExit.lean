import Cleave.Proofs.Lease
import Cleave.Proofs.Retraction
import Cleave.Proofs.RootRefutation

/-!
# Propagation after a scope was left

A scope is entered, propagation stays inside, and once the scope is left what
was assigned inside is propagated again. This finds the implications that were
skipped because they lead out of the scope, but only those of the literals
assigned inside.

Literals that waited when the scope was entered are propagated inside as well,
and stand before the position that the head is taken back to. What they imply
outside of the scope is never found again (`skipped_consequence`). So nothing
is lost only if the scope surrounds what waits (`Surrounds`), as it does when
nothing waits. In any case no more is found than without the scope, and no
conflict that there would not be (`Driven.scopeExit`).
-/

namespace Cleave

namespace Solver

variable {F : List Clause} {s s' s₀ s₁ s₂ : Solver} {c : Component} {r r₁ r₂ : Option Conflict}

/-- **A component around what waits**: it has the open variables of all clauses
with the opposite of a literal that is still to be propagated. -/
def Surrounds (s : Solver) (c : Component) : Prop :=
  ∀ l ∈ s.trail.lits.toList.drop s.trail.head, ∀ d, s.store.Has d → l.neg ∈ d →
    ∀ m ∈ d, s.trail.isAssigned m.var = false → m.var ∈ c.vars

/-- The state with a scope entered. -/
def entered (s : Solver) (c : Component) : Solver := { s with scope := s.scopeOf c }

theorem inScope_entered (hflags : s.ScopeExact) (hc : ∀ v ∈ c.vars, v.index < s.varCount) {v : Var}
    (hv : v ∈ c.vars) : (s.entered c).inScope v = true := by
  have hentered : (s.scopeOf c).Exact s.varCount := ScopeTable.Exact.swap hflags hc
  exact (hentered.admits_iff v).mpr (Or.inr hv)

/-- A scope around what waits admits its consequences. -/
theorem Surrounds.admitsFrom (h : s.Surrounds c) (hs : Sound F s) (hflags : s.ScopeExact)
    (hc : ∀ v ∈ c.vars, v.index < s.varCount) {l : Lit}
    (hl : l ∈ s.trail.lits.toList.drop s.trail.head) : (s.entered c).AdmitsFrom l := by
  have hadmits : ∀ d, s.store.Has d → l.neg ∈ d → (s.entered c).Admits d := by
    intro d hd hneg m hm hopen hno
    refine inScope_entered hflags hc (h l hl d hd hneg m hm ?_)
    rw [Bool.eq_false_iff]
    intro hassigned
    obtain ⟨k, hk, hv⟩ := hs.trail.isAssigned_iff.mp hassigned
    rcases Lit.eq_or_eq_neg hv with rfl | rfl
    · exact hopen hk
    · exact hno hk
  refine ⟨fun b hb => ?_, fun id hid hneg => ?_⟩
  · have hpair := hadmits [l.neg, b] (.binary hb) List.mem_cons_self
    exact fun m hm => hpair m (List.mem_cons_of_mem _ hm)
  · exact hadmits _ (.long (ClauseStore.clause_mem hid)) hneg

/-- **Propagating inside and leaving.** Without a conflict the head is taken back
to where the trail ended when the scope was entered. -/
theorem entered_resumes (hs : Sound F s) (hinside : (s.entered c).propagate = (r₁, s₁)) :
    Sound F (s₁.restoreScope none) ∧ Resumes s (s₁.restoreScope none)
      ∧ (r₁ = none → (s₁.restoreScope none).trail.head = s.trail.lits.size) := by
  have hs' : Sound F (s.entered c) := hs
  obtain ⟨hdrawn, hend, -⟩ := propagate_spec hs' hinside
  have hpast : Past (s.trail.lits.toList.take s.trail.head) (s.entered c) s₁ :=
    (propagate_past hs' (fun _ hm => hm) hinside).1
  have hscope : s₁.scope = s.scopeOf c := (congrArg Solver.scope hdrawn.grown.others).symm
  have hhead : (s₁.restoreScope none).trail.head = min s₁.trail.head s.trail.lits.size := by
    unfold restoreScope
    rw [hscope]
    rfl
  have hgrows : s.trail.head ≤ s₁.trail.head := hdrawn.grown.head
  have hsize : s.trail.lits.size ≤ s₁.trail.lits.size := hdrawn.grown.size
  have hle := hs.trail.headLe
  refine ⟨hdrawn.sound.rewind _, ⟨fun m hm => ?_, hpast.pinned⟩, fun hr => ?_⟩
  · have hm : m ∈ s₁.trail.lits.toList.take s.trail.head := by
      rw [hdrawn.grown.take_eq hle]
      exact hm
    exact List.take_subset_take_left _ (by omega) hm
  · have := hend hr
    omega

/-- **After leaving a scope around what waited**, everything behind the old head
is saturated. -/
theorem saturated_after (hs : Sound F s) (hflags : s.ScopeExact)
    (hc : ∀ v ∈ c.vars, v.index < s.varCount) (hsurrounds : s.Surrounds c)
    (hinside : (s.entered c).propagate = (none, s₁))
    (hafter : (s₁.restoreScope none).propagate = (none, s₂)) :
    Saturated s₂ (s.trail.lits.toList.drop s.trail.head
      ++ s₂.trail.lits.toList.drop s.trail.lits.size) := by
  have hs' : Sound F (s.entered c) := hs
  obtain ⟨hdrawn, -⟩ := propagate_spec hs' hinside
  obtain ⟨hleft, -, hhead⟩ := entered_resumes hs hinside
  -- what waited is propagated inside the scope, which admits it
  have hinner : Saturated s₁ ([] ++ s.trail.lits.toList.drop s.trail.head) := by
    refine propagate_saturated hs' hinside (fun m hm => absurd hm List.not_mem_nil)
      (saturated_nil _) fun m hm => ⟨?_, hsurrounds.admitsFrom hs hflags hc hm⟩
    obtain ⟨more, hmore⟩ := hdrawn.grown.lits
    rw [← hmore]
    show m ∈ (s.trail.lits.toList ++ more).drop s.trail.head
    rw [List.drop_append]
    exact List.mem_append_left _ hm
  rw [List.nil_append] at hinner
  have hstays : Saturated (s₁.restoreScope none) (s.trail.lits.toList.drop s.trail.head) :=
    ⟨hinner.implied, hinner.long⟩
  refine propagate_saturated hleft hafter (fun m hm => ?_) hstays fun m hm => ⟨?_, ?_⟩
  · exact hdrawn.grown.lits.subset (List.mem_of_mem_drop hm)
  · rwa [hhead rfl]
  · exact admitsFrom_of_none rfl m

/-- So a propagation without the scope stays within what is true then: what is
not done waited when the scope was entered, or was added since. -/
theorem closedPast_after (hs : Sound F s) (hflags : s.ScopeExact)
    (hc : ∀ v ∈ c.vars, v.index < s.varCount) (hsurrounds : s.Surrounds c)
    (hinside : (s.entered c).propagate = (none, s₁))
    (hafter : (s₁.restoreScope none).propagate = (none, s₂)) :
    s.store.ClosedPast (s.trail.lits.toList.take s.trail.head) (· ∈ s₂.trail.lits.toList) := by
  have hs' : Sound F (s.entered c) := hs
  obtain ⟨hleft, hresumes, -⟩ := entered_resumes hs hinside
  obtain ⟨hdrawn, -⟩ := propagate_spec hleft hafter
  have hkept : s.trail.lits.toList <+: s₂.trail.lits.toList :=
    (propagate_spec hs' hinside).1.grown.lits.trans hdrawn.grown.lits
  have hpinned := hresumes.pinned.trans (propagate_past hleft hresumes.passed hafter).1.pinned
  refine ((saturated_after hs hflags hc hsurrounds hinside hafter).closedPast hdrawn.sound
    fun l hl hno => ?_).pinned hpinned.symm
  obtain ⟨more, hmore⟩ := hkept
  rw [← hmore] at hl
  rcases List.mem_append.mp hl with hl | hl
  · rw [← List.take_append_drop s.trail.head s.trail.lits.toList] at hl
    exact List.mem_append_left _ ((List.mem_append.mp hl).resolve_left hno)
  · refine List.mem_append_right _ ?_
    rwa [← hmore, List.drop_left' (by simp)]

/-- **Leaving a scope.** Propagation in the scope and after it is left meets no
conflict where there would be none without the scope, and makes nothing true
that would not be. If the scope surrounds what waited when it was entered, it
makes the same literals true, and has a conflict if there would be one. -/
theorem Driven.scopeExit (h : Driven s) (hc : ∀ v ∈ c.vars, v.index < s.varCount)
    (hp : s.propagate = (r, s₀)) :
    ∃ s', s.enterScope c = .ok (none, s')
      ∧ ∀ r₁ s₁ r₂ s₂, s'.propagate = (r₁, s₁) → (s₁.restoreScope none).propagate = (r₂, s₂) →
        (r = none → r₁ = none ∧ r₂ = none
            ∧ ∀ m ∈ s₂.trail.lits.toList, m ∈ s₀.trail.lits.toList)
          ∧ (s.Surrounds c → r₁ = none → r₂ = none →
            r = none ∧ ∀ m, m ∈ s₂.trail.lits.toList ↔ m ∈ s₀.trail.lits.toList) := by
  obtain ⟨F, hreach⟩ := h.reachable
  have hs := hreach.sound
  have hnone := h.plain.scope
  have henter : s.enterScope c = .ok (none, s.entered c) := hnone ▸ enterScope_ok hc
  refine ⟨s.entered c, henter, fun r₁ s₁ r₂ s₂ hinside hafter => ?_⟩
  have hs' : Sound F (s.entered c) := hs
  obtain ⟨hleft, hresumes, -⟩ := entered_resumes hs hinside
  have hgrown₁ := (propagate_spec hs' hinside).1.grown
  obtain ⟨hdrawn₂, -⟩ := propagate_spec hleft hafter
  have hfirst : r = none → r₁ = none ∧ r₂ = none
      ∧ ∀ m ∈ s₂.trail.lits.toList, m ∈ s₀.trail.lits.toList := by
    rintro rfl
    have hgrown₀ := (propagate_spec hs hp).1.grown
    have hstart : Resumes s (s.entered c) := ⟨fun _ hm => hm, .refl _ _⟩
    obtain ⟨hr₁, hin₁⟩ := hstart.propagate hs hnone hs' hp
      (fun m hm => hgrown₀.lits.subset hm) hinside
    exact ⟨hr₁, hresumes.propagate hs hnone hleft hp hin₁ hafter⟩
  refine ⟨hfirst, fun hsurrounds hr₁ hr₂ => ?_⟩
  subst hr₁ hr₂
  obtain ⟨rfl, hin⟩ := propagate_within hs (fun _ hm => hm)
    (closedPast_after hs hreach.attained.scopeExact hc hsurrounds hinside hafter)
    (fun _ hm => hdrawn₂.sound.trail.not_mem_neg hm)
    (fun m hm => hdrawn₂.grown.lits.subset (hgrown₁.lits.subset hm)) hp
  exact ⟨rfl, fun m => ⟨(hfirst rfl).2.2 m, hin m⟩⟩

/-- A fact and two implications in a row. -/
def relay : Formula :=
  { clauses := [[Var.pos ⟨0⟩], [Var.neg ⟨0⟩, Var.pos ⟨1⟩], [Var.neg ⟨1⟩, Var.pos ⟨2⟩]] }

/-- The fact waits, and has its consequence in the scope; what this implies is
found after the scope was left. -/
theorem Driven.scopeExit_relay : ∃ (s s' s₀ s₁ s₂ : Solver) (c : Component),
    Driven s ∧ s.Surrounds c ∧ s.propagate = (none, s₀) ∧ s.enterScope c = .ok (none, s')
      ∧ s'.propagate = (none, s₁) ∧ Var.pos ⟨2⟩ ∉ s₁.trail.lits.toList
      ∧ (s₁.restoreScope none).propagate = (none, s₂) ∧ Var.pos ⟨2⟩ ∈ s₂.trail.lits.toList := by
  have hrun : let s := Solver.ofFormula relay {}
      let s₁ := (s.entered ⟨[⟨1⟩], []⟩).propagate.2
      ((1 < s.varCount ∧ s.propagate.1 = none) ∧ Var.pos ⟨2⟩ ∈ s.propagate.2.trail.lits.toList)
        ∧ (s.entered ⟨[⟨1⟩], []⟩).propagate.1 = none ∧ Var.pos ⟨2⟩ ∉ s₁.trail.lits.toList
        ∧ s.trail.isAssigned ⟨0⟩ = true
        ∧ s.trail.lits.toList.drop s.trail.head = [Var.pos ⟨0⟩] := by
    rw [ofFormula_of_ascending (f := relay) (by decide) rfl]
    decide +kernel
  obtain ⟨⟨⟨hrange, hnone⟩, hin⟩, hinside, hno, hassigned, hwaiting⟩ := hrun
  have hsurrounds : (Solver.ofFormula relay {}).Surrounds ⟨[⟨1⟩], []⟩ := by
    intro l hl d hd hneg m hm hopen
    rw [hwaiting] at hl
    rw [List.mem_singleton.mp hl] at hneg
    obtain ⟨e, he, -, hmem⟩ := (grounded_ofFormula relay {}).stored d hd
    have hvars : ∀ e ∈ relay.clauses, Var.neg ⟨0⟩ ∈ e → ∀ m ∈ e, m.var = ⟨0⟩ ∨ m.var = ⟨1⟩ := by
      decide
    rcases hvars e he ((hmem _).mp hneg) m ((hmem m).mp hm) with hv | hv
    · rw [hv, hassigned] at hopen
      cases hopen
    · exact hv ▸ List.mem_cons_self
  have hdriven : Driven (Solver.ofFormula relay {}) := .ofFormula relay {}
  obtain ⟨s', henter, hall⟩ := hdriven.scopeExit (c := ⟨[⟨1⟩], []⟩) (by simpa using hrange)
    (Prod.eta _).symm
  obtain ⟨-, -, rfl⟩ := enterScope_spec henter
  obtain ⟨hfirst, hsecond⟩ := hall _ _ _ _ (Prod.eta _).symm (Prod.eta _).symm
  obtain ⟨-, hafter, -⟩ := hfirst hnone
  exact ⟨_, _, _, _, _, _, hdriven, hsurrounds, Prod.ext hnone rfl, henter,
    Prod.ext hinside rfl, hno, Prod.ext hafter rfl,
    ((hsecond hsurrounds hinside hafter).2 _).mpr hin⟩

/-- **A consequence is skipped for good** if the literal that implies it waits
when a scope is entered that does not have it. -/
theorem skipped_consequence : ∃ (s s' s₀ s₁ s₂ : Solver) (c : Component),
    Driven s ∧ s.propagate = (none, s₀) ∧ s.enterScope c = .ok (none, s')
      ∧ s'.propagate = (none, s₁) ∧ (s₁.restoreScope none).propagate = (none, s₂)
      ∧ Var.pos ⟨1⟩ ∈ s₀.trail.lits.toList ∧ Var.pos ⟨1⟩ ∉ s₂.trail.lits.toList := by
  have hrun : (do
      let s := Solver.ofFormula waiting {}
      let inside ← s.enterScope ⟨[⟨2⟩, ⟨3⟩], []⟩
      let after := (inside.2.propagate.2.restoreScope none).propagate
      return s.propagate.1.isNone && inside.2.propagate.1.isNone && after.1.isNone
        && s.propagate.2.trail.lits.contains (Var.pos ⟨1⟩)
        && !after.2.trail.lits.contains (Var.pos ⟨1⟩) :
      Except Fault Bool) = .ok true := by
    rw [ofFormula_of_ascending (f := waiting) (by decide) rfl]
    decide +kernel
  obtain ⟨⟨previous, s'⟩, henter, hrun⟩ := Except.bind_eq_ok.mp hrun
  have hend := Except.ok.inj hrun
  simp only [Bool.and_eq_true, Bool.not_eq_true', Option.isNone_iff_eq_none] at hend
  obtain ⟨⟨⟨⟨hnone, hinside⟩, hafter⟩, hin⟩, hno⟩ := hend
  obtain ⟨-, rfl, -⟩ := enterScope_spec henter
  rw [(Plain.ofFormula waiting {}).scope] at henter
  exact ⟨_, s', _, _, _, _, .ofFormula waiting {}, Prod.ext hnone rfl, henter,
    Prod.ext hinside rfl, Prod.ext hafter rfl, by simpa using hin, by simpa using hno⟩

end Solver

end Cleave
