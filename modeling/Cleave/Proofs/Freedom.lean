import Cleave.Proofs.Splitting
import Cleave.Proofs.UnitClosure

/-!
# Free variables

A variable is reported free if it makes a piece of its own without a clause.
For that every given long clause that mentions it has to be satisfied, but the
other literals of its pairs need only be assigned (`Solver.Detached`): a pair
whose other literal is false does not connect anything either, though it
asserts the literal that is left (`Solver.PairAsserts`).

So a free variable is one of two kinds. Where no pair asserts a literal of it,
all its clauses are satisfied, and it can be flipped in every valuation
(`Solver.Unconstrained`). Otherwise it has the same value in all of them.
Propagation leaves the first kind only, and a substitution that replaces a
variable ends with one. But nothing is propagated while a formula is read.
-/

namespace Cleave

namespace Solver

variable {F : List Clause} {s s' : Solver} {c : Component} {v : Var} {l : Lit} {ν : Valuation}

/-! ## Which variables are free -/

/-- **A detached variable**: its long clauses are satisfied, and the other
literals of its pairs assigned. -/
structure Detached (s : Solver) (v : Var) : Prop where
  long : ∀ id, s.store.Gives id → s.Mentions id v →
    ∃ l ∈ s.store.lits id, l ∈ s.trail.lits.toList
  pair : ∀ l, l.var = v → ∀ m ∈ s.store.partners l, s.trail.isAssigned m.var = true

/-- Nothing is linked to a detached variable. -/
theorem Detached.eq_of_connected (h : s.Detached v) (hs : Sound F s)
    (hids : ∀ id ∈ c.clauses, s.store.Gives id) {w : Var} (hw : s.Connected c v w) : w = v := by
  induction hw with
  | refl => rfl
  | tail _ hlink ih =>
    subst ih
    cases hlink with
    | long _ _ hid hmv _ =>
      have hsat := (hs.isSatisfied_iff _).mpr (h.long _ (hids _ hid.1) hmv)
      rw [hid.2] at hsat
      cases hsat
    | binary _ hw hl hm hpair =>
      have hassigned := h.pair _ hl _ hpair
      rw [hm, hw.2] at hassigned
      cases hassigned

/-- **The free variables of a closed component** are the open ones that are
detached. -/
theorem Partitions.mem_free_iff {d : Decomposition} (hd : s.Partitions c d) (hs : Sound F s)
    (hclosed : s.Closed c) (hids : ∀ id ∈ c.clauses, s.store.Gives id) :
    v ∈ d.free ↔ s.OpenIn c v ∧ s.Detached v := by
  rw [hd.free]
  refine and_congr_right fun hv => ⟨fun ⟨halone, hnone⟩ => ⟨fun id hid hm => ?_, ?_⟩,
    fun h => ⟨fun w hw => h.eq_of_connected hs hids hw, fun id hactive hm => ?_⟩⟩
  · -- a long clause that is not satisfied is listed by the component
    by_contra hno
    have hopen : ∀ l ∈ s.store.lits id, l ∉ s.trail.lits.toList := fun l hl ht => hno ⟨l, hl, ht⟩
    obtain ⟨l, hl, rfl⟩ := hm
    have hlisted := hclosed.clauses id hid.1 hid.2
      ⟨Or.inl ⟨id, hid.1, hid.2, rfl⟩, hopen, l, hl, hv⟩
    have hunsat : s.isSatisfied id = false :=
      Bool.eq_false_iff.mpr fun hsat => hno ((hs.isSatisfied_iff id).mp hsat)
    exact hnone id ⟨hlisted, hunsat⟩ ⟨l, hl, rfl⟩
  · -- a pair with an open literal would connect it
    rintro l rfl m hm
    by_contra hopen
    have hopen : s.trail.isAssigned m.var = false := by simpa using hopen
    have hactive : s.Active c [l, m] := by
      refine ⟨Or.inr ⟨l, m, hm, rfl⟩, fun x hx => ?_, l, List.mem_cons_self, hv⟩
      rcases List.mem_pair.mp hx with rfl | rfl
      · exact hs.trail.not_mem_of_not_assigned hv.2
      · exact hs.trail.not_mem_of_not_assigned hopen
    have hmv : s.OpenIn c m.var := ⟨hclosed.vars _ hactive m (by simp) hopen, hopen⟩
    exact hs.store.distinct l.neg m (ClauseStore.mem_implied_of_partner hm)
      (halone m.var (.single (.binary hv hmv rfl rfl hm)))
  · have hsat := (hs.isSatisfied_iff id).mpr (h.long id (hids id hactive.1) hm)
    rw [hactive.2] at hsat
    cases hsat

/-! ## What being free means -/

/-- **An unconstrained variable**: all given clauses that mention it are
satisfied. -/
def Unconstrained (s : Solver) (v : Var) : Prop :=
  ∀ clause, s.store.Given clause → (∃ l ∈ clause, l.var = v) →
    ∃ l ∈ clause, l ∈ s.trail.lits.toList

/-- **A pair asserts a literal** if its other literal is false. -/
def PairAsserts (s : Solver) (l : Lit) : Prop :=
  ∃ m ∈ s.store.partners l, m.neg ∈ s.trail.lits.toList

/-- **A valuation realizes a state** if it satisfies the given clauses and
extends the trail. -/
def Realizes (s : Solver) (ν : Valuation) : Prop :=
  GivenHold s ν ∧ ∀ l ∈ s.trail.lits.toList, l.holds ν = true

/-- **A detached variable is unconstrained unless a pair asserts it.** -/
theorem Detached.unconstrained_iff (h : s.Detached v) (hs : Sound F s)
    (hopen : s.trail.isAssigned v = false) :
    s.Unconstrained v ↔ ∀ l, l.var = v → ¬ s.PairAsserts l := by
  constructor
  · rintro hall l rfl ⟨m, hm, hneg⟩
    obtain ⟨x, hx, htrue⟩ := hall [l, m] (Or.inr ⟨l, m, hm, rfl⟩) ⟨l, List.mem_cons_self, rfl⟩
    rcases List.mem_pair.mp hx with rfl | rfl
    · exact hs.trail.not_mem_of_not_assigned hopen htrue
    · exact hs.trail.not_mem_neg htrue hneg
  · intro hnone
    -- the other literal is assigned, and not false
    have hpair : ∀ l, l.var = v → ∀ m ∈ s.store.partners l, m ∈ s.trail.lits.toList := by
      intro l hl m hm
      obtain ⟨x, hx, hxm⟩ := hs.trail.isAssigned_iff.mp (h.pair l hl m hm)
      rcases Lit.eq_or_eq_neg hxm with rfl | rfl
      · exact hx
      · exact absurd ⟨m, hm, hx⟩ (hnone l hl)
    rintro clause (⟨id, hid, hgiven, rfl⟩ | ⟨a, b, hb, rfl⟩) ⟨l, hl, hv⟩
    · exact h.long id ⟨hid, hgiven⟩ ⟨l, hl, hv⟩
    · rcases List.mem_pair.mp hl with rfl | rfl
      · exact ⟨b, by simp, hpair _ hv b hb⟩
      · exact ⟨a, by simp, hpair _ hv a (hs.store.symmetric a _ hb)⟩

/-- **An unconstrained variable can be flipped**: no active clause looks at it. -/
theorem Unconstrained.flip (h : s.Unconstrained v) (hs : Sound F s)
    (hopen : s.trail.isAssigned v = false) (hν : s.Realizes ν) :
    s.Realizes (Function.update ν v (!ν v)) := by
  have hflip : s.patched ⟨[v], []⟩ (fun w => !ν w) ν = Function.update ν v (!ν v) := by
    funext w
    by_cases hw : w = v
    · subst hw
      simp [patched, hopen]
    · simp [patched, hw]
  rw [← hflip]
  refine hs.patched_holds hν.1 hν.2 fun d hd => ?_
  obtain ⟨hgiven, hunsat, l, hl, hv, -⟩ := hd
  obtain ⟨m, hm, htrue⟩ := h d hgiven ⟨l, hl, List.mem_singleton.mp hv⟩
  exact absurd htrue (hunsat m hm)

/-- **An asserted literal is true** in all valuations. -/
theorem PairAsserts.holds (h : s.PairAsserts l) (hν : s.Realizes ν) : l.holds ν = true := by
  obtain ⟨m, hm, hneg⟩ := h
  refine (Clause.holds_pair.mp (hν.1.given [l, m] (Or.inr ⟨l, m, hm, rfl⟩))).resolve_right ?_
  rw [Lit.not_holds_of_neg (hν.2 _ hneg)]
  exact Bool.false_ne_true

/-- Propagation makes true what pairs assert. -/
theorem Saturated.mem_of_pairAsserts (h : Saturated s s.trail.lits.toList) (hs : Sound F s)
    (hl : s.PairAsserts l) : l ∈ s.trail.lits.toList := by
  obtain ⟨m, hm, hneg⟩ := hl
  exact h.implied _ hneg l (ClauseStore.mem_implied_of_partner (hs.store.symmetric l m hm))

/-! ## The solver of a formula -/

/-- A substitution that replaces a variable propagates everything again. -/
theorem saturated_of_replaced {sub : Substitution} (hs : Sound F s) (hscope : s.scope.current = none)
    (h : s.substitute = .ok (sub, s')) (hsub : sub.replaced ≠ []) (hconf : s'.conflicted = false) :
    Saturated s' s'.trail.lits.toList := by
  obtain ⟨h0, hsubst⟩ := substitutes_of_ok hs h
  cases hsubst with
  | conflicted => exact absurd rfl hsub
  | opposed => exact absurd rfl hsub
  | unchanged => exact absurd rfl hsub
  | refuted => cases hconf
  | @rebuilt e _ _ hrep hp =>
    obtain ⟨hs₁, -⟩ := restarted_spec hs h0 hrep.classes sub
    have hscope₁ : (s.restarted e sub).scope.current = none :=
      (congrArg ScopeTable.current (insertReplaced_scope _ _ e).1).trans hscope
    have hs₂ : Sound F { s.restarted e sub with trail := (s.restarted e sub).trail.rewind 0 } :=
      hs₁.rewind 0
    exact propagate_saturated_all hs₂ hscope₁ (Nat.min_zero _) hp

/-- **What the free variables of a formula are**, right after it was read or
its equivalent literals were replaced: the open variables that are detached.
Those of them that no pair asserts occur in satisfied clauses only and can be
flipped in every valuation, and the others have one value in all of them. There
are no others once a substitution has replaced a variable. -/
theorem free_unless_asserted {f : Formula} {options : Options}
    (h : s = ofFormula f options ∨ ∃ sub, (ofFormula f options).substitute = .ok (sub, s)) :
    ∃ d s', s.decompose s.initComponent = .ok (d, s')
      ∧ (∀ v, v ∈ d.free ↔ s.OpenIn s.initComponent v ∧ s.Detached v)
      ∧ (∀ v ∈ d.free, (∀ l, l.var = v → ¬ s.PairAsserts l) →
          s.Unconstrained v ∧ ∀ ν, s.Realizes ν → s.Realizes (Function.update ν v (!ν v)))
      ∧ (∀ v ∈ d.free, ∀ l, l.var = v → s.PairAsserts l →
          ¬ s.Unconstrained v ∧ ∀ ν, s.Realizes ν → l.holds ν = true)
      ∧ ∀ sub, (ofFormula f options).substitute = .ok (sub, s) → sub.replaced ≠ [] →
          s.conflicted = false → ∀ v ∈ d.free, ∀ l, l.var = v → ¬ s.PairAsserts l := by
  have hread := sound_ofFormula f options
  have hs : Sound f.clauses s := by
    rcases h with rfl | ⟨sub, hsub⟩
    · exact hread
    · exact (substitute_spec hread hsub).1
  have hvars : ∀ v ∈ s.initComponent.vars, v.index < s.varCount := fun _ hv =>
    index_lt_of_mem_initComponent hv
  have hids : ∀ id ∈ s.initComponent.clauses, s.store.Gives id := fun id hid =>
    mem_clauses_initComponent hid
  obtain ⟨d, hsplit, hpartitions⟩ := partitions_split hs hvars hids
  obtain ⟨s', hs'⟩ := decompose_ok hvars hids hsplit
  have hfree := fun v => hpartitions.mem_free_iff (v := v) hs
    hs.closed_initComponent hids
  refine ⟨_, s', hs', hfree, fun v hv hnone => ?_, ?_, ?_⟩
  · obtain ⟨⟨-, hopen⟩, hdetached⟩ := (hfree v).mp hv
    have hunconstrained := (hdetached.unconstrained_iff hs hopen).mpr hnone
    exact ⟨hunconstrained, fun ν hν => hunconstrained.flip hs hopen hν⟩
  · rintro v hv l rfl hl
    obtain ⟨⟨-, hopen⟩, hdetached⟩ := (hfree l.var).mp hv
    exact ⟨fun hun => (hdetached.unconstrained_iff hs hopen).mp hun l rfl hl,
      fun ν hν => hl.holds hν⟩
  · rintro sub hsub hreplaced hconf v hv l rfl hl
    have hsaturated := saturated_of_replaced hread (grounded_ofFormula f options).scope hsub
      hreplaced hconf
    exact hs.trail.not_mem_of_not_assigned ((hfree l.var).mp hv).1.2
      (hsaturated.mem_of_pairAsserts hs hl)

/-- A pair, and a fact that decides its first variable. -/
def pairAndFact (value : Bool) : Formula where
  varCount := 2
  clauses := [[Var.pos ⟨0⟩, Var.pos ⟨1⟩], [Var.lit ⟨0⟩ value]]

/-- The solver for `pairAndFact`. -/
def factSolver (value : Bool) : Solver := ofFormula (pairAndFact value) {}

theorem factSolver_eq (value : Bool) : factSolver value
    = (((((new {}).growTo 2).growTo 2).insertClause [Var.pos ⟨0⟩, Var.pos ⟨1⟩] false).growTo
        1).insertClause [Var.lit ⟨0⟩ value] false := by
  cases value <;> exact ofFormula_of_ascending (by decide) rfl {}

/-- Either way the second variable is free. -/
theorem free_factSolver (value : Bool) : ((factSolver value).decompose
    (factSolver value).initComponent).toOption.any (fun r => r.1.free = [⟨1⟩]) = true := by
  rw [factSolver_eq]
  cases value <;> decide +kernel

theorem factSolver_trail (value : Bool) :
    (factSolver value).trail.lits.toList = [Var.lit ⟨0⟩ value]
      ∧ (factSolver value).store.partners (Var.pos ⟨1⟩) = [Var.pos ⟨0⟩]
      ∧ (factSolver value).store.partners (Var.neg ⟨1⟩) = [] := by
  rw [factSolver_eq]
  cases value <;> decide +kernel

/-- With the first variable true the pair is satisfied, and the second one can
be flipped. -/
theorem free_unless_asserted_true : ∃ d s', factSolver true = ofFormula (pairAndFact true) {}
    ∧ (factSolver true).decompose (factSolver true).initComponent = .ok (d, s')
    ∧ ⟨1⟩ ∈ d.free ∧ (∀ l : Lit, l.var = ⟨1⟩ → ¬ (factSolver true).PairAsserts l)
    ∧ (factSolver true).Unconstrained ⟨1⟩ := by
  obtain ⟨d, s', hcall, -, hflips, -⟩ := free_unless_asserted (s := factSolver true) (Or.inl rfl)
  obtain ⟨htrail, hpos, hneg⟩ := factSolver_trail true
  have hrun := free_factSolver true
  rw [hcall] at hrun
  have hfree : d.free = [⟨1⟩] := of_decide_eq_true hrun
  have hmem : ⟨1⟩ ∈ d.free := hfree ▸ List.mem_cons_self
  have hnone : ∀ l : Lit, l.var = ⟨1⟩ → ¬ (factSolver true).PairAsserts l := by
    rintro ⟨v, positive⟩ rfl ⟨m, hm, hfalse⟩
    cases positive with
    | false =>
      rw [show Lit.mk ⟨1⟩ false = Var.neg ⟨1⟩ from rfl, hneg] at hm
      cases hm
    | true =>
      rw [show Lit.mk ⟨1⟩ true = Var.pos ⟨1⟩ from rfl, hpos] at hm
      obtain rfl := List.mem_singleton.mp hm
      rw [htrail] at hfalse
      exact absurd hfalse (by decide)
  exact ⟨d, s', rfl, hcall, hmem, hnone, (hflips _ hmem hnone).1⟩

/-- **A variable is reported free though a pair asserts it**: with the first
variable false, nothing but true is left for the second one. -/
theorem asserted_variable_free : ∃ d s',
    (factSolver false).decompose (factSolver false).initComponent = .ok (d, s')
      ∧ ⟨1⟩ ∈ d.free ∧ ¬ (factSolver false).Unconstrained ⟨1⟩
      ∧ ∃ ν, (factSolver false).Realizes ν
        ∧ ¬ (factSolver false).Realizes (Function.update ν ⟨1⟩ (!ν ⟨1⟩)) := by
  obtain ⟨⟨d, s'⟩, hcall, hfree⟩ := (Option.any_eq_true _ _).mp (free_factSolver false)
  have hfree : d.free = [⟨1⟩] := of_decide_eq_true hfree
  obtain ⟨htrail, hpos, -⟩ := factSolver_trail false
  have hpair : Var.pos ⟨0⟩ ∈ (factSolver false).store.partners (Var.pos ⟨1⟩) :=
    hpos ▸ List.mem_cons_self
  have hasserts : (factSolver false).PairAsserts (Var.pos ⟨1⟩) :=
    ⟨_, hpair, htrail ▸ List.mem_cons_self⟩
  refine ⟨d, s', Except.toOption_eq_some.mp hcall, hfree ▸ List.mem_cons_self, fun hall => ?_,
    fun v => v = ⟨1⟩, ?_, fun hflipped => ?_⟩
  · obtain ⟨l, hl, htrue⟩ := hall [Var.pos ⟨1⟩, Var.pos ⟨0⟩] (Or.inr ⟨_, _, hpair, rfl⟩)
      ⟨Var.pos ⟨1⟩, List.mem_cons_self, rfl⟩
    rw [htrail] at htrue
    obtain rfl := List.mem_singleton.mp htrue
    exact absurd hl (by decide)
  · have hcompletes : Completes (pairAndFact false).clauses (factSolver false)
        fun v => v = ⟨1⟩ := by
      refine ⟨by decide, fun l hl => ?_⟩
      rw [htrail] at hl
      exact List.mem_singleton.mp hl ▸ rfl
    exact ⟨hcompletes.givenHold (sound_ofFormula _ _), hcompletes.2⟩
  · have hholds := hasserts.holds hflipped
    rw [Lit.holds_iff] at hholds
    exact absurd hholds (by decide)

end Solver

end Cleave
