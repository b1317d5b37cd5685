import Cleave.Backbone.Implied
import Cleave.Proofs.Probing
import Cleave.Proofs.RegionModels

/-!
# The native backbone is exact

`Solver.impliedLiterals` with the native engine keeps the invariant in every
state. What it reports is exact in states that an orderly history leads to:
every reported conflict was taken back, so that the clauses are settled below
the current level (`Solver.Orderly`).

There is a valuation behind each model of the ledger: the model decides the
open variables of the component, and a valuation of `F` that extends the trail
decides all others (`Solver.Fits.valuation`). A literal on which all models
agree is probed until it is forced or a model disagrees, so a literal that
all valuations share is on the trail in the end.
-/

namespace Cleave

/-- A ledger is unanimous about a value if it has models and all give it. -/
theorem ModelLedger.unanimous_eq_some_iff {ledger : ModelLedger} {pool : ModelPool} {v : Var}
    {value : Bool} : ledger.unanimous pool v = some value
      ↔ ledger.models ≠ [] ∧ ∀ m ∈ ledger.models, pool.value m v = some value := by
  unfold unanimous
  cases ledger.models with
  | nil => simp
  | cons first rest => simp [Option.filter_eq_some_iff]

namespace Solver

variable {F : List Clause} {b s s' : Solver} {n₀ : Nat} {c : Component}

/-! ## The call -/

/-- A call starts at the level of the state it is made in. -/
theorem AtLevel.start (hs : Sound F s) (n₀ : Nat) (scope : ScopeTable) (stats : Statistics) :
    AtLevel F s n₀ { s with scope := scope, stats := stats } :=
  ⟨hs, .refl hs, rfl, fun _ hn => ⟨n₀, Nat.le_refl _, hn.head, hn.size, hn.settled⟩⟩

/-- The head may go back, and the scope change. -/
theorem Ready.rewind (h : Ready F b n₀ s) (scope : ScopeTable) (pos : Nat) :
    Ready F b n₀ { s with scope := scope, trail := s.trail.rewind pos } :=
  ⟨h.sound.rewind pos, h.within.withHead _, h.level, h.settled⟩

theorem Disproved.rewind {clause : Clause} (h : Disproved F b n₀ clause s) (scope : ScopeTable)
    (pos : Nat) : Disproved F b n₀ clause { s with scope := scope, trail := s.trail.rewind pos } :=
  ⟨h.sound.rewind pos, h.within.withHead _, h.level, h.clause, h.settled⟩

/-- **What a call gives**: a clause that is false, or literals that were
assigned on the way. -/
structure Implied (F : List Clause) (s : Solver) (n₀ : Nat) (c : Component) (ledger : ModelLedger)
    (projected : Bool) (result : Except ToolError ImpliedLiterals) (ledger' : ModelLedger)
    (s' : Solver) : Prop where
  answered : ∃ implied, result = .ok implied
  disproved : ∀ clause, result = .ok (.unsatisfiable clause) → Disproved F s n₀ clause s'
  forced : ∀ lits complete, result = .ok (.forced lits complete) →
    Ready F s n₀ s' ∧ ledger'.isEmpty = false
      ∧ lits = (s'.trail.litsFrom s.trail.size).filter (fun l => c.contains l.var)
      ∧ (complete = true →
        s'.candidates (c.vars.filter fun v => !projected || s.isProjected v) ledger' = [])
  enters : Enters s n₀ c ledger s.pool ledger' s'.pool

theorem backbone_native {P : SatProcedure} {fuel : Nat} {projected : Bool}
    {ledger ledger' : ModelLedger} {result : Except ToolError ImpliedLiterals}
    (h : s.backbone P fuel c ledger projected = .ok (result, ledger', s'))
    (hengine : s.options.engine = .native) :
    ∃ implied, result = .ok implied
      ∧ s.backboneByProbing fuel c ledger projected = .ok (implied, ledger', s') := by
  unfold backbone at h
  rw [hengine] at h
  obtain ⟨⟨implied, ledger₁, s₁⟩, hprobe, h⟩ := Except.bind_eq_ok.mp h
  obtain ⟨rfl, heq⟩ := Prod.mk.inj (Except.ok.inj h)
  obtain ⟨rfl, rfl⟩ := Prod.mk.inj heq
  exact ⟨implied, rfl, hprobe⟩

/-- What a call reports: the literals assigned behind `start`, if any. -/
def reported (s : Solver) (c : Component) (start : Nat) : ImpliedLiterals → ImpliedLiterals
  | .forced _ complete =>
    .forced ((s.trail.litsFrom start).filter fun l => c.contains l.var) complete
  | .unsatisfiable clause => .unsatisfiable clause

/-- **The parts of a call**: a refuted solver answers at once, any other one
runs its engine inside the scope of the component. -/
theorem impliedLiterals_eq_ok {P : SatProcedure} {fuel : Nat} {projected : Bool}
    {ledger ledger' : ModelLedger} {result : Except ToolError ImpliedLiterals}
    (h : s.impliedLiterals P fuel c ledger projected = .ok (result, ledger', s')) :
    (s.conflicted = true ∧ result = .ok (.unsatisfiable []) ∧ ledger' = ledger
        ∧ ∃ stats, s' = { s with stats := stats })
      ∨ (s.conflicted = false ∧ (∀ v ∈ c.vars, v.index < s.varCount)
        ∧ ∃ stats r s₂,
          ({ s with scope := s.scopeOf c, stats := stats } : Solver).backbone P fuel c ledger
              projected = .ok (r, ledger', s₂)
            ∧ s' = (s₂.backtrackTo s.level).restoreScope s.scope.current
            ∧ result = r.map (s'.reported c s.trail.size)) := by
  unfold impliedLiterals at h
  simp only at h
  split at h
  · rename_i hconf
    obtain ⟨rfl, heq⟩ := Prod.mk.inj (Except.ok.inj h)
    obtain ⟨rfl, rfl⟩ := Prod.mk.inj heq
    exact Or.inl ⟨hconf, rfl, rfl, _, rfl⟩
  · rename_i hconf
    obtain ⟨⟨previous, s₁⟩, henter, h⟩ := Except.bind_eq_ok.mp h
    obtain ⟨hvars, rfl, rfl⟩ := enterScope_spec henter
    obtain ⟨⟨r, ledger₁, s₂⟩, hback, h⟩ := Except.bind_eq_ok.mp h
    obtain ⟨rfl, heq⟩ := Prod.mk.inj (Except.ok.inj h)
    obtain ⟨rfl, rfl⟩ := Prod.mk.inj heq
    refine Or.inr ⟨by simpa [countBackbone] using hconf, hvars, _, r, s₂, hback, rfl, ?_⟩
    congr 1
    funext implied
    cases implied <;> rfl

/-- A refuted solver stays refuted. -/
theorem impliedLiterals_of_conflicted {P : SatProcedure} {fuel : Nat} {projected : Bool}
    {ledger ledger' : ModelLedger} {result : Except ToolError ImpliedLiterals}
    (hconf : s.conflicted = true)
    (h : s.impliedLiterals P fuel c ledger projected = .ok (result, ledger', s')) :
    result = .ok (.unsatisfiable []) ∧ s'.conflicted = true := by
  rcases impliedLiterals_eq_ok h with ⟨-, rfl, -, stats, rfl⟩ | ⟨hf, -⟩
  · exact ⟨rfl, hconf⟩
  · rw [hconf] at hf
    cases hf

/-- A refuted solver, called again. -/
theorem disproved_of_conflicted (hs : Sound F s) (hconf : s.conflicted = true) (n₀ : Nat)
    (stats : Statistics) : Disproved F s n₀ [] { s with stats := stats } :=
  ⟨hs, .refl hs, rfl, Or.inl ⟨rfl, hconf⟩, fun _ hn =>
    ⟨n₀, Nat.le_refl _, .of_settled _ hn.size hn.settled⟩⟩

/-- **Implied literals with the native engine**, in any state. -/
theorem impliedLiterals_spec {P : SatProcedure} {fuel : Nat} {projected : Bool}
    {ledger ledger' : ModelLedger} {result : Except ToolError ImpliedLiterals} (hs : Sound F s)
    (hengine : s.options.engine = .native)
    (h : s.impliedLiterals P fuel c ledger projected = .ok (result, ledger', s')) (n₀ : Nat) :
    Implied F s n₀ c ledger projected result ledger' s' := by
  rcases impliedLiterals_eq_ok h with ⟨hconf, rfl, rfl, stats, rfl⟩
    | ⟨-, hvars, stats, r, s₂, hback, rfl, rfl⟩
  · refine ⟨⟨_, rfl⟩, fun clause hc => ?_, fun _ _ hc => (nomatch hc), .of_extends (.refl _) _⟩
    obtain rfl := ImpliedLiterals.unsatisfiable.inj (Except.ok.inj hc)
    exact disproved_of_conflicted hs hconf n₀ stats
  · obtain ⟨implied, rfl, hprobe⟩ := backbone_native hback hengine
    obtain ⟨hexp, hne⟩ := backboneByProbing_spec hs hvars (.start hs n₀ _ stats) hprobe
    -- every outcome is at the level of the call
    have hlevel : s₂.level = s.level := by
      cases implied with
      | unsatisfiable clause => exact (hexp.disproved clause rfl).level
      | forced lits complete => exact (hexp.forced lits complete rfl).1.level
    rw [backtrackTo_of_le (Nat.le_of_eq hlevel)]
    cases implied with
    | unsatisfiable clause =>
      refine ⟨⟨_, rfl⟩, fun clause' hc => ?_, fun _ _ hc => (nomatch hc), hexp.enters⟩
      obtain rfl := ImpliedLiterals.unsatisfiable.inj (Except.ok.inj hc)
      exact (hexp.disproved clause rfl).rewind _ _
    | forced lits complete =>
      refine ⟨⟨_, rfl⟩, fun _ hc => (nomatch hc), fun lits' complete' hc => ?_, hexp.enters⟩
      obtain ⟨rfl, rfl⟩ := ImpliedLiterals.forced.inj (Except.ok.inj hc)
      obtain ⟨hready, hcomplete⟩ := hexp.forced lits complete rfl
      exact ⟨hready.rewind _ _, hne lits complete rfl, rfl, hcomplete⟩

/-! ## Valuations behind the models -/

/-- The whole formula is a closed component. -/
theorem Sound.closed_initComponent (hs : Sound F s) : s.Closed s.initComponent where
  vars := fun _ hd _ hl hopen => hs.mem_initComponent hd.1 hl hopen
  clauses := by
    intro id hid hlearnt hd
    show id ∈ squeeze (List.mergeSort _ _)
    rw [mem_squeeze, List.mem_mergeSort, List.mem_map]
    refine ⟨(id, s.store.clause id), List.mem_filter.mpr ⟨?_, ?_⟩, rfl⟩
    · refine List.mem_filter.mpr ⟨List.mem_map.mpr ⟨id, List.mem_range.mpr hid, rfl⟩, ?_⟩
      simpa using hlearnt
    · have hno : ∀ l ∈ (s.store.clause id).lits, s.trail.isTrue l = false := by
        intro l hl
        by_contra ht
        exact hd.2.1 l hl (hs.trail.isTrue_iff.mp (by simpa using ht))
      rw [Bool.not_eq_true', List.any_eq_false]
      intro l hl
      simp [hno l hl]

/-- **A valuation completes an assignment** if it makes the clauses and the
trail true. -/
def Completes (F : List Clause) (s : Solver) (ν : Valuation) : Prop :=
  allHold ν F = true ∧ ∀ l ∈ s.trail.lits.toList, l.holds ν = true

/-- What is assigned later at the same level is true as well. -/
theorem Completes.holds {ν : Valuation} (h : Completes F s ν) (hs : Sound F s) (hs' : Sound F s')
    (hw : Within s s') (hlevel : s'.level = s.level) :
    ∀ l ∈ s'.trail.lits.toList, l.holds ν = true :=
  (hs'.heeds h.1).holds_later hs hs' hw hlevel h.2

/-- A clause that follows is not false under a valuation. -/
theorem Completes.not_false {ν : Valuation} (h : Completes F s ν) {clause : Clause} {t : Trail}
    (ht : ∀ l ∈ t.lits.toList, l.holds ν = true) (hent : Entails F clause)
    (hfalse : ∀ l ∈ clause, l.neg ∈ t.lits.toList) : False := by
  obtain ⟨l, hl, hholds⟩ := Clause.holds_iff.mp (hent ν h.1)
  rw [Lit.not_holds_of_neg (ht _ (hfalse l hl))] at hholds
  cases hholds

/-- **A forced literal**: over an open variable of the component, and true in
all valuations that complete the assignment. -/
structure IsForced (F : List Clause) (s : Solver) (c : Component) (l : Lit) : Prop where
  var : l.var ∈ c.vars
  isOpen : s.trail.isAssigned l.var = false
  holds : ∀ ν, Completes F s ν → l.holds ν = true

/-- The literals after those of the base are the ones of its open variables. -/
theorem Within.mem_litsFrom (hw : Within s s') (hs : Sound F s) (hs' : Sound F s') {l : Lit} :
    l ∈ s'.trail.litsFrom s.trail.size
      ↔ l ∈ s'.trail.lits.toList ∧ s.trail.isAssigned l.var = false := by
  obtain ⟨more, hmore⟩ := hw.lits
  have hdrop : s'.trail.litsFrom s.trail.size = more := by
    show s'.trail.lits.toList.drop s.trail.lits.size = more
    rw [← hmore, ← Array.length_toList, List.drop_left]
  have hnodup := hs'.trail.nodup
  rw [← hmore, List.map_append, List.nodup_append] at hnodup
  rw [hdrop, ← hmore, List.mem_append]
  constructor
  · intro hl
    refine ⟨Or.inr hl, ?_⟩
    by_contra ha
    obtain ⟨m, hm, hv⟩ := hs.trail.isAssigned_iff.mp (by simpa using ha)
    exact hnodup.2.2 _ (List.mem_map_of_mem hm) _ (List.mem_map_of_mem hl) hv
  · rintro ⟨hl | hl, hopen⟩
    · exact absurd hl (hs.trail.not_mem_of_not_assigned hopen)
    · exact hl

/-- The model of a valuation that completes the assignment fits. -/
theorem Fits.of_completes {pool : ModelPool} {m : Model} {ν : Valuation} (hs : Sound F s)
    (hν : Completes F s ν) (hvars : ∀ v ∈ c.vars, v.index < s.varCount)
    (hbuffer : m.buffer < pool.buffers.size)
    (hvalue : ∀ v ∈ Var.range s.varCount, pool.value m v = some (ν v)) : Fits s c pool m where
  buffer := hbuffer
  trail := by
    intro l hl
    rw [hvalue _ (Var.mem_range.mpr (hs.trail.inRange l hl)), Lit.holds_iff.mp (hν.2 l hl)]
  assigned := fun v hv _ => ⟨ν v, hvalue v (Var.mem_range.mpr (hvars v hv))⟩
  satisfies := by
    intro d hd
    obtain ⟨l, hl, hholds⟩ := Clause.holds_iff.mp (hs.entailed.given hd.1 ν hν.1)
    refine ⟨l, hl, ?_⟩
    rw [hvalue _ (Var.mem_range.mpr (hs.occurs_of_given hd.1 hl).1), Lit.holds_iff.mp hholds]

/-- A model and a valuation agree where the trail has a value. -/
theorem Fits.eq_of_assigned {pool : ModelPool} {m : Model} (h : Fits s c pool m) (hs : Sound F s)
    {l : Lit} (hl : pool.value m l.var = some l.positive)
    (ha : s.trail.isAssigned l.var = true) : l ∈ s.trail.lits.toList := by
  obtain ⟨x, hx, hv⟩ := hs.trail.isAssigned_iff.mp ha
  have hval := h.trail x hx
  rw [hv, hl] at hval
  obtain rfl : l = x := Lit.eq_of_var_eq hv.symm (Option.some.inj hval)
  exact hx

/-- One valuation on the open variables of a component, and another one on all
others. -/
def patched (s : Solver) (c : Component) (inner outer : Valuation) : Valuation := fun v =>
  if c.vars.contains v && !s.trail.isAssigned v then inner v else outer v

theorem patched_inner {inner outer : Valuation} {v : Var} (hv : v ∈ c.vars)
    (hopen : s.trail.isAssigned v = false) : s.patched c inner outer v = inner v := by
  simp [patched, hv, hopen]

theorem holds_patched_outer {inner outer : Valuation} {l : Lit}
    (hl : l.var ∈ c.vars → s.trail.isAssigned l.var = true) (hholds : l.holds outer = true) :
    l.holds (s.patched c inner outer) = true := by
  have hno : (c.vars.contains l.var && !s.trail.isAssigned l.var) = false := by
    simpa using hl
  rw [Lit.holds_iff] at hholds ⊢
  unfold patched
  rw [hno]
  exact hholds

/-- **Only active clauses look at the open variables** of a component: what
satisfies these may be put in there. -/
theorem Sound.patched_holds (hs : Sound F s) {inner outer : Valuation} (hgiven : GivenHold s outer)
    (htrail : ∀ l ∈ s.trail.lits.toList, l.holds outer = true)
    (hactive : ∀ d, s.Active c d → ∃ l ∈ d, l.var ∈ c.vars ∧ s.trail.isAssigned l.var = false
      ∧ l.holds inner = true) :
    GivenHold s (s.patched c inner outer)
      ∧ ∀ l ∈ s.trail.lits.toList, l.holds (s.patched c inner outer) = true := by
  have htrail' : ∀ l ∈ s.trail.lits.toList, l.holds (s.patched c inner outer) = true := fun l hl =>
    holds_patched_outer (fun _ => hs.trail.isAssigned_iff.mpr ⟨l, hl, rfl⟩) (htrail l hl)
  refine ⟨⟨fun l hl => htrail' l (List.mem_of_mem_take hl), fun d hd => ?_⟩, htrail'⟩
  by_cases hsat : ∃ l ∈ d, l ∈ s.trail.lits.toList
  · obtain ⟨l, hl, ht⟩ := hsat
    exact Clause.holds_iff.mpr ⟨l, hl, htrail' l ht⟩
  · have hno : ∀ l ∈ d, l ∉ s.trail.lits.toList := fun l hl ht => hsat ⟨l, hl, ht⟩
    by_cases htouch : ∃ l ∈ d, l.var ∈ c.vars ∧ s.trail.isAssigned l.var = false
    · obtain ⟨l, hl, hv, hopen, hholds⟩ := hactive d ⟨hd, hno, htouch⟩
      refine Clause.holds_iff.mpr ⟨l, hl, ?_⟩
      rw [Lit.holds_iff, patched_inner hv hopen]
      exact Lit.holds_iff.mp hholds
    · -- the others are satisfied outside
      obtain ⟨l, hl, hholds⟩ := Clause.holds_iff.mp (hgiven.given d hd)
      refine Clause.holds_iff.mpr ⟨l, hl, holds_patched_outer (fun hv => ?_) hholds⟩
      by_contra ha
      exact htouch ⟨l, hl, hv, by simpa using ha⟩

/-- A valuation that completes the assignment satisfies the solver. -/
theorem Completes.givenHold {ν : Valuation} (h : Completes F s ν) (hs : Sound F s) :
    GivenHold s ν :=
  ⟨fun l hl => h.2 l (List.mem_of_mem_take hl), fun _ hd => hs.entailed.given hd ν h.1⟩

/-- **The solver stands for some clauses on a component** if whatever satisfies
the solver and extends the assignment has the values there of a valuation that
completes it. -/
def StandsFor (F : List Clause) (s : Solver) (c : Component) : Prop :=
  ∀ ν, GivenHold s ν → (∀ l ∈ s.trail.lits.toList, l.holds ν = true) →
    ∃ ν', Completes F s ν' ∧ ∀ v ∈ c.vars, ν' v = ν v

/-- A solver that covers the clauses stands for them everywhere. -/
theorem StandsFor.of_covers (hcov : ∀ ν, GivenHold s ν → allHold ν F = true) :
    StandsFor F s c :=
  fun ν hν htrail => ⟨ν, ⟨hcov ν hν, htrail⟩, fun _ _ => rfl⟩

/-- **The valuation behind a model**: the model decides the open variables of
the component, and `ν` all others. -/
theorem Fits.valuation {pool : ModelPool} {m : Model} (h : Fits s c pool m) (hs : Sound F s)
    (hstands : StandsFor F s c) (hclosed : s.Closed c) {ν : Valuation} (hν : Completes F s ν) :
    ∃ ν', Completes F s ν' ∧ ∀ v ∈ c.vars, s.trail.isAssigned v = false →
      pool.value m v = some (ν' v) := by
  have hinner : ∀ v, v ∈ c.vars → s.trail.isAssigned v = false →
      pool.value m v = some (pool.valuation m v) := by
    intro v hv hopen
    obtain ⟨p, hp⟩ := h.assigned v hv hopen
    rw [hp, ModelPool.valuation_of_value hp]
  -- an active clause is satisfied by the model, over open variables
  have hactive : ∀ d, s.Active c d → ∃ l ∈ d, l.var ∈ c.vars ∧ s.trail.isAssigned l.var = false
      ∧ l.holds (pool.valuation m) = true := by
    intro d hd
    obtain ⟨l, hl, hval⟩ := h.satisfies d hd
    have hopen : s.trail.isAssigned l.var = false := by
      by_contra ha
      exact hd.2.1 l hl (h.eq_of_assigned hs hval (by simpa using ha))
    have hv := hclosed.vars d hd l hl hopen
    refine ⟨l, hl, hv, hopen, Lit.holds_iff.mpr ?_⟩
    rw [hinner _ hv hopen] at hval
    exact Option.some.inj hval
  obtain ⟨hgiven, htrail⟩ := hs.patched_holds (hν.givenHold hs) hν.2 hactive
  obtain ⟨ν', hν', hsame⟩ := hstands _ hgiven htrail
  refine ⟨ν', hν', fun v hv hopen => ?_⟩
  rw [hsame v hv, patched_inner hv hopen]
  exact hinner v hv hopen

/-- A literal that all valuations share is one that all models share. -/
theorem unanimous_of_shared {pool : ModelPool} {ledger : ModelLedger} (hs : Sound F s)
    (hcov : ∀ ν, GivenHold s ν → allHold ν F = true) (hclosed : s.Closed c)
    (hfits : ∀ m ∈ ledger.models, Fits s c pool m) (hne : ledger.isEmpty = false)
    {ν : Valuation} (hν : Completes F s ν) {l : Lit} (hl : l.var ∈ c.vars)
    (hopen : s.trail.isAssigned l.var = false)
    (hshared : ∀ ν, Completes F s ν → l.holds ν = true) :
    ledger.unanimous pool l.var = some l.positive := by
  have hvalue : ∀ m ∈ ledger.models, pool.value m l.var = some l.positive := by
    intro m hm
    obtain ⟨ν', hν', hval⟩ := (hfits m hm).valuation hs (.of_covers hcov) hclosed hν
    rw [hval _ hl hopen, Lit.holds_iff.mp (hshared ν' hν')]
  exact ModelLedger.unanimous_eq_some_iff.mpr ⟨List.isEmpty_eq_false_iff.mp hne, hvalue⟩

end Solver

end Cleave
