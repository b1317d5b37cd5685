import Cleave.Proofs.Backbone

/-!
# A log of the probes

The passes over the candidates, with a record of every probe they make:
`Solver.tracedPass` and `Solver.tracedPasses` do what the passes themselves do
(`Solver.probePass_eq_traced`, `Solver.probeAll_eq_traced`) and also give a list of
trials for each pass. A trial says what was known before and after a probe, so
that the probes of a call can be spoken of one by one
(`Solver.impliedLiterals_eq_traced`).
-/

namespace Cleave

/-- Whether a probe counts as progress. -/
def Probe.counts : Probe → Bool
  | .forced | .mismatch _ | .model => true
  | .postponed | .unsatisfiable _ => false

namespace Solver

/-! ## Passes with a log -/

/-- What is known between two probes. -/
structure Findings where
  /-- The models that were found. -/
  ledger : ModelLedger
  /-- The solver with the literals that were forced. -/
  solver : Solver

/-- A probe that was made. -/
structure Trial where
  candidate : Lit
  outcome : Probe
  before : Findings
  after : Findings

/-- What a pass notes of a probe. -/
def Pass.note (pass : Pass) : Probe → Pass
  | .postponed => { pass with postponed := pass.postponed + 1 }
  | .unsatisfiable clause => { pass with refutation := some clause }
  | _ => { pass with progress := true }

/-- What the statistics note of a probe. -/
def noteProbe (s : Solver) : Probe → Solver
  | .forced => s.countBackbone fun b => { b with forced := b.forced + 1 }
  | .mismatch _ => s.countBackbone fun b => { b with mismatched := b.mismatched + 1 }
  | .postponed => s.countBackbone fun b => { b with postponed := b.postponed + 1 }
  | _ => s

/-- A pass over candidates, with the probes it makes. -/
def tracedPass (fuel : Nat) (c : Component) (budget : Nat) :
    List Lit → Pass → Findings → Except Fault (List Trial × Pass × Findings)
  | [], pass, known => .ok ([], pass, known)
  | candidate :: rest, pass, known =>
    if known.solver.trail.isAssigned candidate.var
        || known.ledger.unanimous known.solver.pool candidate.var ≠ some candidate.positive then
      tracedPass fuel c budget rest pass known
    else do
      let (outcome, ledger, s) ← known.solver.probe fuel c candidate budget known.ledger
      let after : Findings := ⟨ledger, s.noteProbe outcome⟩
      let trial : Trial := ⟨candidate, outcome, known, after⟩
      match outcome with
      | .unsatisfiable _ => return ([trial], pass.note outcome, after)
      | _ =>
        let (log, r) ← tracedPass fuel c budget rest (pass.note outcome) after
        return (trial :: log, r)

/-- All passes, with the probes they make. -/
def tracedPasses (fuel : Nat) (c : Component) (vs : List Var) :
    Nat → Nat → Findings → Except Fault (List (List Trial) × ImpliedLiterals × Findings)
  | 0, _, _ => .error .outOfFuel
  | rounds + 1, budget, known =>
    match known.solver.candidates vs known.ledger with
    | [] => .ok ([], .forced [] true, known)
    | candidates => do
      let (trials, pass, known) ← tracedPass fuel c budget candidates ⟨none, false, 0⟩ known
      match pass.refutation with
      | some clause => return ([trials], .unsatisfiable clause, known)
      | none =>
        if pass.progress then
          let budget := if 0 < pass.postponed then known.solver.growBudget budget else budget
          let (log, r) ← tracedPasses fuel c vs rounds budget known
          return (trials :: log, r)
        else return ([trials], .forced [] (pass.postponed = 0), known)

/-- The result of a run, without its log. -/
def unlogged {α β : Type} (r : α × β × Findings) : β × ModelLedger × Solver :=
  (r.2.1, r.2.2.ledger, r.2.2.solver)

variable {fuel budget : Nat} {c : Component} {vs : List Var} {known known' : Findings}
  {candidate : Lit} {s : Solver}

/-- **The log belongs to the pass**: without it, this is the pass itself. -/
theorem probePass_eq_traced (cs : List Lit) (pass : Pass) (ledger : ModelLedger) (s : Solver) :
    probePass fuel c budget cs pass ledger s
      = (tracedPass fuel c budget cs pass ⟨ledger, s⟩).map unlogged := by
  induction cs generalizing pass ledger s with
  | nil => rfl
  | cons candidate rest ih =>
    unfold probePass tracedPass
    split
    · exact ih pass ledger s
    · show (s.probe fuel c candidate budget ledger >>= _) = _
      cases hprobe : s.probe fuel c candidate budget ledger with
      | error e => rfl
      | ok r =>
        obtain ⟨outcome, ledger', s'⟩ := r
        simp only
        have hgo : ∀ (pass' : Pass) (t : Solver) (trial : Trial),
            probePass fuel c budget rest pass' ledger' t
              = Except.map unlogged (tracedPass fuel c budget rest pass' ⟨ledger', t⟩ >>= fun r =>
                  .ok (trial :: r.1, r.2)) := by
          intro pass' t trial
          rw [ih]
          cases tracedPass fuel c budget rest pass' ⟨ledger', t⟩ <;> rfl
        cases outcome with
        | unsatisfiable clause => rfl
        | _ => exact hgo _ _ _

/-- The log of all passes. -/
theorem probeAll_eq_traced (rounds : Nat) (ledger : ModelLedger) (s : Solver) :
    probeAll fuel c vs rounds budget ledger s
      = (tracedPasses fuel c vs rounds budget ⟨ledger, s⟩).map unlogged := by
  induction rounds generalizing budget ledger s with
  | zero => rfl
  | succ rounds ih =>
    unfold probeAll tracedPasses
    show (match s.candidates vs ledger with | [] => _ | _ => _) = _
    cases hcs : s.candidates vs ledger with
    | nil => rfl
    | cons l rest =>
      simp only [probePass_eq_traced]
      cases tracedPass fuel c budget (l :: rest) ⟨none, false, 0⟩ ⟨ledger, s⟩ with
      | error e => rfl
      | ok r =>
        obtain ⟨trials, pass, known⟩ := r
        have hgo : ∀ budget', probeAll fuel c vs rounds budget' known.ledger known.solver
            = Except.map unlogged (tracedPasses fuel c vs rounds budget' known >>= fun r =>
                .ok (trials :: r.1, r.2)) := by
          intro budget'
          rw [ih]
          cases tracedPasses fuel c vs rounds budget' known <;> rfl
        show (match pass.refutation with | some _ => _ | none => _)
          = Except.map unlogged (match pass.refutation with | some _ => _ | none => _)
        cases pass.refutation with
        | some clause => rfl
        | none =>
          show (if pass.progress then _ else _)
            = Except.map unlogged (if pass.progress then _ else _)
          cases pass.progress with
          | true => exact hgo _
          | false => rfl

/-! ## The parts of a run -/

/-- What is not skipped is live. -/
theorem not_skipped_iff {ledger : ModelLedger} {l : Lit} :
    ¬ (s.trail.isAssigned l.var || ledger.unanimous s.pool l.var ≠ some l.positive) = true
      ↔ s.isLive ledger l := by
  simp [isLive]

/-- **The parts of a pass**: the first candidate is skipped unless it is live, and
a probe that refutes the component is the last one. -/
theorem tracedPass_cons_eq_ok {rest : List Lit} {pass pass' : Pass} {log : List Trial}
    (h : tracedPass fuel c budget (candidate :: rest) pass known = .ok (log, pass', known')) :
    tracedPass fuel c budget rest pass known = .ok (log, pass', known')
      ∨ known.solver.isLive known.ledger candidate ∧ ∃ p ledger s more,
        known.solver.probe fuel c candidate budget known.ledger = .ok (p, ledger, s)
        ∧ log = ⟨candidate, p, known, ⟨ledger, s.noteProbe p⟩⟩ :: more
        ∧ ((∃ clause, p = .unsatisfiable clause ∧ more = [] ∧ pass' = pass.note p
            ∧ known' = ⟨ledger, s.noteProbe p⟩)
          ∨ (∀ clause, p ≠ .unsatisfiable clause)
            ∧ tracedPass fuel c budget rest (pass.note p) ⟨ledger, s.noteProbe p⟩
              = .ok (more, pass', known')) := by
  unfold tracedPass at h
  split at h
  · exact Or.inl h
  · rename_i hlive
    obtain ⟨⟨p, ledger, s⟩, hprobe, h⟩ := Except.bind_eq_ok.mp h
    refine Or.inr ⟨not_skipped_iff.mp hlive, p, ledger, s, ?_⟩
    cases p with
    | unsatisfiable clause =>
      obtain ⟨rfl, heq⟩ := Prod.mk.inj (Except.ok.inj h)
      obtain ⟨rfl, rfl⟩ := Prod.mk.inj heq
      exact ⟨[], hprobe, rfl, Or.inl ⟨clause, rfl, rfl, rfl, rfl⟩⟩
    | _ =>
      obtain ⟨⟨more, r⟩, hrest, h⟩ := Except.bind_eq_ok.mp h
      obtain ⟨rfl, rfl⟩ := Prod.mk.inj (Except.ok.inj h)
      exact ⟨more, hprobe, rfl, Or.inr ⟨by simp, hrest⟩⟩

/-- **A pass counts its progress**, by induction on the candidates. -/
theorem progress_of_tracedPass (cs : List Lit) {pass pass' : Pass} {log : List Trial}
    (h : tracedPass fuel c budget cs pass known = .ok (log, pass', known')) :
    pass'.progress = (pass.progress || log.any (·.outcome.counts)) := by
  induction cs generalizing pass known log with
  | nil =>
    obtain ⟨rfl, heq⟩ := Prod.mk.inj (Except.ok.inj h)
    obtain ⟨rfl, -⟩ := Prod.mk.inj heq
    simp
  | cons candidate rest ih =>
    rcases tracedPass_cons_eq_ok h with h | ⟨-, p, ledger, s, more, -, rfl, hend⟩
    · exact ih h
    · have hnote : (pass.note p).progress = (pass.progress || p.counts) := by
        cases p <;> simp [Pass.note, Probe.counts]
      rcases hend with ⟨clause, rfl, rfl, rfl, -⟩ | ⟨-, h⟩
      · simpa using hnote
      · rw [ih h, hnote, List.any_cons, Bool.or_assoc]

/-- **A pass without progress** postpones every probe it makes, unless it refutes
the component. -/
theorem postponed_of_tracedPass (cs : List Lit) {pass pass' : Pass} {log : List Trial}
    (h : tracedPass fuel c budget cs pass known = .ok (log, pass', known'))
    (hnone : pass'.refutation = none) (hno : log.any (·.outcome.counts) = false) :
    pass'.postponed = pass.postponed + log.length ∧ ∀ t ∈ log, t.outcome = .postponed := by
  induction cs generalizing pass known log with
  | nil =>
    obtain ⟨rfl, heq⟩ := Prod.mk.inj (Except.ok.inj h)
    obtain ⟨rfl, -⟩ := Prod.mk.inj heq
    simp
  | cons candidate rest ih =>
    rcases tracedPass_cons_eq_ok h with h | ⟨-, p, ledger, s, more, -, rfl, hend⟩
    · exact ih h hno
    · rw [List.any_cons, Bool.or_eq_false_iff] at hno
      rcases hend with ⟨clause, rfl, rfl, rfl, -⟩ | ⟨hsat, h⟩
      · cases hnone
      · obtain rfl : p = .postponed := by
          cases p with
          | postponed => rfl
          | unsatisfiable clause => exact absurd rfl (hsat clause)
          | _ => cases hno.1
        obtain ⟨hcount, hall⟩ := ih h hno.2
        refine ⟨?_, List.forall_mem_cons.mpr ⟨rfl, hall⟩⟩
        rw [hcount, List.length_cons]
        show pass.postponed + 1 + more.length = _
        omega

/-- **The parts of a round**: nothing is left, or a pass refutes the component,
makes progress, or is the last one. -/
theorem tracedPasses_eq_ok {rounds : Nat} {log : List (List Trial)} {implied : ImpliedLiterals}
    (h : tracedPasses fuel c vs (rounds + 1) budget known = .ok (log, implied, known')) :
    (log = [] ∧ implied = .forced [] true ∧ known' = known)
      ∨ known.solver.candidates vs known.ledger ≠ [] ∧ ∃ trials pass known₁,
        tracedPass fuel c budget (known.solver.candidates vs known.ledger) ⟨none, false, 0⟩ known
            = .ok (trials, pass, known₁)
          ∧ ((∃ clause, pass.refutation = some clause ∧ log = [trials]
              ∧ implied = .unsatisfiable clause ∧ known' = known₁)
            ∨ (pass.refutation = none ∧ pass.progress = true ∧ ∃ budget' more,
              tracedPasses fuel c vs rounds budget' known₁ = .ok (more, implied, known')
                ∧ log = trials :: more)
            ∨ (pass.refutation = none ∧ pass.progress = false ∧ log = [trials]
              ∧ implied = .forced [] (pass.postponed = 0) ∧ known' = known₁)) := by
  unfold tracedPasses at h
  split at h
  · obtain ⟨rfl, heq⟩ := Prod.mk.inj (Except.ok.inj h)
    obtain ⟨rfl, rfl⟩ := Prod.mk.inj heq
    exact Or.inl ⟨rfl, rfl, rfl⟩
  · rename_i hne
    obtain ⟨⟨trials, pass, known₁⟩, hpass, h⟩ := Except.bind_eq_ok.mp h
    refine Or.inr ⟨hne, trials, pass, known₁, hpass, ?_⟩
    simp only at h
    split at h
    · rename_i clause hr
      obtain ⟨rfl, heq⟩ := Prod.mk.inj (Except.ok.inj h)
      obtain ⟨rfl, rfl⟩ := Prod.mk.inj heq
      exact Or.inl ⟨clause, hr, rfl, rfl, rfl⟩
    · rename_i hr
      split at h
      · rename_i hprogress
        obtain ⟨⟨more, r⟩, hmore, h⟩ := Except.bind_eq_ok.mp h
        obtain ⟨rfl, rfl⟩ := Prod.mk.inj (Except.ok.inj h)
        exact Or.inr (Or.inl ⟨hr, hprogress, _, more, hmore, rfl⟩)
      · rename_i hno
        obtain ⟨rfl, heq⟩ := Prod.mk.inj (Except.ok.inj h)
        obtain ⟨rfl, rfl⟩ := Prod.mk.inj heq
        exact Or.inr (Or.inr ⟨hr, by simpa using hno, rfl, rfl, rfl⟩)

/-! ## Calls -/

/-- What a call knows when it comes to its passes, if it does: the scope of the
component is entered, everything is propagated, and there is a model. -/
def firstFindings (s : Solver) (fuel : Nat) (c : Component) (ledger : ModelLedger) :
    Except Fault (Option Findings) := do
  let s := s.countBackbone fun b => { b with calls := b.calls + 1 }
  if s.conflicted then return none
  let (_, s) ← s.enterScope c
  match s.propagate with
  | (some _, _) => return none
  | (none, s) =>
    match ← firstModel fuel c fuel s.options.probeBudget ledger s with
    | (some _, _, _) => return none
    | (none, ledger, s) => return some ⟨ledger, s⟩

theorem firstFindings_eq_ok {ledger : ModelLedger}
    (h : s.firstFindings fuel c ledger = .ok (some known)) :
    s.conflicted = false ∧ ∃ previous s₁ s₂,
      (s.countBackbone fun b => { b with calls := b.calls + 1 }).enterScope c = .ok (previous, s₁)
        ∧ s₁.propagate = (none, s₂)
        ∧ firstModel fuel c fuel s₂.options.probeBudget ledger s₂
          = .ok (none, known.ledger, known.solver) := by
  unfold firstFindings at h
  simp only at h
  split at h
  · cases h
  · rename_i hconf
    obtain ⟨⟨previous, s₁⟩, henter, h⟩ := Except.bind_eq_ok.mp h
    simp only at h
    split at h
    · cases h
    · rename_i s₂ hprop
      obtain ⟨⟨o, ledger₁, s₃⟩, hfirst, h⟩ := Except.bind_eq_ok.mp h
      cases o with
      | some clause => cases h
      | none =>
        obtain rfl := Option.some.inj (Except.ok.inj h)
        exact ⟨by simpa [countBackbone] using hconf, previous, s₁, s₂, henter, hprop, hfirst⟩

/-- What a call makes of the end of its passes. -/
def concluded (s : Solver) (c : Component) (implied : ImpliedLiterals) (known : Findings) :
    Except ToolError ImpliedLiterals × ModelLedger × Solver :=
  let s' := (known.solver.backtrackTo s.level).restoreScope s.scope.current
  (.ok (s'.reported c s.trail.size implied), known.ledger, s')

/-- The variables that are probed. -/
def Findings.probedVars (known : Findings) (c : Component) (projected : Bool) : List Var :=
  c.vars.filter fun v => !projected || known.solver.isProjected v

/-- Probed variables are variables of the component. -/
theorem Findings.mem_of_probedVars {known : Findings} {c : Component} {projected : Bool} {v : Var}
    (h : v ∈ known.probedVars c projected) : v ∈ c.vars :=
  (List.mem_filter.mp h).1

theorem backboneByProbing_eq {ledger : ModelLedger} {s₁ s₂ : Solver}
    (hprop : s₁.propagate = (none, s₂))
    (hfirst : firstModel fuel c fuel s₂.options.probeBudget ledger s₂
      = .ok (none, known.ledger, known.solver)) (projected : Bool) :
    s₁.backboneByProbing fuel c ledger projected
      = (tracedPasses fuel c (known.probedVars c projected) fuel known.solver.options.probeBudget
          known).map unlogged := by
  rw [← probeAll_eq_traced]
  unfold backboneByProbing
  rw [hprop]
  simp only
  rw [hfirst]
  rfl

/-- **The call runs these passes.** -/
theorem impliedLiterals_eq_traced {ledger : ModelLedger}
    (h : s.firstFindings fuel c ledger = .ok (some known)) (hengine : s.options.engine = .native)
    (P : SatProcedure) (projected : Bool) :
    s.impliedLiterals P fuel c ledger projected
      = (tracedPasses fuel c (known.probedVars c projected) fuel known.solver.options.probeBudget
          known).map fun r => s.concluded c r.2.1 r.2.2 := by
  obtain ⟨hconf, previous, s₁, s₂, henter, hprop, hfirst⟩ := firstFindings_eq_ok h
  obtain ⟨-, rfl, hs₁⟩ := enterScope_spec henter
  have hnative : s₁.options.engine = .native := by
    rw [hs₁]
    exact hengine
  unfold impliedLiterals
  simp only
  rw [if_neg (show ¬ (s.countBackbone _).conflicted = true by simp [countBackbone, hconf]), henter]
  show (s₁.backbone P fuel c ledger projected >>= _) = _
  unfold backbone
  rw [hnative]
  simp only
  rw [backboneByProbing_eq hprop hfirst]
  cases tracedPasses fuel c _ fuel _ known with
  | error e => rfl
  | ok r =>
    obtain ⟨log, implied, known'⟩ := r
    cases implied <;> rfl

end Solver

end Cleave
