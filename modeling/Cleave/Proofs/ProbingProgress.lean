import Cleave.Proofs.Lease
import Cleave.Proofs.Orderly
import Cleave.Proofs.ProbeGains

/-!
# Probing ends

The passes over the candidates go on as long as one of their probes counts as
progress. Each of these decreases a measure that no other probe increases
(`Solver.Measures`), and a pass needs a candidate. So the measure bounds the number of
passes, and one round more is enough (`Solver.Exploring.tracedPasses_eq`). With enough fuel
for its searches every probe has a result (`Solver.Exploring.settles_probe`). So the
passes of a call end (`Solver.Orderly.passesEnd`), with an answer if the options are not
refused (`Solver.Orderly.passes_answer`). If the answer is not complete, the last pass has
only postponed its probes.
-/

namespace Cleave

namespace Solver

variable {F : List Clause} {b s s' : Solver} {n₀ fuel budget : Nat} {c : Component}
  {vs : List Var} {safe : Prop} {known known' : Findings} {candidate : Lit} {p : Probe}

/-! ## Runs -/

/-- **A pass keeps the loop going**, by induction on the candidates: every probe
advances, and those that count use up the measure. -/
theorem Exploring.tracedPass {μ : Findings → Nat} (hb : Sound F b)
    (hvars : ∀ v ∈ c.vars, v.index < b.varCount) (hμ : Measures F b n₀ c safe μ) (cs : List Lit)
    (hcs : ∀ l ∈ cs, l.var ∈ c.vars) {pass pass' : Pass} {log : List Trial}
    (h : Exploring F b n₀ c safe known)
    (hrun : Solver.tracedPass fuel c budget cs pass known = .ok (log, pass', known')) :
    (∀ t ∈ log, t.Advances c) ∧ μ known' + log.countP (·.outcome.counts) ≤ μ known
      ∧ (pass'.refutation = none → Exploring F b n₀ c safe known') := by
  induction cs generalizing pass known log with
  | nil =>
    obtain ⟨rfl, heq⟩ := Prod.mk.inj (Except.ok.inj hrun)
    obtain ⟨-, rfl⟩ := Prod.mk.inj heq
    exact ⟨by simp, by simp, fun _ => h⟩
  | cons candidate rest ih =>
    obtain ⟨hcand, hrest⟩ := List.forall_mem_cons.mp hcs
    rcases tracedPass_cons_eq_ok hrun with hrun | ⟨hlive, p, ledger, s, more, hp, rfl, hend⟩
    · exact ih hrest h hrun
    · obtain ⟨hret, hgains, hgo⟩ := h.probe hb hvars hcand hlive hp
      have hadv := hret.advances h.ready.sound hcand hlive hgains
      have hfirst := hμ.probe h hcand hlive hp
      have hnoted := hμ.note ledger s p
      rcases hend with ⟨clause, rfl, rfl, rfl, rfl⟩ | ⟨hsat, hrun⟩
      · exact ⟨by simpa using hadv, by simpa [Probe.counts, hnoted] using hfirst,
          fun hn => nomatch hn⟩
      · have hnext : Exploring F b n₀ c safe ⟨ledger, s.noteProbe p⟩ := (hgo hsat).note p
        obtain ⟨hall, hcount, hlast⟩ := ih hrest hnext hrun
        refine ⟨List.forall_mem_cons.mpr ⟨hadv, hall⟩, ?_, hlast⟩
        have hcons : (more.countP (·.outcome.counts)) + p.counts.toNat
            = (⟨candidate, p, known, ⟨ledger, s.noteProbe p⟩⟩ :: more : List Trial).countP
              (·.outcome.counts) := by
          rw [List.countP_cons]
          cases p.counts <;> rfl
        omega

/-- With a candidate there is something left. -/
theorem Measures.pos_of_candidates {μ : Findings → Nat} (hμ : Measures F b n₀ c safe μ)
    (hvs : ∀ v ∈ vs, v ∈ c.vars) (hne : known.solver.candidates vs known.ledger ≠ []) :
    0 < μ known := by
  obtain ⟨l, hl⟩ := List.exists_mem_of_ne_nil _ hne
  obtain ⟨hvar, hlive⟩ := mem_candidates.mp hl
  exact hμ.live (hvs _ hvar) hlive

section

variable {μ : Findings → Nat} (hb : Sound F b) (hvars : ∀ v ∈ c.vars, v.index < b.varCount)
  (hvs : ∀ v ∈ vs, v ∈ c.vars) (hμ : Measures F b n₀ c safe μ)

include hb hvars hvs hμ

theorem Exploring.pass {trials : List Trial} {pass : Pass} (h : Exploring F b n₀ c safe known)
    (hrun : Solver.tracedPass fuel c budget (known.solver.candidates vs known.ledger)
      ⟨none, false, 0⟩ known = .ok (trials, pass, known')) :
    (∀ t ∈ trials, t.Advances c)
      ∧ (pass.refutation = none → Exploring F b n₀ c safe known')
      ∧ (pass.progress = true → μ known' < μ known) := by
  obtain ⟨hall, hcount, hlast⟩ := h.tracedPass hb hvars hμ _
    (fun l hl => hvs _ (mem_candidates.mp hl).1) hrun
  refine ⟨hall, hlast, fun hprogress => ?_⟩
  rw [progress_of_tracedPass _ hrun, Bool.false_or, List.any_eq_true] at hprogress
  have hpos := List.countP_pos_iff.mpr hprogress
  omega

/-- **All passes**, by induction on the rounds: every probe advances, each pass but
the last uses up the measure and the last one needs a rest of it, and without a
complete answer the last pass only postponed its probes. -/
theorem Exploring.tracedPasses (rounds : Nat) {log : List (List Trial)}
    {implied : ImpliedLiterals} (h : Exploring F b n₀ c safe known)
    (hrun : Solver.tracedPasses fuel c vs rounds budget known = .ok (log, implied, known')) :
    (∀ trials ∈ log, ∀ t ∈ trials, t.Advances c) ∧ log.length ≤ μ known
      ∧ ∀ lits, implied = .forced lits false → ∃ earlier last, log = earlier ++ [last]
        ∧ last ≠ [] ∧ ∀ t ∈ last, t.outcome = .postponed := by
  induction rounds generalizing budget known log with
  | zero => cases hrun
  | succ rounds ih =>
    rcases tracedPasses_eq_ok hrun with ⟨rfl, rfl, -⟩ | ⟨hne, trials, pass, known₁, hpass, hend⟩
    · exact ⟨by simp, Nat.zero_le _, fun _ hc => by cases hc⟩
    · obtain ⟨hall, hlast, hless⟩ := h.pass hb hvars hvs hμ hpass
      have hpos := hμ.pos_of_candidates hvs hne
      have hone : ∀ t' ∈ [trials], ∀ t ∈ t', t.Advances c := by simpa using hall
      rcases hend with ⟨clause, -, rfl, rfl, -⟩ | ⟨hr, hprogress, budget', more, hmore, rfl⟩
        | ⟨hr, hno, rfl, rfl, -⟩
      · exact ⟨hone, hpos, fun _ hc => by cases hc⟩
      · obtain ⟨hmoreAll, hlength, hmoreLast⟩ := ih (hlast hr) hmore
        have hlt := hless hprogress
        refine ⟨List.forall_mem_cons.mpr ⟨hall, hmoreAll⟩, ?_, fun lits hc => ?_⟩
        · rw [List.length_cons]
          omega
        · obtain ⟨earlier, last, rfl, hne, hpostponed⟩ := hmoreLast lits hc
          exact ⟨trials :: earlier, last, rfl, hne, hpostponed⟩
      · refine ⟨hone, hpos, fun lits hc => ?_⟩
        rw [progress_of_tracedPass _ hpass] at hno
        obtain ⟨hcount, hpostponed⟩ := postponed_of_tracedPass _ hpass hr hno
        obtain ⟨-, hcomplete⟩ := ImpliedLiterals.forced.inj hc
        refine ⟨[], trials, rfl, fun hnil => ?_, hpostponed⟩
        rw [hcount, hnil] at hcomplete
        simp at hcomplete

/-- **More rounds than the measure allows change nothing**, by induction on
them. -/
theorem Exploring.tracedPasses_eq (rounds rounds' : Nat) (h : Exploring F b n₀ c safe known)
    (hlt : μ known < rounds) (hlt' : μ known < rounds') :
    Solver.tracedPasses fuel c vs rounds budget known
      = Solver.tracedPasses fuel c vs rounds' budget known := by
  induction rounds generalizing rounds' budget known with
  | zero => exact absurd hlt (Nat.not_lt_zero _)
  | succ rounds ih =>
    obtain ⟨rounds', rfl⟩ : ∃ k, rounds' = k + 1 := ⟨rounds' - 1, by omega⟩
    unfold Solver.tracedPasses
    split
    · rfl
    · cases hpass : Solver.tracedPass fuel c budget (known.solver.candidates vs known.ledger)
          ⟨none, false, 0⟩ known with
      | error e => rfl
      | ok r =>
        obtain ⟨trials, pass, known₁⟩ := r
        obtain ⟨-, hlast, hless⟩ := h.pass hb hvars hvs hμ hpass
        simp only [bind, Except.bind]
        cases hr : pass.refutation with
        | some clause => rfl
        | none =>
          simp only
          split
          · rename_i hprogress
            have hdec := hless hprogress
            rw [ih rounds' (hlast hr) (by omega) (by omega)]
          · rfl

end

/-! ## The loop ends -/

theorem Refuting.failsByScore_applyRefutation {learnt : Learnt} (h : Refuting F b n₀ learnt s) :
    FailsByScore s.Safe (s.applyRefutation learnt) := by
  unfold applyRefutation
  rcases h.clause with ⟨rfl, -⟩ | ⟨first, rest, hlits, hval, hrest, hfirst⟩
  · exact .ok _
  · rw [hlits]
    simp only
    split
    · exact .ok _
    · rename_i hvalue
      have hopen : s.trail.isAssigned first.var = false :=
        hfirst.resolve_left fun hf => hvalue (h.sound.trail.value_false.mpr hf.1)
      have hnone : (s.trail.value first).isNone = true := by
        unfold Trail.value
        unfold Trail.isAssigned at hopen
        simpa using hopen
      have hat := (h.atLevel hlits hopen).asserted hlits hval hrest hopen
      rw [if_pos hnone]
      split
      · exact .ok _
      · rename_i conflict s₁ hp
        obtain ⟨hcon, -⟩ := (hat.propagate hp).2 conflict rfl
        refine ((hcon.sound.failsByScore_refute hcon.refutes).mono fun hsafe => ?_).bind
          fun _ _ => .ok _
        exact ((Upkeep.propagate hp).after (Upkeep.assertLearnt s learnt)).safe hsafe

theorem Refuting.failsByScore_applyProbe {learnt : Learnt} (h : Refuting F b n₀ learnt s)
    (candidate : Lit) : FailsByScore s.Safe (s.applyProbe candidate learnt) := by
  refine h.failsByScore_applyRefutation.bind fun r _ => ?_
  obtain ⟨o, s₁⟩ := r
  cases o with
  | some clause => exact .ok _
  | none =>
    simp only
    split
    · exact .ok _
    · exact .ok _

theorem Sound.settles_search {limit : Nat} (hs : Sound F s) (hsafe : safe → s.Safe)
    (hvars : ∀ v ∈ c.vars, v.index < s.varCount) :
    Settles safe fun fuel => s.search fuel c (some limit) := by
  simp only [search_eq_searchUnder]
  exact ⟨_, hs.settlesBy_searchUnder hsafe hvars limit⟩

/-- **A probe ends.** -/
theorem Exploring.settles_probe (hvars : ∀ v ∈ c.vars, v.index < b.varCount)
    (h : Exploring F b n₀ c safe known) (hcand : candidate.var ∈ c.vars)
    (hlive : known.solver.isLive known.ledger candidate) :
    Settles safe fun fuel => known.solver.probe fuel c candidate budget known.ledger := by
  obtain ⟨ledger, s⟩ := known
  have hl : candidate.var.index < s.varCount := h.ready.within.varCount ▸ hvars _ hcand
  have h₀ : Ready F b n₀ (s.countBackbone fun b => { b with probes := b.probes + 1 }) :=
    h.ready.withStats _
  have hassumed := h₀.searching_assume (l := candidate.neg) hl hlive.1
  unfold Solver.probe
  simp only
  split
  · rename_i conflict s₁ hprop
    have hsafe₁ : safe → s₁.Safe := fun hsafe => (Upkeep.propagate hprop).safe (h.safe hsafe)
    have hcon := (hassumed.propagate hprop).2 conflict rfl
    refine .const (((hcon.sound.failsByScore_refute hcon.refutes).mono hsafe₁).bind
      fun r hr => ?_)
    obtain ⟨learnt, s₂⟩ := r
    obtain ⟨href, -⟩ := h₀.refuting_conflict (l := candidate.neg) hl hlive.1 hprop hr
    refine ((href.failsByScore_applyProbe candidate).mono fun hsafe => ?_).bind fun _ _ => .ok _
    exact ((Upkeep.backtrackTo s₂ s.level).after (Upkeep.refute hr)).safe (hsafe₁ hsafe)
  · rename_i s₁ hprop
    have hsafe₁ : safe → s₁.Safe := fun hsafe => (Upkeep.propagate hprop).safe (h.safe hsafe)
    obtain ⟨hsearching, -, -⟩ := (hassumed.propagate hprop).1 rfl
    have hvars₁ : ∀ v ∈ c.vars, v.index < s₁.varCount := fun v hv =>
      hsearching.within.varCount ▸ hvars v hv
    refine (hsearching.sound.settles_search hsafe₁ hvars₁).andThen fun r hr => ?_
    obtain ⟨fuel, hr⟩ := hr
    obtain ⟨r, s₂⟩ := r
    refine .const ?_
    cases r with
    | satisfiable m => exact .ok _
    | unknown => exact .ok _
    | refuted learnt =>
      have href := (h₀.search_above (l := candidate.neg) hl hlive.1 hprop hr).2.1 learnt rfl
      refine ((href.failsByScore_applyProbe candidate).mono fun hsafe => ?_).bind fun _ _ => .ok _
      exact ((Upkeep.backtrackTo s₂ s.level).after (Upkeep.search hr)).safe (hsafe₁ hsafe)

/-- **A pass ends**, by induction on the candidates. -/
theorem Exploring.settles_tracedPass (hb : Sound F b)
    (hvars : ∀ v ∈ c.vars, v.index < b.varCount) (cs : List Lit) (hcs : ∀ l ∈ cs, l.var ∈ c.vars)
    {pass : Pass} (h : Exploring F b n₀ c safe known) :
    Settles safe fun fuel => Solver.tracedPass fuel c budget cs pass known := by
  induction cs generalizing pass known with
  | nil => exact .const (.ok _)
  | cons candidate rest ih =>
    obtain ⟨hcand, hrest⟩ := List.forall_mem_cons.mp hcs
    unfold Solver.tracedPass
    split
    · exact ih hrest h
    · rename_i hlive
      have hlive := not_skipped_iff.mp hlive
      refine (h.settles_probe hvars hcand hlive).andThen fun r hr => ?_
      obtain ⟨fuel, hr⟩ := hr
      obtain ⟨p, ledger, s⟩ := r
      have hgo : (∀ clause, p ≠ .unsatisfiable clause) →
          Exploring F b n₀ c safe ⟨ledger, s.noteProbe p⟩ := fun hsat =>
        ((h.probe hb hvars hcand hlive hr).2.2 hsat).note p
      cases p with
      | unsatisfiable clause => exact .const (.ok _)
      | _ => exact (ih hrest (hgo (by simp))).andThen fun _ _ => .const (.ok _)

/-- **The passes end**, by induction on the rounds. -/
theorem Exploring.settles_tracedPasses {μ : Findings → Nat} (hb : Sound F b)
    (hvars : ∀ v ∈ c.vars, v.index < b.varCount) (hvs : ∀ v ∈ vs, v ∈ c.vars)
    (hμ : Measures F b n₀ c safe μ) (rounds : Nat) (h : Exploring F b n₀ c safe known)
    (hlt : μ known < rounds) :
    Settles safe fun fuel => Solver.tracedPasses fuel c vs rounds budget known := by
  induction rounds generalizing budget known with
  | zero => exact absurd hlt (Nat.not_lt_zero _)
  | succ rounds ih =>
    unfold Solver.tracedPasses
    split
    · exact .const (.ok _)
    · refine (h.settles_tracedPass hb hvars _ fun l hl =>
        hvs _ (mem_candidates.mp hl).1).andThen fun r hr => ?_
      obtain ⟨fuel, hr⟩ := hr
      obtain ⟨trials, pass, known₁⟩ := r
      obtain ⟨-, hlast, hless⟩ := h.pass hb hvars hvs hμ hr
      simp only
      split
      · exact .const (.ok _)
      · rename_i hr
        split
        · rename_i hprogress
          have hdec := hless hprogress
          exact (ih (hlast hr) (by omega)).andThen fun _ _ => .const (.ok _)
        · exact .const (.ok _)

/-! ## Calls -/

/-- The models of a ledger are in the pool, also those of the first search. -/
theorem firstModel_buffers (rounds : Nat) {ledger ledger' : ModelLedger} {o : Option Clause}
    (h : AtLevel F b n₀ s)
    (hbuffers : ∀ m ∈ ledger.models, m.buffer < s.pool.buffers.size)
    (hf : firstModel fuel c rounds budget ledger s = .ok (o, ledger', s')) :
    ∀ m ∈ ledger'.models, m.buffer < s'.pool.buffers.size := by
  induction rounds generalizing budget ledger s with
  | zero => cases hf
  | succ rounds ih =>
    unfold firstModel at hf
    split at hf
    · obtain ⟨-, heq⟩ := Prod.mk.inj (Except.ok.inj hf)
      obtain ⟨rfl, rfl⟩ := Prod.mk.inj heq
      exact hbuffers
    · obtain ⟨⟨r, s₁⟩, hr, hf⟩ := Except.bind_eq_ok.mp hf
      obtain ⟨hsat, href, hunk, hown⟩ := h.search hr
      have hbuffers₁ : ∀ m ∈ ledger.models, m.buffer < s₁.pool.buffers.size := fun m hm =>
        Nat.lt_of_lt_of_le (hbuffers m hm) hown.pool.size
      cases r with
      | satisfiable m =>
        obtain ⟨hready, known, hfound, -⟩ := hsat m rfl
        refine ih (hready.withStats _).atLevel (fun m' hm' => ?_) hf
        rcases List.mem_append.mp hm' with hm' | hm'
        · exact hbuffers₁ m' hm'
        · exact List.mem_singleton.mp hm' ▸ hfound.buffer
      | refuted learnt =>
        obtain ⟨⟨o', s₂⟩, happ, hf⟩ := Except.bind_eq_ok.mp hf
        have hbuffers₂ : ∀ m ∈ ledger.models, m.buffer < s₂.pool.buffers.size := fun m hm =>
          Nat.lt_of_lt_of_le (hbuffers₁ m hm) (applyRefutation_pool (href learnt rfl) happ).size
        cases o' with
        | some clause =>
          obtain ⟨-, heq⟩ := Prod.mk.inj (Except.ok.inj hf)
          obtain ⟨rfl, rfl⟩ := Prod.mk.inj heq
          exact hbuffers₂
        | none =>
          exact ih ((applyRefutation_spec (href learnt rfl) happ).1 rfl).atLevel hbuffers₂ hf
      | unknown => exact ih (hunk rfl) hbuffers₁ hf

/-- **The loop starts as it goes on.** -/
theorem exploring_firstFindings {ledger : ModelLedger}
    (h : s.firstFindings fuel c ledger = .ok (some known)) (hs : Sound F s) (hsafe : safe → s.Safe)
    (hflags : s.ScopeExact) (hledger : ∀ m ∈ ledger.models, m.buffer < s.pool.buffers.size)
    (n₀ : Nat) :
    (∀ v ∈ c.vars, v.index < s.varCount) ∧ Exploring F s n₀ c safe known := by
  obtain ⟨-, previous, s₁, s₂, henter, hprop, hfirst⟩ := firstFindings_eq_ok h
  obtain ⟨hvars, -, rfl⟩ := enterScope_spec henter
  have hat : AtLevel F s n₀ { s with
      scope := s.scopeOf c
      stats := (s.countBackbone fun b => { b with calls := b.calls + 1 }).stats } :=
    .start hs n₀ _ _
  have hc : Confined Unfollowed c s { s with
      scope := s.scopeOf c
      stats := (s.countBackbone fun b => { b with calls := b.calls + 1 }).stats } :=
    (Over.refl c s).enter hflags hvars (.refl hs) (fun _ hl => hl) (fun _ hν => hν.elim) _
  have hready := (hat.propagate hprop).1 rfl
  have hpool : s.pool.Extends s₂.pool := ((hat.own.propagate hprop).1 rfl).within.pool
  obtain ⟨hnone, -, -⟩ := firstModel_spec hs fuel hready.atLevel (fun _ => hready) hfirst
  obtain ⟨hknown, hne⟩ := hnone rfl
  refine ⟨hvars, hknown, (hc.propagate hat.sound hprop).1.firstModel fuel hready.atLevel hfirst,
    fun hsafe' => ?_, List.isEmpty_eq_false_iff.mp hne, ?_⟩
  · exact ((Upkeep.firstModel fuel hfirst).after (Upkeep.propagate hprop)).safe (hsafe hsafe')
  · exact firstModel_buffers fuel hready.atLevel
      (fun m hm => Nat.lt_of_lt_of_le (hledger m hm) hpool.size) hfirst

/-- Orderly histories are histories. -/
theorem Orderly.attained {f : Formula} {options : Options} {phase : Phase}
    (h : Orderly f options s phase) : Attained s := by
  induction h with
  | start => exact .ofFormula f options
  | @models s _ _ pool ih => exact .call ih (.models [] s pool)
  | propagate _ _ hr ih => exact .call ih (.propagate hr (F := []))
  | decide _ hopen hr ih => exact .call ih (.decide hopen hr (F := []))
  | @backtrack s _ _ _ k ih => exact .call ih (.backtrack [] s k)
  | @recover s _ k _ _ ih => exact .call ih (.backtrack [] s k)
  | search _ _ hr ih => exact .call ih (.search hr (F := []))
  | implied _ _ _ hr ih => exact .implied ih hr

/-- **The passes end**: there are only so many of them in any run, rounds for one more
are as good as any number of rounds, and with enough fuel they lead to an answer. -/
structure PassesEnd (passes : Nat) (safe : Prop) (c : Component) (vs : List Var) (budget : Nat)
    (known : Findings) : Prop where
  length_le : ∀ fuel rounds log implied known',
    tracedPasses fuel c vs rounds budget known = .ok (log, implied, known') →
      log.length ≤ passes
  enough : ∀ fuel rounds, passes < rounds →
    tracedPasses fuel c vs rounds budget known = tracedPasses fuel c vs (passes + 1) budget known
  settles : Settles safe fun fuel => tracedPasses fuel c vs (passes + 1) budget known

theorem Exploring.passesEnd {μ : Findings → Nat} {passes : Nat} (hb : Sound F b)
    (hvars : ∀ v ∈ c.vars, v.index < b.varCount) (hvs : ∀ v ∈ vs, v ∈ c.vars)
    (hμ : Measures F b n₀ c safe μ) (h : Exploring F b n₀ c safe known) (hle : μ known ≤ passes) :
    PassesEnd passes safe c vs budget known where
  length_le := fun _ rounds _ _ _ hrun =>
    Nat.le_trans (h.tracedPasses hb hvars hvs hμ rounds hrun).2.1 hle
  enough := fun _ rounds hlt =>
    h.tracedPasses_eq hb hvars hvs hμ rounds (passes + 1) (by omega) (by omega)
  settles := h.settles_tracedPasses hb hvars hvs hμ (passes + 1) (by omega)

/-- After an orderly history a call of the native engine needs at most one pass more than the
component has variables. -/
theorem Orderly.passesEnd {f : Formula} {options : Options} {phase : Phase} {ledger : ModelLedger}
    (h : Orderly f options s phase) (hledger : ∀ m ∈ ledger.models, m.buffer < s.pool.buffers.size)
    (hstart : s.firstFindings fuel c ledger = .ok (some known)) (projected : Bool) (budget : Nat) :
    PassesEnd (c.vars.length + 1) s.options.Decays c (known.probedVars c projected) budget
      known := by
  have hs := h.inv.sound
  obtain ⟨hvars, hexp⟩ := exploring_firstFindings hstart hs h.attained.safe h.attained.scopeExact
    hledger s.trail.head
  exact hexp.passesEnd hs hvars (fun _ => Findings.mem_of_probedVars) (measures_left hs hvars)
    (known.left_le c s)

/-- **Under options that are not refused** the passes have an answer. -/
theorem Orderly.passes_answer {f : Formula} {options : Options} {phase : Phase}
    {ledger : ModelLedger} (h : Orderly f options s phase)
    (hledger : ∀ m ∈ ledger.models, m.buffer < s.pool.buffers.size)
    (hstart : s.firstFindings fuel c ledger = .ok (some known)) {isThere : String → Bool}
    (hcheck : s.options.check isThere = .ok ()) (projected : Bool) (budget : Nat) :
    ∃ n r, ∀ fuel, n ≤ fuel →
      tracedPasses fuel c (known.probedVars c projected) (c.vars.length + 2) budget known
        = .ok r := by
  obtain ⟨n, hn⟩ := (h.passesEnd hledger hstart projected budget).settles
  obtain ⟨r, hr⟩ := hn.exists_ok (Options.decays_of_check hcheck)
  exact ⟨n, r, hr⟩

/-- **Passes over candidates make progress**, and end.

After an orderly history, let the native engine be called on a component, with models
that are in the pool, and let its loop start. The call is the loop, with a log of its
probes. No probe increases the number of open variables of the component, or that of the
open literals the models agree on, and each that counts as progress decreases one of
them. An answer that is not complete comes from a last pass that only postponed its
probes.

There are at most as many passes as the component has variables, and one more: whether
or not the assignment can be completed, also with a conflict pending, and whatever the
models that were handed in satisfy. -/
theorem Orderly.passes_progress {f : Formula} {options : Options} {phase : Phase}
    {ledger : ModelLedger} (h : Orderly f options s phase)
    (hledger : ∀ m ∈ ledger.models, m.buffer < s.pool.buffers.size)
    (hstart : s.firstFindings fuel c ledger = .ok (some known)) (projected : Bool) :
    (∀ P, s.options.engine = .native → s.impliedLiterals P fuel c ledger projected
        = (tracedPasses fuel c (known.probedVars c projected) fuel
            known.solver.options.probeBudget known).map fun r => s.concluded c r.2.1 r.2.2)
      ∧ (∀ fuel rounds budget log implied known',
        tracedPasses fuel c (known.probedVars c projected) rounds budget known
            = .ok (log, implied, known') →
          (∀ trials ∈ log, ∀ t ∈ trials, t.Advances c)
            ∧ ∀ lits, implied = .forced lits false → ∃ earlier last, log = earlier ++ [last]
              ∧ last ≠ [] ∧ ∀ t ∈ last, t.outcome = .postponed)
      ∧ (∀ budget, PassesEnd (c.vars.length + 1) s.options.Decays c
          (known.probedVars c projected) budget known) := by
  have hs := h.inv.sound
  obtain ⟨hvars, hexp⟩ := exploring_firstFindings hstart hs h.attained.safe h.attained.scopeExact
    hledger s.trail.head
  refine ⟨fun P hengine => impliedLiterals_eq_traced hstart hengine P projected,
    fun fuel rounds budget log implied known' hrun => ?_,
    h.passesEnd hledger hstart projected⟩
  obtain ⟨hall, -, hlast⟩ := hexp.tracedPasses hs hvars (fun _ => Findings.mem_of_probedVars)
    (measures_counts hs hvars) rounds hrun
  exact ⟨hall, hlast⟩

/-- Two clauses with a common literal, which is forced. -/
def halves : Formula :=
  { clauses := [[Var.pos ⟨0⟩, Var.pos ⟨1⟩], [Var.pos ⟨0⟩, Var.neg ⟨1⟩]] }

/-- The models of `halves`, in a pool of their own. -/
def halvesModels : Model × Model × ModelPool :=
  let (m, pool) := ModelPool.allocate {} 2
  let (m, pool) := pool.assignAll m [Var.pos ⟨0⟩, Var.pos ⟨1⟩]
  let (m', pool) := pool.allocate 2
  let (m', pool) := pool.assignAll m' [Var.pos ⟨0⟩, Var.neg ⟨1⟩]
  (m, m', pool)

/-- The solver for `halves`, with its models. -/
def halvesSolver : Solver := { ofFormula halves {} with pool := halvesModels.2.2 }

/-- The whole of `halves`. -/
def halvesComponent : Component := ⟨[⟨0⟩, ⟨1⟩], []⟩

theorem halvesSolver_eq : halvesSolver =
    { (((((new {}).growTo 2).growTo 2).insertClause [Var.pos ⟨0⟩, Var.pos ⟨1⟩] false).growTo
        2).insertClause [Var.pos ⟨0⟩, Var.neg ⟨1⟩] false with pool := halvesModels.2.2 } := by
  rw [halvesSolver, ofFormula_of_ascending (by decide) rfl]
  rfl

/-- On `halves` one probe counts, in one pass. The options are allowed ones, so the passes
have an answer. -/
theorem Orderly.passes_progress_halves : ∃ known log implied known',
    halvesSolver.firstFindings 5 halvesComponent ⟨[halvesModels.1, halvesModels.2.1]⟩
        = .ok (some known)
      ∧ tracedPasses 5 halvesComponent (known.probedVars halvesComponent false) 3 5 known
        = .ok (log, implied, known')
      ∧ log.map (·.map (·.outcome.counts)) = [[true]]
      ∧ (∀ trials ∈ log, ∀ t ∈ trials, t.Advances halvesComponent)
      ∧ PassesEnd 3 halvesSolver.options.Decays halvesComponent
        (known.probedVars halvesComponent false) 5 known
      ∧ ∃ n r, ∀ fuel, n ≤ fuel →
        tracedPasses fuel halvesComponent (known.probedVars halvesComponent false) 4 5 known
          = .ok r := by
  have horderly : Orderly halves {} halvesSolver .idle := .models .start _
  have hoptions : halvesSolver.options.check (fun _ => true) = .ok () := by
    rw [halvesSolver_eq]
    decide +kernel
  have hrun : (halvesSolver.firstFindings 5 halvesComponent
      ⟨[halvesModels.1, halvesModels.2.1]⟩).toOption.join.any (fun known =>
        (tracedPasses 5 halvesComponent (known.probedVars halvesComponent false) 3 5
          known).toOption.any fun r => r.1.map (·.map (·.outcome.counts)) == [[true]]) = true := by
    rw [halvesSolver_eq]
    decide +kernel
  obtain ⟨known, hfirst, hknown⟩ := (Option.any_eq_true _ _).mp hrun
  obtain ⟨⟨log, implied, known'⟩, htraced, hlog⟩ := (Option.any_eq_true _ _).mp hknown
  have hstart := Except.toOption_eq_some.mp (Option.join_eq_some_iff.mp hfirst)
  have htraced := Except.toOption_eq_some.mp htraced
  have hledger : ∀ m ∈ [halvesModels.1, halvesModels.2.1],
      m.buffer < halvesSolver.pool.buffers.size := by decide +kernel
  obtain ⟨-, hall, hend⟩ := horderly.passes_progress hledger hstart false
  exact ⟨known, log, implied, known', hstart, htraced, beq_iff_eq.mp hlog,
    (hall _ _ _ _ _ _ htraced).1, hend 5, horderly.passes_answer hledger hstart hoptions false 5⟩

end Solver

end Cleave
