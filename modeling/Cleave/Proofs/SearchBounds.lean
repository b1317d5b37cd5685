import Cleave.Proofs.Assumptions
import Cleave.Proofs.Termination

/-!
# How long a search takes

From the turns of its loop to the whole call. A search without a budget ends as
soon as its schedule outgrows the number of turns it can take without a restart,
and so does solving (`Solver.Attained.search_terminates`). With a budget it ends
whatever the schedule: every decision takes one more variable of the component,
and what conflicts give back of them is bounded by the budget.

The schedule is a parameter (`Solver.searchUnder`), and the call itself takes the
one of the options (`Solver.search_eq_searchUnder`). Whether activity can fail is a
matter of the decay factor only (`Solver.Attained.safe`).
-/

namespace Cleave

/-! ## Open variables -/

theorem length_filter_lt {α : Type} {p q : α → Bool} {xs : List α}
    (himp : ∀ x ∈ xs, q x = true → p x = true) {x : α} (hx : x ∈ xs) (hp : p x = true)
    (hq : q x = false) : (xs.filter q).length < (xs.filter p).length := by
  have heq : xs.filter q = (xs.filter p).filter q := by
    rw [List.filter_filter]
    refine List.filter_congr fun y hy => ?_
    cases hqy : q y with
    | false => rfl
    | true => simp [himp y hy hqy]
  rw [heq, List.length_filter_lt_length_iff_exists]
  exact ⟨x, List.mem_filter.mpr ⟨hx, hp⟩, by simp [hq]⟩

/-- A decay factor that options allow. -/
def Options.Decays (o : Options) : Prop := 0.0 < o.activityDecay ∧ o.activityDecay < 1.0

instance (o : Options) : Decidable o.Decays :=
  inferInstanceAs (Decidable (0.0 < o.activityDecay ∧ o.activityDecay < 1.0))

/-- Options that are not refused have such a factor. -/
theorem Options.decays_of_check {o : Options} {isThere : String → Bool}
    (h : o.check isThere = .ok ()) : o.Decays := by
  by_contra hno
  have hbad : (!(decide (o.activityDecay > 0.0) && decide (o.activityDecay < 1.0))) = true := by
    rw [Bool.not_eq_true', Bool.eq_false_iff]
    exact fun hboth => hno (by simpa [Decays] using hboth)
  have hthrow : ∀ (e : OptionsError) (f : PUnit → Except OptionsError Unit),
      (throw e >>= f) = .error e := fun _ _ => rfl
  unfold check at h
  simp only [hbad, if_true, hthrow] at h
  -- this option is refused, unless another one is before
  repeat' split at h
  all_goals cases h

namespace Solver

section

variable {F : List Clause} {b s s' : Solver} {c : Component}

/-- Of the variables that stay assigned no more get open. -/
theorem length_openVars_le
    (h : ∀ v, s.trail.isAssigned v = true → s'.trail.isAssigned v = true) (c : Component) :
    (s'.openVars c).length ≤ (s.openVars c).length := by
  refine (List.monotone_filter_right c.vars fun v hv => ?_).length_le
  by_contra hno
  have hassigned := h v (by simpa using hno)
  simp [hassigned] at hv

theorem length_openVars_lt
    (h : ∀ v, s.trail.isAssigned v = true → s'.trail.isAssigned v = true) {v : Var}
    (hv : v ∈ c.vars) (hopen : s.trail.isAssigned v = false)
    (hclosed : s'.trail.isAssigned v = true) :
    (s'.openVars c).length < (s.openVars c).length := by
  refine length_filter_lt (fun w _ hw => ?_) hv (by simp [hopen]) (by simp [hclosed])
  by_contra hno
  have hassigned := h w (by simpa using hno)
  simp [hassigned] at hw

/-- More literals assign more variables. -/
theorem Sound.assigned_of_subset (hs : Sound F s) (hs' : Sound F s')
    (h : s.trail.lits.toList ⊆ s'.trail.lits.toList) (v : Var)
    (hv : s.trail.isAssigned v = true) : s'.trail.isAssigned v = true := by
  obtain ⟨l, hl, hvar⟩ := hs.trail.isAssigned_iff.mp hv
  exact hs'.trail.isAssigned_iff.mpr ⟨l, h hl, hvar⟩

end

section

variable {σ : Type} {tick : σ → Bool × σ} {c : Component} {entry : Nat} {budget : Option Nat}
variable {F : List Clause} {b s s' : Solver} {safe : Prop} {p q r : Standing σ} {e : Event}

/-- **A decision takes one more variable** of the component. -/
theorem Engaged.openVars_decision (h : Engaged F b entry safe p.solver) (hb : b.level ≤ entry)
    (hvars : ∀ v ∈ c.vars, v.index < b.varCount)
    (ht : Takes tick c entry budget p (.goesOn .decision q)) :
    (q.solver.openVars c).length < (p.solver.openVars c).length := by
  have hq := (h.next hb hvars ht).searching.sound
  cases ht with
  | @decision s₁ l hp hnext =>
    obtain ⟨hdrawn, -, -⟩ := propagate_spec h.searching.sound hp
    obtain ⟨hl, hopen⟩ := (nextDecision_spec hnext).1 l rfl
    have hlits : (s₁.countDecision.openDecision l).trail.lits.toList
        = s₁.trail.lits.toList ++ [l] := Trail.lits_decided _ _
    have hgrow : (s₁.openVars c).length ≤ (p.solver.openVars c).length :=
      length_openVars_le (h.searching.sound.assigned_of_subset hdrawn.sound
        hdrawn.grown.lits.subset) c
    refine Nat.lt_of_lt_of_le (length_openVars_lt (hdrawn.sound.assigned_of_subset hq ?_) hl hopen
      (hq.trail.isAssigned_iff.mpr ⟨l, ?_, rfl⟩)) hgrow
    · exact fun m hm => hlits ▸ List.mem_append_left _ hm
    · exact hlits ▸ List.mem_append_right _ List.mem_cons_self

/-! ## Budgets -/

theorem openVars_length_le (s : Solver) (c : Component) :
    (s.openVars c).length ≤ c.vars.length :=
  List.length_filter_le _ _

/-- **With a budget a search ends**, by induction on the conflicts that are left
and the variables that are open. -/
theorem Engaged.settles_budget {limit : Nat} (h : Engaged F b entry safe p.solver)
    (hb : b.level ≤ entry) (hvars : ∀ v ∈ c.vars, v.index < b.varCount)
    {left : Nat} (hleft : p.conflicts + left + 1 = max limit 1) {n : Nat}
    (hn : left * (c.vars.length + 1) + (p.solver.openVars c).length < n) :
    SettlesBy n safe fun fuel => turns tick c entry (some limit) fuel p := by
  induction n generalizing p left with
  | zero => exact absurd hn (Nat.not_lt_zero _)
  | succ n ih =>
    refine h.settlesBy_succ hvars fun e q hturn => ?_
    have ht := takes_of_turn hturn
    have hq := h.next hb hvars ht
    -- after a conflict that does not use up the budget all variables may be open
    have hmet : ¬ (some limit).any (· ≤ p.conflicts + 1) = true →
        q.conflicts = p.conflicts + 1 →
        SettlesBy n safe fun fuel => turns tick c entry (some limit) fuel q := by
      intro hbudget hconflicts
      have hlow : ¬ limit ≤ p.conflicts + 1 := by simpa using hbudget
      obtain ⟨left, rfl⟩ : ∃ k, left = k + 1 := ⟨left - 1, by omega⟩
      have hleft' : q.conflicts + left + 1 = max limit 1 := by omega
      refine ih hq hleft' ?_
      have hopen := openVars_length_le q.solver c
      rw [Nat.succ_mul] at hn
      omega
    cases ht with
    | conflict _ _ hbudget _ => exact hmet hbudget rfl
    | restart _ _ hbudget _ _ => exact hmet hbudget rfl
    | decision =>
      have hopen := h.openVars_decision hb hvars (takes_of_turn hturn)
      exact ih hq hleft (by omega)

/-! ## What was counted -/

/-- **What a turn counts**: a decision or a conflict. -/
theorem Takes.counts (ht : Takes tick c entry budget p (.goesOn e q)) :
    (e = .decision ∧ q.conflicts = p.conflicts
        ∧ q.solver.counts = (p.solver.counts.1 + 1, p.solver.counts.2))
      ∨ (q.conflicts = p.conflicts + 1 ∧ ¬ budget.any (· ≤ p.conflicts + 1) = true
        ∧ q.solver.counts = (p.solver.counts.1, p.solver.counts.2 + 1)) := by
  cases ht with
  | decision hp _ =>
    refine Or.inl ⟨rfl, rfl, ?_⟩
    rw [← counts_propagate hp]
    rfl
  | conflict hp hh hbudget _ =>
    refine Or.inr ⟨rfl, hbudget, (counts_handleConflict hh).trans ?_⟩
    rw [← counts_propagate hp]
    rfl
  | restart hp hh hbudget _ hr =>
    refine Or.inr ⟨rfl, hbudget, (counts_restart hr).trans ((counts_handleConflict hh).trans ?_)⟩
    rw [← counts_propagate hp]
    rfl

/-- **Standings that a search passes**, one turn after the other. -/
inductive Passes (tick : σ → Bool × σ) (c : Component) (entry : Nat) (budget : Option Nat)
    (p : Standing σ) : Standing σ → Prop where
  | here : Passes tick c entry budget p p
  | turn {q r : Standing σ} {e : Event} (h : Passes tick c entry budget p q)
      (ht : turn tick c entry budget q = .ok (.goesOn e r)) : Passes tick c entry budget p r

theorem Passes.engaged (hpq : Passes tick c entry budget p q)
    (h : Engaged F b entry safe p.solver) (hb : b.level ≤ entry)
    (hvars : ∀ v ∈ c.vars, v.index < b.varCount) : Engaged F b entry safe q.solver := by
  induction hpq with
  | here => exact h
  | turn _ ht ih => exact ih.next hb hvars (takes_of_turn ht)

/-- **Between two conflicts** every decision is about another variable, by
induction on the turns. -/
theorem Passes.decisions_le (hpq : Passes tick c entry budget p q)
    (h : Engaged F b entry safe p.solver) (hb : b.level ≤ entry)
    (hvars : ∀ v ∈ c.vars, v.index < b.varCount) :
    p.solver.counts.2 ≤ q.solver.counts.2 ∧ (q.solver.counts.2 = p.solver.counts.2 →
      q.solver.counts.1 + (q.solver.openVars c).length
        ≤ p.solver.counts.1 + (p.solver.openVars c).length) := by
  induction hpq with
  | here => exact ⟨Nat.le_refl _, fun _ => Nat.le_refl _⟩
  | @turn q r e hpq ht ih =>
    have ht := takes_of_turn ht
    obtain ⟨hle, hsame⟩ := ih
    rcases ht.counts with ⟨rfl, -, hcounts⟩ | ⟨-, -, hcounts⟩
    · rw [hcounts]
      refine ⟨hle, fun heq => ?_⟩
      have hopen := (hpq.engaged h hb hvars).openVars_decision hb hvars ht
      have := hsame heq
      omega
    · rw [hcounts]
      exact ⟨Nat.le_succ_of_le hle, fun heq => by omega⟩

/-- **No more conflicts than the budget** allows, and one at most if it allows
none, by induction on the fuel. -/
theorem turns_conflicts {limit : Nat} (fuel : Nat) {r : SearchResult}
    (hlow : p.conflicts < max limit 1)
    (h : turns tick c entry (some limit) fuel p = .ok (r, s')) :
    s'.conflictCount + p.conflicts ≤ p.solver.conflictCount + max limit 1 := by
  induction fuel generalizing p with
  | zero => cases h
  | succ fuel ih =>
    obtain ⟨t, hturn, h⟩ := Except.bind_eq_ok.mp h
    have ht := takes_of_turn hturn
    cases t with
    | ends r s =>
      obtain ⟨-, rfl⟩ := Prod.mk.inj (Except.ok.inj h)
      have hcount : s.conflictCount ≤ p.solver.conflictCount + 1 := by
        cases ht with
        | refuted hp hh =>
          have hmet := (counts_handleConflict hh).trans (congrArg
            (fun n => (n.1, n.2 + 1)) (counts_propagate hp))
          exact (congrArg Prod.snd hmet).le
        | exhausted hp hh _ =>
          have hmet := (counts_handleConflict hh).trans (congrArg
            (fun n => (n.1, n.2 + 1)) (counts_propagate hp))
          exact (congrArg Prod.snd hmet).le
        | model hp _ =>
          exact Nat.le_succ_of_le (congrArg Prod.snd (counts_propagate hp)).le
      omega
    | goesOn e q =>
      have hstep : q.solver.counts.2 + p.conflicts = p.solver.counts.2 + q.conflicts
          ∧ q.conflicts < max limit 1 := by
        rcases ht.counts with ⟨-, hconflicts, hcounts⟩ | ⟨hconflicts, hbudget, hcounts⟩
        · rw [hcounts, hconflicts]
          exact ⟨rfl, hlow⟩
        · have hlimit : ¬ limit ≤ p.conflicts + 1 := by simpa using hbudget
          rw [hcounts, hconflicts]
          exact ⟨by omega, by omega⟩
      have hrest := ih hstep.2 h
      unfold conflictCount at *
      omega

end

/-! ## Whole calls -/

section

variable {σ : Type} {tick : σ → Bool × σ} {start : σ} {c : Component} {budget : Option Nat}
variable {F : List Clause} {s s' : Solver} {safe : Prop}

/-- Where a search of a component starts. -/
def standing (s : Solver) (c : Component) (start : σ) : Standing σ :=
  ⟨start, 0, { s with
    scope := s.scopeOf c
    stats := { s.stats with search :=
      { s.stats.search with searches := s.stats.search.searches + 1 } } }⟩

/-- **A search under any schedule.** -/
def searchUnder (tick : σ → Bool × σ) (start : σ) (s : Solver) (fuel : Nat) (c : Component)
    (budget : Option Nat) : Except Fault (SearchResult × Solver) := do
  s.requireVars c
  let (r, s') ←
    if s.conflicted then .ok (.refuted .empty, (s.standing c start).solver)
    else turns tick c s.level budget fuel (s.standing c start)
  return (r, (s'.backtrackTo s.level).restoreScope s.scope.current)

/-- Solving under any schedule. -/
def solveUnder (tick : σ → Bool × σ) (start : σ) (s : Solver) (fuel : Nat) :
    Except Fault (Verdict × Solver) := do
  if s.conflicted then return (.unsatisfiable, s)
  let s := s.backtrackTo 0
  match ← s.searchUnder tick start fuel s.initComponent none with
  | (.satisfiable model, s) => return (.satisfiable, { s with pool := s.pool.free model })
  | (.refuted _, s) => return (.unsatisfiable, s)
  | (.unknown, s) => return (.unknown, s)

/-- **The search itself** is the one under the schedule of the options. -/
theorem search_eq_searchUnder (s : Solver) (fuel : Nat) (c : Component) (budget : Option Nat) :
    s.search fuel c budget
      = s.searchUnder RestartSchedule.tick (.ofOptions s.options) fuel c budget := by
  have hloop := searchWithin_eq_turns c s.level budget fuel (.ofOptions s.options) 0
    (s.standing c (RestartSchedule.ofOptions s.options)).solver
  unfold searchUnder
  rw [show s.standing c (RestartSchedule.ofOptions s.options) = ⟨.ofOptions s.options, 0,
    (s.standing c (RestartSchedule.ofOptions s.options)).solver⟩ from rfl, ← hloop]
  unfold search enterScope
  show (s.requireVars c >>= _) >>= _ = s.requireVars c >>= _
  cases s.requireVars c with
  | error e => rfl
  | ok _ => rfl

theorem solve_eq_solveUnder (s : Solver) (fuel : Nat) :
    s.solve fuel = s.solveUnder RestartSchedule.tick (.ofOptions s.options) fuel := by
  have hoptions : (s.backtrackTo 0).options = s.options := (Upkeep.backtrackTo s 0).options
  unfold solve solveUnder
  simp only
  rewrite [search_eq_searchUnder, hoptions]
  rfl

/-- A search starts engaged. -/
theorem Sound.engaged_standing (hs : Sound F s) (hsafe : safe → s.Safe) (c : Component)
    (start : σ) : Engaged F s s.level safe (s.standing c start).solver :=
  ⟨Searching.start hs (.refl hs) (fun _ hb => ⟨0, Nat.le_refl 0, hb⟩) _ _, hsafe⟩

/-- The call ends if its turns do. -/
theorem settlesBy_of_turns {n : Nat} (hvars : ∀ v ∈ c.vars, v.index < s.varCount)
    (h : SettlesBy n safe fun fuel => turns tick c s.level budget fuel (s.standing c start)) :
    SettlesBy n safe fun fuel => s.searchUnder tick start fuel c budget := by
  unfold searchUnder
  rw [requireVars_iff.mpr hvars]
  by_cases hconf : s.conflicted = true
  · simp only [if_pos hconf]
    exact (SettlesBy.const (.ok _)).mono (Nat.zero_le _)
  · simp only [if_neg hconf]
    exact h.bind fun _ => .ok _

/-- **A search ends** under every schedule that outgrows its bound. -/
theorem Sound.settles_searchUnder (hs : Sound F s) (hsafe : safe → s.Safe)
    (hvars : ∀ v ∈ c.vars, v.index < s.varCount) (hgrows : Outgrows tick start s.turnBound) :
    Settles safe fun fuel => s.searchUnder tick start fuel c budget := by
  obtain ⟨n, hn⟩ := Engaged.settles hgrows (hs.engaged_standing hsafe c start) (Nat.le_refl _)
    hvars rfl
  exact ⟨n, settlesBy_of_turns hvars hn⟩

/-- **A search with a budget ends** after a known number of turns. -/
theorem Sound.settlesBy_searchUnder (hs : Sound F s) (hsafe : safe → s.Safe)
    (hvars : ∀ v ∈ c.vars, v.index < s.varCount) (limit : Nat) :
    SettlesBy (max limit 1 * (c.vars.length + 1)) safe
      fun fuel => s.searchUnder tick start fuel c (some limit) := by
  have hleft : (s.standing c start).conflicts + (max limit 1 - 1) + 1 = max limit 1 := by
    show 0 + (max limit 1 - 1) + 1 = _
    omega
  refine settlesBy_of_turns hvars ((hs.engaged_standing hsafe c start).settles_budget
    (Nat.le_refl _) hvars hleft ?_)
  · have hopen := openVars_length_le (s.standing c start).solver c
    obtain ⟨k, hk⟩ : ∃ k, max limit 1 = k + 1 := ⟨max limit 1 - 1, by omega⟩
    rw [hk, Nat.succ_mul, Nat.add_sub_cancel]
    omega

theorem Sound.settles_solveUnder (hs : Sound F s) (hsafe : safe → s.Safe)
    (hgrows : Outgrows tick start s.turnBound) :
    Settles safe fun fuel => s.solveUnder tick start fuel := by
  unfold solveUnder
  by_cases hconf : s.conflicted = true
  · simp only [if_pos hconf]
    exact ⟨0, .const (.ok _)⟩
  · simp only [if_neg hconf]
    have hcount : (s.backtrackTo 0).varCount = s.varCount := by
      rcases Nat.eq_zero_or_pos s.level with h0 | hpos
      · rw [backtrackTo_of_le (Nat.le_of_eq h0)]
      · exact (backtrackTo_spec hs hpos).2.varCount
    have hgrows' : Outgrows tick start (s.backtrackTo 0).turnBound := by
      unfold turnBound
      rw [hcount]
      exact hgrows
    obtain ⟨n, hn⟩ : Settles safe fun fuel => (s.backtrackTo 0).searchUnder tick start fuel
        (s.backtrackTo 0).initComponent none :=
      (hs.backtrackTo 0).settles_searchUnder
        (fun hs => (Upkeep.backtrackTo s 0).safe (hsafe hs))
        (fun _ hv => index_lt_of_mem_initComponent hv) hgrows'
    refine ⟨n, hn.bind fun r => ?_⟩
    obtain ⟨r, s'⟩ := r
    cases r <;> exact .ok _

end

/-! ## Every state -/

variable {s s' : Solver} {c : Component}

/-- With a decay factor that options allow, activity never fails. -/
theorem Attained.safe (h : Attained s) (hdecay : s.options.Decays) : s.Safe := by
  have hfactor : IsFactor s.options.activityDecay := isFactor_of_lt hdecay.1 hdecay.2
  have hkept : s.activity.decay = s.options.activityDecay := by
    rw [h.kept.decay]
    show (if s.options.activityDecay.isNaN then 0.95 else s.options.activityDecay) = _
    rw [hfactor.isScore.not_isNaN]
    rfl
  have hsafe : IsFactor s.activity.decay := hkept.symm ▸ hfactor
  exact ⟨hsafe, h.kept.sane hsafe⟩

/-- The conflicts that a search with a budget meets. -/
theorem search_conflicts {fuel limit : Nat} {r : SearchResult}
    (h : s.search fuel c (some limit) = .ok (r, s')) :
    s'.stats.search.conflicts ≤ s.stats.search.conflicts + max limit 1 := by
  obtain ⟨-, stats, s₂, rfl, hstats, hrun⟩ := search_eq_ok h
  have hback : ((s₂.backtrackTo s.level).restoreScope s.scope.current).conflictCount
      = s₂.conflictCount := congrArg Prod.snd (counts_congr (stats_backtrackTo s₂ s.level))
  show ((s₂.backtrackTo s.level).restoreScope s.scope.current).conflictCount ≤ _
  rw [hback, ← hstats]
  rcases hrun with ⟨-, -, rfl⟩ | ⟨-, hrun⟩
  · exact Nat.le_add_right _ _
  · rw [searchWithin_eq_turns] at hrun
    exact turns_conflicts fuel (Nat.lt_of_lt_of_le Nat.zero_lt_one (Nat.le_max_right _ _)) hrun

/-- **Under options that are not refused** a search within a budget has an answer. -/
theorem Attained.search_answers (h : Attained s) (hvars : ∀ v ∈ c.vars, v.index < s.varCount)
    {isThere : String → Bool} (hcheck : s.options.check isThere = .ok ()) (limit : Nat) :
    ∃ r, ∀ fuel, max limit 1 * (c.vars.length + 1) ≤ fuel →
      s.search fuel c (some limit) = .ok r := by
  simp only [search_eq_searchUnder]
  exact (h.sound.settlesBy_searchUnder h.safe hvars limit).exists_ok
    (Options.decays_of_check hcheck)

/-- **Searches end** in every state that calls lead to, for every component,
whatever the heuristic.

Without a budget a search ends, and so does solving, under every schedule that
outgrows the number of turns between two restarts; the schedule of the options does
if its intervals come to exceed that number. With a budget a search ends in any
case, after no more conflicts than the budget and one at least, and between two
conflicts it takes no more decisions than the component has variables. The answer
is no fault if the decay factor is one that options allow (`Options.decays_of_check`). -/
theorem Attained.search_terminates (h : Attained s) (hvars : ∀ v ∈ c.vars, v.index < s.varCount) :
    (∀ {σ : Type} (tick : σ → Bool × σ) (start : σ), Outgrows tick start s.turnBound →
        Settles s.options.Decays (fun fuel => s.searchUnder tick start fuel c none)
          ∧ Settles s.options.Decays (fun fuel => s.solveUnder tick start fuel))
      ∧ (∀ k, (∀ j, k ≤ j → RestartSchedule.Exceeds
            ((RestartSchedule.ofOptions s.options).intervalAfter j) s.turnBound) →
        Settles s.options.Decays (fun fuel => s.search fuel c none)
          ∧ Settles s.options.Decays (fun fuel => s.solve fuel))
      ∧ (∀ limit, SettlesBy (max limit 1 * (c.vars.length + 1)) s.options.Decays
            (fun fuel => s.search fuel c (some limit))
          ∧ ∀ fuel r s', s.search fuel c (some limit) = .ok (r, s') →
            s'.stats.search.conflicts ≤ s.stats.search.conflicts + max limit 1)
      ∧ ∀ budget p q,
        Passes RestartSchedule.tick c s.level budget (s.standing c (.ofOptions s.options)) p →
        Passes RestartSchedule.tick c s.level budget p q →
        q.solver.stats.search.conflicts = p.solver.stats.search.conflicts →
          q.solver.stats.search.decisions ≤ p.solver.stats.search.decisions + c.vars.length := by
  have hs := h.sound
  have hgeneral : ∀ {σ : Type} (tick : σ → Bool × σ) (start : σ),
      Outgrows tick start s.turnBound →
        Settles s.options.Decays (fun fuel => s.searchUnder tick start fuel c none)
          ∧ Settles s.options.Decays (fun fuel => s.solveUnder tick start fuel) :=
    fun tick start hgrows => ⟨hs.settles_searchUnder h.safe hvars hgrows,
      hs.settles_solveUnder h.safe hgrows⟩
  refine ⟨hgeneral, fun k hexceeds => ?_, fun limit => ⟨?_, fun fuel r s' => search_conflicts⟩,
    fun budget p q hp hpq hsame => ?_⟩
  · simp only [search_eq_searchUnder, solve_eq_solveUnder]
    exact hgeneral _ _ (RestartSchedule.outgrows hexceeds)
  · simp only [search_eq_searchUnder]
    exact hs.settlesBy_searchUnder h.safe hvars limit
  · have hstart : Engaged [[]] s s.level False
        (s.standing c (RestartSchedule.ofOptions s.options)).solver :=
      hs.engaged_standing (fun hno => hno.elim) c _
    have hengaged := hp.engaged hstart (Nat.le_refl _) hvars
    have hle := (hpq.decisions_le hengaged (Nat.le_refl _) hvars).2 hsame
    have hopen := openVars_length_le p.solver c
    unfold counts at hle
    omega

/-- Options that double the first interval beyond all numbers. -/
def steep : Options := { restartGrowth := 1e308 }

/-- After its first restart, a search under these options restarts no more. -/
theorem Attained.search_terminates_steep : ∃ (s : Solver) (n : Nat) (r : SearchResult × Solver),
    Attained s ∧ s.options.restartGrowth = 1e308
      ∧ ∀ fuel, n ≤ fuel → s.search fuel s.initComponent none = .ok r := by
  have hattained : Attained (Solver.ofFormula refutedPair steep) := .ofFormula _ _
  have hstate : (Solver.ofFormula refutedPair steep).varCount = 2
      ∧ (Solver.ofFormula refutedPair steep).options = steep := by
    rw [ofFormula_of_ascending (f := refutedPair) (by decide) rfl]
    exact ⟨by decide +kernel, rfl⟩
  have hbound : (Solver.ofFormula refutedPair steep).turnBound = 64 := by
    unfold turnBound
    rw [hstate.1]
    decide
  have hinterval : ∀ k, (RestartSchedule.ofOptions steep).intervalAfter (k + 1) = 1.0 / 0.0 := by
    intro k
    induction k with
    | zero => decide +kernel
    | succ k ih =>
      show (RestartSchedule.ofOptions steep).intervalAfter (k + 1) * 1e308 = _
      rw [ih]
      decide +kernel
  obtain ⟨-, hsearch, -⟩ := hattained.search_terminates
    (c := (Solver.ofFormula refutedPair steep).initComponent)
    fun _ hv => index_lt_of_mem_initComponent hv
  obtain ⟨⟨n, hn⟩, -⟩ := hsearch 1 fun j hj => by
    obtain ⟨k, rfl⟩ := Nat.exists_eq_add_of_le' hj
    rw [hstate.2, hbound, hinterval]
    decide +kernel
  have hcheck : (Solver.ofFormula refutedPair steep).options.check (fun _ => true) = .ok () := by
    rw [hstate.2]
    decide +kernel
  obtain ⟨r, hr⟩ := hn.exists_ok (Options.decays_of_check hcheck)
  exact ⟨_, n, r, hattained, by rw [hstate.2]; rfl, hr⟩

end Solver

end Cleave
