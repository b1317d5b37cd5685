import Cleave.Proofs.PrimalRows
import Cleave.Proofs.Reduction

/-!
# What can fail

Of all faults only one is left once a state is sound: an activity score that is
not a number. A result *fails by scores only* if every fault of it is this one,
and if it has none as soon as activity is sane (`FailsByScore`). The parts of a
search do, each by a lemma that composes (`FailsByScore.bind`). A conflict is
always explained, since analysis is total on sound states
(`Solver.Sound.exists_analyze`), and a restart never fails at all
(`Solver.exists_restart`).
-/

namespace Cleave

/-- **Nothing fails but a score**, and nothing at all if `safe` holds. -/
def FailsByScore {α : Type} (safe : Prop) (r : Except Fault α) : Prop :=
  ∀ e, r = .error e → e = .undefinedScore ∧ ¬ safe

namespace FailsByScore

variable {α β : Type} {safe safe' : Prop} {r : Except Fault α}

theorem ok (a : α) : FailsByScore safe (.ok a : Except Fault α) := fun _ h => nomatch h

theorem of_exists (h : ∃ a, r = .ok a) : FailsByScore safe r := by
  obtain ⟨a, rfl⟩ := h
  exact ok a

theorem mono (h : FailsByScore safe r) (hsafe : safe' → safe) : FailsByScore safe' r :=
  fun e he => (h e he).imp_right fun hno hsafe' => hno (hsafe hsafe')

theorem bind {f : α → Except Fault β} (h : FailsByScore safe r)
    (hf : ∀ a, r = .ok a → FailsByScore safe (f a)) : FailsByScore safe (r >>= f) := by
  cases r with
  | error e =>
    intro e' he'
    obtain rfl := Except.error.inj he'
    exact h e rfl
  | ok a => exact hf a rfl

/-- What has a value where `safe` holds fails by scores only, if its faults are
such. -/
theorem of_safe (hfault : ∀ e, r = .error e → e = .undefinedScore)
    (hok : safe → ∃ a, r = .ok a) : FailsByScore safe r := by
  refine fun e he => ⟨hfault e he, fun hsafe => ?_⟩
  obtain ⟨a, ha⟩ := hok hsafe
  cases he.symm.trans ha

/-- If `safe` holds there is a value. -/
theorem exists_ok (h : FailsByScore safe r) (hsafe : safe) : ∃ a, r = .ok a := by
  cases r with
  | error e => exact absurd hsafe (h e rfl).2
  | ok a => exact ⟨a, rfl⟩

end FailsByScore

namespace Activity

/-- A fault of a defined value is an undefined score. -/
theorem eq_of_defined {x : Float} {e : Fault} (h : defined x = .error e) : e = .undefinedScore := by
  unfold defined at h
  split at h
  · exact (Except.error.inj h).symm
  · cases h

theorem failsByScore_raise (a : Activity) (l : Lit) : FailsByScore a.Sane (a.raise l) := by
  refine .of_safe (fun e he => ?_) fun hsane => (hsane.raise l).imp fun _ h => h.1
  unfold Activity.raise at he
  cases hd : defined (a.score l + a.bump) with
  | error e' =>
    rw [hd] at he
    obtain rfl := Except.error.inj he
    exact eq_of_defined hd
  | ok x =>
    rw [hd] at he
    cases he

theorem failsByScore_raiseAll (a : Activity) (ls : List Lit) :
    FailsByScore a.Sane (ls.foldlM Activity.raise a) := by
  induction ls generalizing a with
  | nil => exact .ok a
  | cons l ls ih =>
    rw [List.foldlM_cons]
    refine (failsByScore_raise a l).bind fun a' h => (ih a').mono fun hsane => ?_
    obtain ⟨a₁, hok, hsane', -⟩ := hsane.raise l
    obtain rfl := Except.ok.inj (h.symm.trans hok)
    exact hsane'

theorem failsByScore_age (a : Activity) : FailsByScore (IsFactor a.decay ∧ a.Sane) a.age := by
  refine .of_safe (fun e he => ?_) fun hsafe => (hsafe.2.age hsafe.1).imp fun _ h => h.1
  unfold Activity.age at he
  cases hd : defined (a.bump / a.decay) with
  | error e' =>
    rw [hd] at he
    obtain rfl := Except.error.inj he
    exact eq_of_defined hd
  | ok x =>
    rw [hd] at he
    cases he

end Activity

namespace Solver

variable {F : List Clause} {s s' : Solver} {c : Component}

/-- **Activity that never fails**: the decay factor is one that options allow, and
all scores are defined for good. -/
def Safe (s : Solver) : Prop := IsFactor s.activity.decay ∧ s.activity.Sane

theorem Upkeep.safe (h : Upkeep s s') (hsafe : s.Safe) : s'.Safe :=
  ⟨h.decay.symm ▸ hsafe.1, h.sane hsafe.1 hsafe.2⟩

/-! ## Conflicts -/

theorem failsByScore_learn (s : Solver) (lesson : Lesson) :
    FailsByScore s.Safe (s.learn lesson) := by
  unfold learn
  refine ((Activity.failsByScore_raiseAll _ _).mono And.right).bind fun a ha => ?_
  refine ((Activity.failsByScore_age a).mono fun hsafe => ?_).bind fun a' _ => .ok _
  have hdecay : a.decay = s.activity.decay := Activity.decay_raiseAll ha
  exact ⟨hdecay.symm ▸ hsafe.1, hsafe.2.of_raiseAll ha⟩

/-- **Every conflict is explained**: analysis always has a result. -/
theorem Sound.exists_analyze {conflict : Conflict} (hs : Sound F s) (href : Refutes F s conflict)
    (fixed : Option Lit) : ∃ r, s.analyze conflict fixed = .ok r := by
  by_cases h0 : s.conflictLevel conflict = 0
  · refine ⟨(none, s.setConflicted), ?_⟩
    unfold analyze
    simp only
    rw [if_pos h0]
    rfl
  · obtain ⟨lesson, hok, -⟩ := exists_lesson hs href h0 fixed
    exact ⟨_, hok⟩

theorem Sound.failsByScore_refute {conflict : Conflict} (hs : Sound F s)
    (href : Refutes F s conflict) : FailsByScore s.Safe (s.refute conflict) := by
  unfold refute
  refine (FailsByScore.of_exists (hs.exists_analyze href _)).bind fun r han => ?_
  have hup := Upkeep.analyze han
  obtain ⟨o, s₁⟩ := r
  cases o with
  | none => exact .ok _
  | some lesson => exact (failsByScore_learn s₁ lesson).mono hup.safe

theorem Sound.failsByScore_handleConflict {conflict : Conflict} (hs : Sound F s)
    (href : Refutes F s conflict) (entry : Nat) :
    FailsByScore s.Safe (s.handleConflict entry conflict) := by
  unfold handleConflict
  split
  · exact (hs.failsByScore_refute href).bind fun _ _ => .ok _
  · refine (FailsByScore.of_exists (hs.exists_analyze href none)).bind fun r han => ?_
    have hup := Upkeep.analyze han
    obtain ⟨o, s₁⟩ := r
    cases o with
    | none => exact .ok _
    | some lesson =>
      simp only
      split
      · exact ((failsByScore_learn s₁ lesson).mono hup.safe).bind fun _ _ => .ok _
      · refine ((failsByScore_learn _ lesson).mono fun hsafe => ?_).bind fun _ _ => .ok _
        exact ((Upkeep.backtrackTo s₁ lesson.backjump).after hup).safe hsafe

/-- A reduction never fails. -/
theorem exists_reduceLearnts (s : Solver) : ∃ s', s.reduceLearnts = .ok s' := by
  rcases Nat.lt_or_ge s.learntLimit s.store.learntLong with hover | hle
  · exact (reduceLearnts_eq_ok hover).imp' _ fun _ h => h
  · refine ⟨s, ?_⟩
    unfold reduceLearnts
    rw [if_pos hle]
    rfl

theorem exists_restart (s : Solver) (entry : Nat) : ∃ s', s.restart entry = .ok s' :=
  exists_reduceLearnts _

/-! ## Decisions -/

theorem failsByScore_bestVar {κ : Type} {safe : Prop} (better : κ → κ → Bool)
    {score : Var → Except Fault κ} (hscore : ∀ v, FailsByScore safe (score v)) (vs : List Var)
    (best : Option (Var × κ)) : FailsByScore safe (bestVar better score vs best) := by
  induction vs generalizing best with
  | nil => exact .ok _
  | cons v rest ih =>
    unfold bestVar
    refine (hscore v).bind fun value _ => ?_
    split
    · exact ih _
    · exact ih _

theorem exists_minFillVar (hs : Sound F s) (hvars : ∀ v ∈ c.vars, v.index < s.varCount) :
    ∃ o, s.minFillVar c = .ok o := by
  unfold minFillVar
  simp only
  split
  · exact ⟨none, rfl⟩
  · obtain ⟨graph, hgraph⟩ := hs.exists_primalGraph
      (c := Component.ofLists (s.openVars c) c.clauses) (fun v hv =>
        hvars v (List.mem_filter.mp (Component.mem_vars_ofLists.mp hv)).1) .arityClassed
    rw [hgraph]
    simp only [bind, Except.bind]
    split
    · exact ⟨_, rfl⟩
    · exact ⟨_, rfl⟩

/-- **A decision fails by scores only**, whatever the heuristic. -/
theorem failsByScore_nextDecision (hs : Sound F s) (hvars : ∀ v ∈ c.vars, v.index < s.varCount) :
    FailsByScore s.Safe (s.nextDecision c) := by
  refine FailsByScore.bind ?_ fun _ _ => .ok _
  unfold nextVar
  split
  · exact .ok _
  · refine failsByScore_bestVar _ (fun v => FailsByScore.bind ?_ fun _ _ => .ok _) _ none
    refine .of_safe (fun e he => Activity.eq_of_defined he) fun hsafe => ?_
    exact ⟨_, hsafe.2.varScore v⟩
  · exact failsByScore_bestVar _ (fun _ => .ok _) _ none
  · exact failsByScore_bestVar _ (fun _ => .ok _) _ none
  · exact .of_exists (exists_minFillVar hs hvars)

end Solver

end Cleave
