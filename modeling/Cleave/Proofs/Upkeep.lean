import Cleave.Proofs.EliminationOrders
import Cleave.Proofs.Scores

/-!
# What every operation keeps up

Some facts about a solver need no invariant of the trail or the clauses. No
operation changes the options or the decay factor. The counter of learnt long
clauses is right (`ClauseStore.Counted`). The static order ranks all variables
(`VarOrder.Ranks`). And with a decay factor that options allow, all activity
stays defined (`Activity.Sane`). One relation says that a step keeps all of these
(`Solver.Upkeep`). It holds for every function on solvers, whatever state it
starts in, and so in every state that calls lead to (`Attained.kept`).
-/

namespace Cleave

namespace ClauseStore

variable {s : ClauseStore}

/-- **The counter is right**: it is the number of learnt long clauses. -/
def Counted (s : ClauseStore) : Prop := s.learntLong = s.long.toList.countP (·.learnt)

theorem Counted.add (h : s.Counted) (first : Lit) (rest : List Lit) (learnt : Bool) :
    (s.add first rest learnt).2.Counted := by
  unfold Counted at *
  match rest with
  | [] => exact h
  | [b] => exact h
  | b :: c :: more =>
    show (if learnt then s.learntLong + 1 else s.learntLong)
      = (s.long.push ⟨first, b, c :: more, learnt⟩).toList.countP (·.learnt)
    rw [Array.toList_push, List.countP_append, h]
    cases learnt <;> rfl

/-- A clause in the place of one with the same flag is counted as that one. -/
theorem Counted.setClause (h : s.Counted) {id : ClauseId} {c : LongClause}
    (hc : c.learnt = (s.clause id).learnt) :
    ({ s with long := s.long.setIfInBounds id c } : ClauseStore).Counted := by
  have hcount : ∀ cs : List LongClause,
      cs.countP (·.learnt) = (cs.map (·.learnt)).countP fun learnt => learnt :=
    fun cs => by rw [List.countP_map]; rfl
  unfold Counted at *
  show s.learntLong = (s.long.setIfInBounds id c).toList.countP (·.learnt)
  rw [h, hcount, hcount, Array.toList_setIfInBounds, List.map_set]
  by_cases hid : id < s.long.size
  · have hlt : id < (s.long.toList.map (·.learnt)).length := by simpa using hid
    have hflag : c.learnt = (s.long.toList.map (·.learnt))[id] := by
      simp [hc, clause, Array.getD, hid]
    rw [hflag, List.set_getElem_self]
  · rw [List.set_eq_of_length_le (by simpa using hid)]

theorem counted_retainLearnt (s : ClauseStore) (keep : ClauseId → LongClause → Bool) :
    (s.retainLearnt keep).2.Counted := rfl

end ClauseStore

namespace Activity

variable {a a' : Activity}

theorem decay_raise {l : Lit} (h : a.raise l = .ok a') : a'.decay = a.decay := by
  obtain ⟨score, -, h⟩ := Except.bind_eq_ok.mp h
  obtain rfl := Except.ok.inj h
  split <;> rfl

theorem decay_raiseAll {ls : List Lit} (h : ls.foldlM Activity.raise a = .ok a') :
    a'.decay = a.decay := by
  induction ls generalizing a with
  | nil =>
    obtain rfl := Except.ok.inj h
    rfl
  | cons l ls ih =>
    rw [List.foldlM_cons] at h
    obtain ⟨a₁, hraise, h⟩ := Except.bind_eq_ok.mp h
    exact (ih h).trans (decay_raise hraise)

theorem decay_age (h : a.age = .ok a') : a'.decay = a.decay := by
  obtain ⟨bump, -, h⟩ := Except.bind_eq_ok.mp h
  obtain rfl := Except.ok.inj h
  split <;> rfl

theorem Sane.of_raiseAll (h : a.Sane) {ls : List Lit} (hr : ls.foldlM Activity.raise a = .ok a') :
    a'.Sane := by
  obtain ⟨a₁, hok, hsane, -⟩ := h.raiseAll ls
  obtain rfl := Except.ok.inj (hr.symm.trans hok)
  exact hsane

theorem Sane.of_age (h : a.Sane) (hdecay : IsFactor a.decay) (hr : a.age = .ok a') : a'.Sane := by
  obtain ⟨a₁, hok, hsane, -⟩ := h.age hdecay
  obtain rfl := Except.ok.inj (hr.symm.trans hok)
  exact hsane

end Activity

namespace Solver

variable {F F' : List Clause} {s s' s'' : Solver} {c : Component}

/-- **What a step keeps up** about options, clauses, activity and the static order
of all variables. -/
structure KeepsUp (o : Options) (st : ClauseStore) (a : Activity) (ranking : VarOrder)
    (count : Nat) (o' : Options) (st' : ClauseStore) (a' : Activity) (ranking' : VarOrder)
    (count' : Nat) : Prop where
  options : o' = o
  decay : a'.decay = a.decay
  counted : st.Counted → st'.Counted
  sane : IsFactor a.decay → a.Sane → a'.Sane
  ranks : ranking.Ranks count → ranking'.Ranks count'

/-- **A step that keeps up** what these parts of a solver need. As it speaks of
them only, a step that concerns other parts is one by reflexivity. -/
def Upkeep (s s' : Solver) : Prop :=
  KeepsUp s.options s.store s.activity s.order s.varCount
    s'.options s'.store s'.activity s'.order s'.varCount

namespace Upkeep

theorem refl (s : Solver) : Upkeep s s := ⟨rfl, rfl, id, fun _ => id, id⟩

theorem after (h' : Upkeep s' s'') (h : Upkeep s s') : Upkeep s s'' where
  options := h'.options.trans h.options
  decay := h'.decay.trans h.decay
  counted := h'.counted ∘ h.counted
  sane := fun hf hs => h'.sane (h.decay.symm ▸ hf) (h.sane hf hs)
  ranks := h'.ranks ∘ h.ranks

theorem foldl {α : Type} {f : Solver → α → Solver} (hf : ∀ s a, Upkeep s (f s a)) (as : List α)
    (s : Solver) : Upkeep s (as.foldl f s) := by
  induction as generalizing s with
  | nil => exact .refl s
  | cons a as ih => exact (ih _).after (hf s a)

/-! ## Clauses, decisions and scopes -/

theorem growTo (s : Solver) (count : Nat) : Upkeep s (s.growTo count) := by
  unfold Solver.growTo
  split
  · exact .refl s
  · rename_i hlt
    exact ⟨rfl, rfl, id, fun _ h => h.resize count, fun h => h.resize (Nat.le_of_not_le hlt)⟩

theorem storeClause (s : Solver) (first : Lit) (rest : List Lit) (learnt : Bool) :
    Upkeep s (s.storeClause first rest learnt).2 := by
  have hstore : (s.storeClause first rest learnt).2.store = (s.store.add first rest learnt).2 := by
    unfold Solver.storeClause
    simp only
    split <;> rfl
  obtain ⟨store, watches, heq⟩ := storeClause_frame s first rest learnt
  rw [heq] at hstore ⊢
  exact ⟨rfl, rfl, fun h => hstore ▸ h.add first rest learnt, fun _ => id, id⟩

theorem insertClause (s : Solver) (d : Clause) (learnt : Bool) :
    Upkeep s (s.insertClause d learnt) := by
  unfold Solver.insertClause
  simp only
  split
  · exact .refl s
  · rename_i first rest _
    split
    · exact .refl s
    · have hstored := storeClause s first rest learnt
      generalize s.storeClause first rest learnt = stored at hstored
      obtain ⟨stored, s₁⟩ := stored
      cases stored with
      | unit l =>
        simp only
        split <;> exact hstored
      | binary a b => exact hstored
      | long id =>
        simp only
        split <;> exact hstored

theorem addNormalized (s : Solver) (d : Clause) : Upkeep s (s.addNormalized d) := by
  unfold Solver.addNormalized
  simp only
  split
  · exact growTo s _
  · exact (insertClause _ _ _).after (growTo s _)

theorem addClause {d : Clause} (h : s.addClause d = .ok s') : Upkeep s s' := by
  unfold Solver.addClause at h
  split at h
  · obtain rfl := Except.ok.inj h
    exact addNormalized s d
  · cases h

theorem project (s : Solver) (vars : List Var) : Upkeep s (s.project vars) := growTo s _

theorem setProjection (s : Solver) (vars : List Var) : Upkeep s (s.setProjection vars) :=
  (project { s.growTo _ with projection := _ } vars).after (growTo s _)

theorem ofFormula (f : Formula) (options : Options) :
    Upkeep (new options) (ofFormula f options) := by
  have hclauses : Upkeep (new options)
      (f.clauses.foldl Solver.addNormalized ((new options).growTo f.numVariables)) :=
    (foldl addNormalized f.clauses _).after (growTo _ _)
  unfold Solver.ofFormula
  simp only
  split
  · exact (setProjection _ _).after hclauses
  · exact hclauses

theorem assertLearnt (s : Solver) (learnt : Learnt) : Upkeep s (s.assertLearnt learnt) := by
  unfold Solver.assertLearnt
  split <;> exact .refl s

theorem restoreFact (s : Solver) (l : Lit) : Upkeep s (s.restoreFact l) := by
  unfold Solver.restoreFact
  split
  · split <;> exact .refl s
  · exact .refl s
  · exact .refl s

theorem backtrackTo (s : Solver) (k : Nat) : Upkeep s (s.backtrackTo k) := by
  unfold Solver.backtrackTo
  split
  · exact .refl s
  · exact (foldl restoreFact s.pendingFacts
      { s with trail := s.trail.backtrackTo k, pendingFacts := [] } :)

/-! ## Propagation -/

theorem propagateBinary (s : Solver) (l : Lit) (ls : List Lit) :
    Upkeep s (s.propagateBinary l ls).2 := by
  induction ls generalizing s with
  | nil => exact .refl s
  | cons implied rest ih =>
    unfold Solver.propagateBinary
    split
    · exact ih s
    · exact .refl s
    · split
      · exact ih (s.assign implied (.binary l.neg))
      · exact ih s

theorem setClause (s : Solver) (id : ClauseId) {d : LongClause}
    (hd : d.learnt = (s.store.clause id).learnt) : Upkeep s (s.setClause id d) :=
  ⟨rfl, rfl, fun h => h.setClause hd, fun _ h => h, fun h => h⟩

theorem visit (s : Solver) (falsified : Lit) (id : ClauseId) :
    Upkeep s (s.visit falsified id).2 := by
  have hturned : ((s.store.clause id).turned falsified).learnt = (s.store.clause id).learnt := by
    unfold LongClause.turned
    split <;> rfl
  have hset := setClause s id hturned
  unfold Solver.visit
  simp only
  split
  · exact hset
  · split
    · rename_i moved hmoved
      obtain ⟨_, -, rfl⟩ := Option.map_eq_some_iff.mp hmoved
      exact setClause s id hturned
    · split
      · exact hset
      · exact hset
      · split <;> exact hset

theorem visitAll (s : Solver) (falsified : Lit) (ids : List ClauseId) (kept : Array ClauseId) :
    Upkeep s (s.visitAll falsified ids kept).2.2 := by
  induction ids generalizing s kept with
  | nil => exact .refl s
  | cons id rest ih =>
    have hvisit := visit s falsified id
    unfold Solver.visitAll
    generalize s.visit falsified id = v at hvisit
    obtain ⟨v, s₁⟩ := v
    cases v with
    | keeps => exact (ih s₁ _).after hvisit
    | moves => exact (ih s₁ _).after hvisit
    | conflicts => exact hvisit

theorem propagateLit (s : Solver) (l : Lit) : Upkeep s (s.propagateLit l).2 := by
  have hbinary := propagateBinary s l (s.store.implied l)
  unfold Solver.propagateLit
  generalize s.propagateBinary l (s.store.implied l) = r at hbinary
  obtain ⟨conflict, s₁⟩ := r
  cases conflict with
  | some conflict => exact hbinary
  | none => exact (visitAll s₁ l.neg _ #[]).after hbinary

theorem propagateWithin (fuel : Nat) (s : Solver) : Upkeep s (s.propagateWithin fuel).2 := by
  induction fuel generalizing s with
  | zero => exact .refl s
  | succ fuel ih =>
    unfold Solver.propagateWithin
    split
    · exact .refl s
    · rename_i hnext
      obtain ⟨l, -, heq⟩ := Option.map_eq_some_iff.mp hnext
      obtain ⟨rfl, rfl⟩ := Prod.mk.inj heq
      have hlit := propagateLit ({ s with
        trail := { s.trail with head := s.trail.head + 1 }
        stats := { s.stats with search :=
          { s.stats.search with propagations := s.stats.search.propagations + 1 } } }) l
      split
      · rename_i hp
        rw [hp] at hlit
        exact hlit
      · rename_i s₂ hp
        rw [hp] at hlit
        exact (ih s₂).after hlit

theorem propagate {r : Option Conflict} (h : s.propagate = (r, s')) : Upkeep s s' := by
  have hwithin := propagateWithin (s.trail.size + s.varCount) s
  unfold Solver.propagate at h
  rw [h] at hwithin
  exact hwithin

/-! ## Learning and forgetting -/

theorem learn {lesson : Lesson} {learnt : Learnt} (h : s.learn lesson = .ok (learnt, s')) :
    Upkeep s s' := by
  obtain ⟨a₁, hraise, h⟩ := Except.bind_eq_ok.mp h
  obtain ⟨a₂, hage, h⟩ := Except.bind_eq_ok.mp h
  obtain ⟨-, rfl⟩ := Prod.mk.inj (Except.ok.inj h)
  have hdecay : a₁.decay = s.activity.decay := Activity.decay_raiseAll hraise
  refine Upkeep.after (storeClause _ lesson.first lesson.rest true)
    ⟨rfl, (Activity.decay_age hage).trans hdecay, id, fun hf hsane => ?_, id⟩
  exact (hsane.of_raiseAll hraise).of_age (hdecay.symm ▸ hf) hage

theorem analyze {conflict : Conflict} {fixed : Option Lit} {o : Option Lesson}
    (h : s.analyze conflict fixed = .ok (o, s')) : Upkeep s s' := by
  unfold Solver.analyze at h
  simp only at h
  split at h
  · obtain ⟨-, rfl⟩ := Prod.mk.inj (Except.ok.inj h)
    exact .refl s
  · obtain ⟨⟨uip, r⟩, -, h⟩ := Except.bind_eq_ok.mp h
    obtain ⟨-, rfl⟩ := Prod.mk.inj (Except.ok.inj h)
    exact .refl s

theorem refute {conflict : Conflict} {learnt : Learnt} (h : s.refute conflict = .ok (learnt, s')) :
    Upkeep s s' := by
  obtain ⟨⟨o, s₁⟩, han, h⟩ := Except.bind_eq_ok.mp h
  cases o with
  | none =>
    obtain ⟨-, rfl⟩ := Prod.mk.inj (Except.ok.inj h)
    exact analyze han
  | some lesson => exact (learn h).after (analyze han)

theorem reduceLearnts (h : s.reduceLearnts = .ok s') : Upkeep s s' := by
  unfold Solver.reduceLearnts at h
  simp only at h
  split at h
  · obtain rfl := Except.ok.inj h
    exact .refl s
  · obtain ⟨a, hraise, h⟩ := Except.bind_eq_ok.mp h
    obtain rfl := Except.ok.inj h
    have hdecay : a.decay = s.activity.reset.decay := Activity.decay_raiseAll hraise
    exact ⟨rfl, hdecay, fun _ => ClauseStore.counted_retainLearnt _ _,
      fun _ _ => (Activity.sane_reset _).of_raiseAll hraise, id⟩

/-! ## A search -/

theorem handleConflict {entry : Nat} {conflict : Conflict} {a : AfterConflict}
    (h : s.handleConflict entry conflict = .ok (a, s')) : Upkeep s s' := by
  unfold Solver.handleConflict at h
  split at h
  · obtain ⟨⟨learnt, s₁⟩, href, h⟩ := Except.bind_eq_ok.mp h
    obtain ⟨-, rfl⟩ := Prod.mk.inj (Except.ok.inj h)
    exact refute href
  · obtain ⟨⟨o, s₁⟩, han, h⟩ := Except.bind_eq_ok.mp h
    have hup := analyze han
    cases o with
    | none =>
      obtain ⟨-, rfl⟩ := Prod.mk.inj (Except.ok.inj h)
      exact hup
    | some lesson =>
      simp only at h
      split at h
      · obtain ⟨⟨learnt, s₂⟩, hlearn, h⟩ := Except.bind_eq_ok.mp h
        obtain ⟨-, rfl⟩ := Prod.mk.inj (Except.ok.inj h)
        exact (learn hlearn).after hup
      · obtain ⟨⟨learnt, s₂⟩, hlearn, h⟩ := Except.bind_eq_ok.mp h
        obtain ⟨-, rfl⟩ := Prod.mk.inj (Except.ok.inj h)
        exact (assertLearnt _ _).after ((learn hlearn).after ((backtrackTo _ _).after hup))

theorem restart {entry : Nat} (h : s.restart entry = .ok s') : Upkeep s s' :=
  (reduceLearnts h).after (backtrackTo ({ s with stats := { s.stats with search :=
    { s.stats.search with restarts := s.stats.search.restarts + 1 } } }) entry :)

theorem searchWithin {entry : Nat} {budget : Option Nat} (fuel : Nat) {schedule : RestartSchedule}
    {conflicts : Nat} {r : SearchResult}
    (h : Solver.searchWithin c entry budget fuel schedule conflicts s = .ok (r, s')) :
    Upkeep s s' := by
  induction fuel generalizing s schedule conflicts with
  | zero => cases h
  | succ fuel ih =>
    unfold Solver.searchWithin at h
    split at h
    · rename_i conflict s₁ hp
      obtain ⟨⟨after, s₂⟩, hh, h⟩ := Except.bind_eq_ok.mp h
      have hup := (handleConflict hh).after (propagate hp :)
      cases after with
      | refuted learnt =>
        obtain ⟨-, rfl⟩ := Prod.mk.inj (Except.ok.inj h)
        exact hup
      | goesOn =>
        simp only at h
        split at h
        · obtain ⟨-, rfl⟩ := Prod.mk.inj (Except.ok.inj h)
          exact hup
        · split at h
          · obtain ⟨s₃, hr, h⟩ := Except.bind_eq_ok.mp h
            exact (ih h).after ((restart hr).after hup)
          · exact (ih h).after hup
    · rename_i s₁ hp
      obtain ⟨o, -, h⟩ := Except.bind_eq_ok.mp h
      cases o with
      | none =>
        obtain ⟨-, rfl⟩ := Prod.mk.inj (Except.ok.inj h)
        exact (propagate hp :)
      | some l => exact (ih h).after (propagate hp :)

theorem search {budget : Option Nat} {fuel : Nat} {r : SearchResult}
    (h : s.search fuel c budget = .ok (r, s')) : Upkeep s s' := by
  obtain ⟨-, stats, s₂, rfl, -, hrun⟩ := search_eq_ok h
  have hend : Upkeep s s₂ := by
    rcases hrun with ⟨-, -, rfl⟩ | ⟨-, hrun⟩
    · exact .refl s
    · exact (searchWithin fuel hrun :)
  exact ((backtrackTo s₂ s.level).after hend :)

theorem solve {fuel : Nat} {v : Verdict} (h : s.solve fuel = .ok (v, s')) : Upkeep s s' := by
  unfold Solver.solve at h
  split at h
  · obtain ⟨-, rfl⟩ := Prod.mk.inj (Except.ok.inj h)
    exact .refl s
  · obtain ⟨⟨r, s₁⟩, hsearch, h⟩ := Except.bind_eq_ok.mp h
    have hup := (search hsearch).after (backtrackTo s 0)
    cases r <;> · obtain ⟨-, rfl⟩ := Prod.mk.inj (Except.ok.inj h)
                  exact hup

/-! ## Implied literals -/

theorem applyRefutation {learnt : Learnt} {o : Option Clause}
    (h : s.applyRefutation learnt = .ok (o, s')) : Upkeep s s' := by
  unfold Solver.applyRefutation at h
  split at h
  · obtain ⟨-, rfl⟩ := Prod.mk.inj (Except.ok.inj h)
    exact .refl s
  · split at h
    · obtain ⟨-, rfl⟩ := Prod.mk.inj (Except.ok.inj h)
      exact .refl s
    · rename_i first _ _ _ _
      have hasserted : Upkeep s
          (if (s.trail.value first).isNone then s.assertLearnt learnt else s) := by
        split
        · exact assertLearnt s learnt
        · exact .refl s
      simp only at h
      split at h
      · rename_i s₁ hp
        obtain ⟨-, rfl⟩ := Prod.mk.inj (Except.ok.inj h)
        exact (propagate hp).after hasserted
      · rename_i conflict s₁ hp
        obtain ⟨⟨learnt', s₂⟩, href, h⟩ := Except.bind_eq_ok.mp h
        obtain ⟨-, rfl⟩ := Prod.mk.inj (Except.ok.inj h)
        exact (refute href).after ((propagate hp).after hasserted)

theorem applyProbe {candidate : Lit} {learnt : Learnt} {p : Probe}
    (h : s.applyProbe candidate learnt = .ok (p, s')) : Upkeep s s' := by
  obtain ⟨⟨o, s₁⟩, ha, h⟩ := Except.bind_eq_ok.mp h
  have hup := applyRefutation ha
  cases o with
  | some clause =>
    obtain ⟨-, rfl⟩ := Prod.mk.inj (Except.ok.inj h)
    exact hup
  | none =>
    simp only at h
    split at h <;> · obtain ⟨-, rfl⟩ := Prod.mk.inj (Except.ok.inj h)
                     exact hup

theorem probe {fuel budget : Nat} {candidate : Lit} {ledger ledger' : ModelLedger} {p : Probe}
    (h : s.probe fuel c candidate budget ledger = .ok (p, ledger', s')) : Upkeep s s' := by
  rcases probe_eq_ok h with ⟨conflict, s₁, learnt, s₂, hp, href, happly, -⟩
    | ⟨s₁, r, s₂, hp, hsearch, hend⟩
  · exact (applyProbe happly).after ((backtrackTo _ _).after ((refute href).after (propagate hp :)))
  · have hup : Upkeep s (s₂.backtrackTo s.level) :=
      (backtrackTo s₂ s.level).after ((search hsearch).after (propagate hp :))
    rcases hend with ⟨m, stats, -, -, -, rfl⟩ | ⟨learnt, -, happly, -⟩ | ⟨-, -, -, rfl⟩
    · exact hup
    · exact (applyProbe happly).after hup
    · exact hup

theorem firstModel {fuel : Nat} (rounds : Nat) {budget : Nat} {ledger ledger' : ModelLedger}
    {o : Option Clause}
    (h : Solver.firstModel fuel c rounds budget ledger s = .ok (o, ledger', s')) :
    Upkeep s s' := by
  induction rounds generalizing budget ledger s with
  | zero => cases h
  | succ rounds ih =>
    unfold Solver.firstModel at h
    split at h
    · obtain ⟨-, heq⟩ := Prod.mk.inj (Except.ok.inj h)
      obtain ⟨-, rfl⟩ := Prod.mk.inj heq
      exact .refl s
    · obtain ⟨⟨r, s₁⟩, hsearch, h⟩ := Except.bind_eq_ok.mp h
      have hup := search hsearch
      cases r with
      | satisfiable m => exact (ih h).after hup
      | refuted learnt =>
        obtain ⟨⟨o', s₂⟩, happly, h⟩ := Except.bind_eq_ok.mp h
        have hup₂ := (applyRefutation happly).after hup
        cases o' with
        | some clause =>
          obtain ⟨-, heq⟩ := Prod.mk.inj (Except.ok.inj h)
          obtain ⟨-, rfl⟩ := Prod.mk.inj heq
          exact hup₂
        | none => exact (ih h).after hup₂
      | unknown => exact (ih h).after hup

theorem probePass {fuel budget : Nat} (cs : List Lit) {pass pass' : Pass}
    {ledger ledger' : ModelLedger}
    (h : Solver.probePass fuel c budget cs pass ledger s = .ok (pass', ledger', s')) :
    Upkeep s s' := by
  induction cs generalizing pass ledger s with
  | nil =>
    obtain ⟨-, heq⟩ := Prod.mk.inj (Except.ok.inj h)
    obtain ⟨-, rfl⟩ := Prod.mk.inj heq
    exact .refl s
  | cons candidate rest ih =>
    unfold Solver.probePass at h
    split at h
    · exact ih h
    · obtain ⟨⟨p, ledger₁, s₁⟩, hprobe, h⟩ := Except.bind_eq_ok.mp h
      have hup := probe hprobe
      cases p with
      | unsatisfiable clause =>
        obtain ⟨-, heq⟩ := Prod.mk.inj (Except.ok.inj h)
        obtain ⟨-, rfl⟩ := Prod.mk.inj heq
        exact hup
      | _ => exact (ih h).after hup

theorem probeAll {fuel : Nat} {vs : List Var} (rounds : Nat) {budget : Nat}
    {ledger ledger' : ModelLedger} {implied : ImpliedLiterals}
    (h : Solver.probeAll fuel c vs rounds budget ledger s = .ok (implied, ledger', s')) :
    Upkeep s s' := by
  induction rounds generalizing budget ledger s with
  | zero => cases h
  | succ rounds ih =>
    unfold Solver.probeAll at h
    split at h
    · obtain ⟨-, heq⟩ := Prod.mk.inj (Except.ok.inj h)
      obtain ⟨-, rfl⟩ := Prod.mk.inj heq
      exact .refl s
    · obtain ⟨⟨pass, ledger₁, s₁⟩, hpass, h⟩ := Except.bind_eq_ok.mp h
      have hup := probePass _ hpass
      simp only at h
      split at h
      · obtain ⟨-, heq⟩ := Prod.mk.inj (Except.ok.inj h)
        obtain ⟨-, rfl⟩ := Prod.mk.inj heq
        exact hup
      · split at h
        · exact (ih h).after hup
        · obtain ⟨-, heq⟩ := Prod.mk.inj (Except.ok.inj h)
          obtain ⟨-, rfl⟩ := Prod.mk.inj heq
          exact hup

theorem backboneByProbing {fuel : Nat} {projected : Bool} {ledger ledger' : ModelLedger}
    {implied : ImpliedLiterals}
    (h : s.backboneByProbing fuel c ledger projected = .ok (implied, ledger', s')) :
    Upkeep s s' := by
  unfold Solver.backboneByProbing at h
  split at h
  · rename_i conflict s₁ hp
    obtain ⟨⟨learnt, s₂⟩, href, h⟩ := Except.bind_eq_ok.mp h
    obtain ⟨-, heq⟩ := Prod.mk.inj (Except.ok.inj h)
    obtain ⟨-, rfl⟩ := Prod.mk.inj heq
    exact (refute href).after (propagate hp)
  · rename_i s₁ hp
    obtain ⟨⟨o, ledger₁, s₂⟩, hfirst, h⟩ := Except.bind_eq_ok.mp h
    have hup := (firstModel _ hfirst).after (propagate hp)
    cases o with
    | some clause =>
      obtain ⟨-, heq⟩ := Prod.mk.inj (Except.ok.inj h)
      obtain ⟨-, rfl⟩ := Prod.mk.inj heq
      exact hup
    | none => exact (probeAll _ h).after hup

theorem fails {result : Except ToolError ImpliedLiterals} (h : s.Fails result s') :
    Upkeep s s' := by
  obtain ⟨conflict, s₁, learnt, hp, href, -⟩ := h
  exact (refute href).after (propagate hp)

theorem learnImplied (s : Solver) (first : Lit) (more : List Lit) :
    Upkeep s (s.learnImplied first more).2 :=
  storeClause s first _ true

theorem assertImplied (projected : Bool) (s : Solver) (l : Lit) :
    Upkeep s (s.assertImplied projected l) := by
  unfold Solver.assertImplied
  split
  · exact .refl s
  · exact (assertLearnt _ _).after (learnImplied (s.countBackbone _) l [])

theorem storeImplied (s : Solver) (d : Lit × Lit) : Upkeep s (s.storeImplied d) := by
  unfold Solver.storeImplied
  simp only
  split
  · exact .refl s
  · exact learnImplied (s.countBackbone _) _ _

theorem enterAnswer (s : Solver) (r : Renaming) (ledger : ModelLedger) (answer : EngineAnswer) :
    Upkeep s (s.enterAnswer r ledger answer).2 := by
  unfold Solver.enterAnswer
  refine List.foldlRecOn answer.models _ (motive := fun (e : ModelLedger × Solver) => Upkeep s e.2)
    (.refl s) fun e he model _ => ?_
  obtain ⟨pool, stats, heq, -⟩ := enterModel_spec r e.1 e.2 model
  show Upkeep s (enterModel r e.1 e.2 model).2
  rw [heq]
  exact he

theorem backboneByAssumptions {P : SatProcedure} {projected : Bool} {ledger ledger' : ModelLedger}
    {result : Except ToolError ImpliedLiterals}
    (h : s.backboneByAssumptions P c ledger projected = .ok (result, ledger', s')) :
    Upkeep s s' := by
  rcases backboneByAssumptions_eq_ok h with hf | ⟨s₁, hp, -, hengine⟩
  · exact fails hf
  have hup := propagate hp
  rcases hengine with ⟨e, -, rfl⟩ | ⟨request, answer, e, -, ⟨-, -, rfl⟩ | ⟨s₂, s₃, rfl, rfl, hend⟩⟩
  · exact hup
  · exact hup
  · have hstored : Upkeep s ((s₁.enterAnswer (s₁.openNumbers c) ledger answer).2.storeAnswer
        (s₁.openNumbers c) projected answer) :=
      ((foldl storeImplied _ _).after (foldl (assertImplied projected) _ _)).after
        ((enterAnswer s₁ (s₁.openNumbers c) ledger answer).after hup)
    rcases hend with hf | ⟨-, hp₄⟩
    · exact (fails hf :).after hstored
    · exact (propagate hp₄ :).after hstored

theorem impliedLiterals {P : SatProcedure} {fuel : Nat} {projected : Bool}
    {ledger ledger' : ModelLedger} {result : Except ToolError ImpliedLiterals}
    (h : s.impliedLiterals P fuel c ledger projected = .ok (result, ledger', s')) :
    Upkeep s s' := by
  rcases impliedLiterals_eq_ok h with ⟨-, -, -, stats, rfl⟩ | ⟨-, -, stats, r, s₂, hback, rfl, -⟩
  · exact .refl s
  have hend : Upkeep s s₂ := by
    unfold Solver.backbone at hback
    split at hback
    · obtain ⟨⟨implied, ledger₁, s₁⟩, hprobe, hback⟩ := Except.bind_eq_ok.mp hback
      obtain ⟨-, heq⟩ := Prod.mk.inj (Except.ok.inj hback)
      obtain ⟨-, rfl⟩ := Prod.mk.inj heq
      exact (backboneByProbing hprobe :)
    · exact (backboneByAssumptions hback :)
  exact ((backtrackTo s₂ s.level).after hend :)

/-! ## Substitution -/

theorem insertReplaced (s : Solver) (e : Equivalences) (cs : List (Clause × Bool)) :
    Upkeep s (s.insertReplaced e cs) := by
  induction cs generalizing s e with
  | nil => exact .refl s
  | cons d rest ih =>
    obtain ⟨lits, learnt⟩ := d
    unfold Solver.insertReplaced
    simp only
    split
    · exact ih s _
    · exact (ih _ _).after (insertClause s _ learnt)

theorem rebuild (s : Solver) (e : Equivalences) : Upkeep s (s.rebuild e) := by
  unfold Solver.rebuild
  refine (insertReplaced _ e s.store.exported).after ⟨rfl, rfl, fun _ => ?_, fun _ => id, id⟩
  exact (rfl : (0 : Nat) = 0)

theorem substitute {sub : Substitution} (h : s.substitute = .ok (sub, s')) : Upkeep s s' := by
  unfold Solver.substitute at h
  split at h
  · cases h
  split at h
  · obtain ⟨-, rfl⟩ := Prod.mk.inj (Except.ok.inj h)
    exact .refl s
  split at h
  · obtain ⟨-, rfl⟩ := Prod.mk.inj (Except.ok.inj h)
    exact .refl s
  rename_i e _
  split at h
  · obtain ⟨-, rfl⟩ := Prod.mk.inj (Except.ok.inj h)
    exact .refl s
  rename_i replaced e' _ _
  have hreset : ∀ t : Solver, Upkeep t { t with
      order := VarOrder.empty.resize t.varCount
      activity := t.activity.reset } := fun t =>
    ⟨rfl, rfl, id, fun _ _ => Activity.sane_reset _,
      fun _ => VarOrder.ranks_empty.resize (Nat.zero_le _)⟩
  have hrebuilt := (hreset _).after
    (rebuild { s with projection := replaced.foldl moveProjection s.projection } e')
  simp only at h
  split at h
  · rename_i hp
    obtain ⟨-, rfl⟩ := Prod.mk.inj (Except.ok.inj h)
    exact (propagate hp).after hrebuilt
  · rename_i hp
    obtain ⟨-, rfl⟩ := Prod.mk.inj (Except.ok.inj h)
    exact (propagate hp).after hrebuilt

end Upkeep

/-! ## Every state -/

theorem Call.upkeep {G : List Clause} (h : Call F s F' s') (hs : Sound G s) : Upkeep s s' := by
  cases h with
  | add hr => exact .addClause hr
  | grow count => exact .growTo s count
  | project vars => exact .project s vars
  | setProjection vars => exact .setProjection s vars
  | decide hopen hr =>
    obtain ⟨-, stats, hp⟩ := decide_eq_ok hr
    exact (Upkeep.propagate hp).after (.refl s)
  | propagate hr => exact .propagate hr
  | backtrack k => exact .backtrackTo s k
  | enter hr =>
    obtain ⟨-, -, rfl⟩ := enterScope_spec hr
    exact Upkeep.refl s
  | restore => exact Upkeep.refl s
  | search hr => exact .search hr
  | implied hcall hr => exact .impliedLiterals hr
  | solve hr => exact .solve hr
  | substitute hr => exact .substitute hr
  | order hr =>
    have hranks := ranks_computeOrder hs hr
    obtain ⟨_, _, rfl⟩ := computeOrder_eq_ok hr
    exact ⟨rfl, rfl, id, fun _ => id, fun _ => hranks⟩
  | decompose hr =>
    obtain ⟨_, rfl⟩ := decompose_eq_ok hr
    exact Upkeep.refl s
  | models pool => exact Upkeep.refl s

/-- **In every state** the counter is right, the static order ranks the variables,
the decay factor is the one of the options, and with one that options allow activity
is defined. -/
structure Kept (s : Solver) : Prop where
  counted : s.store.Counted
  ranks : s.order.Ranks s.varCount
  decay : s.activity.decay = (Activity.new s.options.activityDecay).decay
  sane : IsFactor s.activity.decay → s.activity.Sane

theorem Upkeep.kept (h : Upkeep s s') (hk : s.Kept) : s'.Kept where
  counted := h.counted hk.counted
  ranks := h.ranks hk.ranks
  decay := by rw [h.decay, h.options, hk.decay]
  sane := fun hf => h.sane (h.decay ▸ hf) (hk.sane (h.decay ▸ hf))

theorem kept_blank (options : Options) (limit : Nat) : (blank options limit).Kept :=
  ⟨rfl, VarOrder.ranks_empty, rfl, fun _ => Activity.sane_new _⟩

/-- **Every state that calls lead to is kept up**, by induction on the calls. -/
theorem Attained.kept (h : Attained s) : s.Kept := by
  induction h with
  | blank options limit => exact kept_blank options limit
  | ofFormula f options => exact (Upkeep.ofFormula f options).kept (kept_blank options _)
  | call h hcall ih => exact (hcall.upkeep h.sound).kept ih
  | implied _ hr ih => exact (Upkeep.impliedLiterals hr).kept ih

end Solver

end Cleave
