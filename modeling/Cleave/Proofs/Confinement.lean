import Cleave.Proofs.Assumptions
import Cleave.Proofs.RegionModels
import Cleave.Proofs.ScopeTable

/-!
# Work on a component stays inside it

A search for a component, and the computation of its implied literals, assign
variables of the component only. Propagation is restricted to them by the
scope, decisions and assumptions are taken among them, and a learnt clause is
asserted for a literal that was assigned above the entry level, so that this
one belongs to the component as well.

`Solver.Over c b s` says that only variables of the component `c` were
assigned between the states `b` and `s`, and `Solver.Confined N c b s` that this
goes on to be so under propagation. Both are kept by every step between two states
at or above the level of `b`, so a call keeps them however it ends.

So the work stays in the region of the component and of what `b` had assigned, and
valuations that satisfy what is stored over this region go on doing so: those of
`N` are the ones that are followed.
-/

namespace Cleave

namespace Solver

variable {F : List Clause} {b s s' : Solver} {entry n₀ : Nat} {c : Component}
  {N : Valuation → Prop}

/-- **Only variables of the component** were assigned since `b`. -/
def Over (c : Component) (b s : Solver) : Prop :=
  ∀ l ∈ s.trail.lits.toList, l ∈ b.trail.lits.toList ∨ l.var ∈ c.vars

/-- **Confined to a component**: the same, and propagation assigns no other
variables. The flags of the scope are right, and it was entered behind the trail of
`b`, so that leaving it does not take the head back to what it had passed in `b`. The
valuations of `N` satisfy what is stored over the region. -/
structure Confined (N : Valuation → Prop) (c : Component) (b s : Solver) : Prop where
  scope : ∀ v, s.inScope v = true → v ∈ c.vars
  flags : s.scope.Exact b.varCount
  entered : ∃ scope, s.scope.current = some scope ∧ b.trail.lits.size ≤ scope.entry
  trail : Over c b s
  passed : ∀ l ∈ b.trail.passed, l ∈ s.trail.passed
  obeyed : ∀ ν, N ν → HoldsOn (Region c b) b.trail.passed s ν

/-- No valuations to follow. An engine's answers are trusted for the clauses of the
formula, not derived from those of a region. -/
def Unfollowed (_ : Valuation) : Prop := False

/-- A refutation aims at a variable of the component, unless its first literal
was false all along. The valuations of `N` satisfy it. -/
structure Aims (N : Valuation → Prop) (c : Component) (b : Solver) (learnt : Learnt) : Prop where
  first : ∀ first rest, learnt.lits = first :: rest →
    first.neg ∈ b.trail.lits.toList ∨ first.var ∈ c.vars
  holds : learnt.lits ≠ [] → ∀ ν, N ν → Clause.holds ν learnt.lits = true

theorem aims_empty : Aims N c b .empty := ⟨fun _ _ h => (nomatch h), fun h => absurd rfl h⟩

theorem mem_take_min {L : List Lit} {i j : Nat} {l : Lit} (hi : l ∈ L.take i) (hj : l ∈ L.take j) :
    l ∈ L.take (min i j) := by
  rcases Nat.le_total i j with hle | hle
  · rwa [Nat.min_eq_left hle]
  · rwa [Nat.min_eq_right hle]

theorem Over.refl (c : Component) (s : Solver) : Over c s s := fun _ hl => Or.inl hl

theorem Over.of_subset (h : Over c b s)
    (hsub : ∀ l ∈ s'.trail.lits.toList, l ∈ s.trail.lits.toList) : Over c b s' :=
  fun l hl => h l (hsub l hl)

theorem Over.region (h : Over c b s) : ∀ l ∈ s.trail.lits.toList, Region c b l.var :=
  fun l hl => (h l hl).symm.imp_right fun hb => ⟨l, hb, rfl⟩

/-! ## Single steps -/

namespace Confined

/-- Another choice of valuations. -/
theorem withModels {M : Valuation → Prop} (h : Confined N c b s)
    (hM : ∀ ν, M ν → HoldsOn (Region c b) b.trail.passed s ν) : Confined M c b s :=
  ⟨h.scope, h.flags, h.entered, h.trail, h.passed, hM⟩

theorem done_subset (h : Confined N c b s) : ∀ l ∈ b.trail.passed, l ∈ s.trail.lits.toList :=
  fun l hl => List.mem_of_mem_take (h.passed l hl)

theorem of_subset (h : Confined N c b s) (hscope : s'.scope = s.scope)
    (hsub : ∀ l ∈ s'.trail.lits.toList, l ∈ s.trail.lits.toList)
    (hpassed : ∀ l ∈ b.trail.passed, l ∈ s'.trail.passed)
    (hobeyed : ∀ ν, N ν → HoldsOn (Region c b) b.trail.passed s' ν) : Confined N c b s' where
  scope := by
    unfold inScope
    rw [hscope]
    exact h.scope
  flags := hscope ▸ h.flags
  entered := hscope ▸ h.entered
  trail := h.trail.of_subset hsub
  passed := hpassed
  obeyed := hobeyed

/-- The same clauses, the same assignment and the same scope. -/
theorem same (h : Confined N c b s) (hscope : s'.scope = s.scope) (hstore : s'.store = s.store)
    (hlits : s'.trail.lits = s.trail.lits) (hlevels : s'.trail.levels = s.trail.levels)
    (hpassed : ∀ l ∈ b.trail.passed, l ∈ s'.trail.passed) : Confined N c b s' := by
  refine h.of_subset hscope (fun l hl => hlits ▸ hl) hpassed fun ν hν =>
    (h.obeyed ν hν).congr hstore fun l hl h0 => ⟨hlits ▸ hl, ?_⟩
  unfold Trail.levelOf at h0 ⊢
  exact hlevels ▸ h0

/-- **Propagation** does not leave the scope. It runs past what is done with, so its
conflicts are news. -/
theorem propagate {r : Option Conflict} (h : Confined N c b s) (hs : Sound F s)
    (hp : s.propagate = (r, s')) :
    Confined N c b s' ∧ ∀ conflict, r = some conflict → s'.Fresh b.trail.passed conflict := by
  obtain ⟨hd, -⟩ := propagate_spec hs hp
  obtain ⟨hpast, hfresh⟩ := propagate_past hs h.passed hp
  have hscope : s'.scope = s.scope := (congrArg Solver.scope hd.grown.others).symm
  have hover : Over c b s' := hd.grown.forced (fun l => l ∈ b.trail.lits.toList ∨ l.var ∈ c.vars)
    ⟨fun _ _ _ _ hin => Or.inr (h.scope _ hin), fun _ _ _ _ hin _ => Or.inr (h.scope _ hin)⟩ h.trail
  refine ⟨⟨?_, hscope ▸ h.flags, hscope ▸ h.entered, hover,
    fun l hl => hd.grown.passed l (h.passed l hl), fun ν hν =>
      (h.obeyed ν hν).grown hs hd.sound hd.grown hpast.pinned hover.region h.done_subset⟩, hfresh⟩
  unfold inScope
  rw [hscope]
  exact h.scope

theorem learns (h : Confined N c b s) {first : Lit} {rest : List Lit} (hl : Learns first rest s s')
    (hholds : ∀ ν, N ν → Clause.holds ν (first :: rest) = true) : Confined N c b s' := by
  have htrail : s'.trail = s.trail := (congrArg Solver.trail hl.others).symm
  exact h.of_subset (congrArg Solver.scope hl.others).symm (fun l hl => htrail ▸ hl)
    (htrail ▸ h.passed) fun ν hν => (h.obeyed ν hν).learns hl (hholds ν hν)

theorem withStats (h : Confined N c b s) (stats : Statistics) :
    Confined N c b { s with stats := stats } :=
  h.same rfl rfl rfl rfl h.passed

/-- The head goes back, but not behind the trail of `b`. -/
theorem rewind (h : Confined N c b s) (hw : Within b s) {pos : Nat}
    (hpos : b.trail.lits.size ≤ pos) : Confined N c b { s with trail := s.trail.rewind pos } :=
  h.same rfl rfl rfl rfl fun l hl =>
    mem_take_min (h.passed l hl) (hw.mem_take (List.mem_of_mem_take hl) hpos)

/-- The way back from the scope. -/
theorem restoreScope (h : Confined N c b s) (hw : Within b s) (previous : Option Scope) :
    ∀ l ∈ b.trail.passed, l ∈ (s.restoreScope previous).trail.passed := by
  obtain ⟨scope, hscope, hentry⟩ := h.entered
  unfold Solver.restoreScope
  rw [hscope]
  exact (h.rewind hw hentry).passed

theorem decided (h : Confined N c b s) (hs : Sound F s) {l : Lit} (hl : l.var ∈ c.vars)
    (hin : l.var.index < s.varCount) (hopen : s.trail.isAssigned l.var = false) :
    Confined N c b (s.openDecision l) where
  scope := h.scope
  flags := h.flags
  entered := h.entered
  trail := by
    intro m hm
    have hm : m ∈ (s.trail.decided l).lits.toList := hm
    rw [Trail.lits_decided] at hm
    rcases List.mem_append.mp hm with hm | hm
    · exact h.trail m hm
    · rw [List.mem_singleton.mp hm]
      exact Or.inr hl
  passed := by
    intro m hm
    show m ∈ (s.trail.decided l).lits.toList.take s.trail.head
    rw [Trail.lits_decided, List.take_append]
    exact List.mem_append_left _ (h.passed m hm)
  obeyed := fun ν hν => (h.obeyed ν hν).decided hs hin hopen

/-- Going back, to a level that `b` had reached. -/
theorem backtrackTo (h : Confined N c b s) (hs : Sound F s) (hw : Within b s) {k : Nat}
    (hk : b.level ≤ k) : Confined N c b (s.backtrackTo k) := by
  by_cases hlt : k < s.level
  · obtain ⟨-, hcut⟩ := backtrackTo_spec hs hlt
    have hlits := hw.lits_cut hs hk hcut
    refine h.of_subset (congrArg Solver.scope hcut.others).symm
      (fun l hl => List.mem_of_mem_take (hlits ▸ hl)) (fun l hl => ?_)
      fun ν hν => (h.obeyed ν hν).backtrackTo hs k
    have hbelow := hw.mem_take (List.mem_of_mem_take hl) (hw.size_le_levelStart hk)
    rw [Trail.passed, hlits, hcut.head, List.take_take, Nat.min_assoc, Nat.min_self]
    exact mem_take_min (h.passed l hl) hbelow
  · rw [backtrackTo_of_le (Nat.le_of_not_lt hlt)]
    exact h

theorem assertLearnt (h : Confined N c b s) {learnt : Learnt}
    (hfirst : ∀ first rest, learnt.lits = first :: rest → first.var ∈ c.vars)
    (hobeyed : ∀ ν, N ν → HoldsOn (Region c b) b.trail.passed (s.assertLearnt learnt) ν) :
    Confined N c b (s.assertLearnt learnt) := by
  -- one literal is pushed, as a root fact or not
  have hpush : ∀ (l : Lit) (level : Nat) (reason : Reason) (facts : List Lit),
      l.var ∈ c.vars → Over c b
        { s with trail := s.trail.push l level reason, pendingFacts := facts } := by
    intro l level reason facts hl m hm
    have hm : m ∈ (s.trail.push l level reason).lits.toList := hm
    rw [Trail.lits_push] at hm
    rcases List.mem_append.mp hm with hm | hm
    · exact h.trail m hm
    · rw [List.mem_singleton.mp hm]
      exact Or.inr hl
  have hpassed : ∀ (l : Lit) (level : Nat) (reason : Reason), ∀ m ∈ b.trail.passed,
      m ∈ (s.trail.push l level reason).passed := by
    intro l level reason m hm
    show m ∈ (s.trail.push l level reason).lits.toList.take s.trail.head
    rw [Trail.lits_push, List.take_append]
    exact List.mem_append_left _ (h.passed m hm)
  unfold Solver.assertLearnt at hobeyed ⊢
  split at hobeyed
  · exact h
  · rename_i l hlits
    exact ⟨h.scope, h.flags, h.entered, hpush l _ _ _ (hfirst l [] hlits), hpassed l _ _, hobeyed⟩
  · rename_i l rest _ hlits
    exact ⟨h.scope, h.flags, h.entered, hpush l _ _ _ (hfirst l rest hlits), hpassed l _ _, hobeyed⟩

/-- What was assigned above the level of `b` belongs to the component. -/
theorem var_mem (h : Confined N c b s) (hs : Sound F s) (hw : Within b s) {m : Lit}
    (hm : m ∈ s.trail.lits.toList) (hlt : b.level < s.trail.levelOf m.var) : m.var ∈ c.vars := by
  refine (h.trail m hm).resolve_left fun hb => ?_
  -- the trail of `b` stands in the parts up to its level
  exact hs.not_mem_take_of_lt_level hlt (hw.mem_take hb (hw.size_le_levelStart (Nat.le_refl _)))

/-- What follows from a conflict holds in the valuations of `N`. -/
theorem follows (h : Confined N c b s) (hs : Sound F s) {conflict : Conflict}
    (href : Refutes F s conflict) (hfresh : s.Fresh b.trail.passed conflict) {d : Clause}
    (hd : s.Follows conflict d) : ∀ ν, N ν → Clause.holds ν d = true :=
  fun ν hν => (h.obeyed ν hν).follows hs h.trail.region h.done_subset href hfresh hd

/-- A clause whose first literal is false aims at the component. -/
theorem aims (h : Confined N c b s) {learnt : Learnt} {first : Lit} {rest : List Lit}
    (hlits : learnt.lits = first :: rest) (hfirst : first.neg ∈ s.trail.lits.toList)
    (hholds : ∀ ν, N ν → Clause.holds ν (first :: rest) = true) : Aims N c b learnt := by
  refine ⟨fun first' rest' he => ?_, fun _ => hlits ▸ hholds⟩
  obtain ⟨rfl, -⟩ := List.cons.inj (hlits.symm.trans he)
  exact h.trail _ hfirst

/-- **Learning from a conflict** assigns nothing, and aims at the component. -/
theorem refute (h : Confined N c b s) (hs : Sound F s) {conflict : Conflict}
    (href : Refutes F s conflict) (hfresh : s.Fresh b.trail.passed conflict) {learnt : Learnt}
    (hr : s.refute conflict = .ok (learnt, s')) : Confined N c b s' ∧ Aims N c b learnt := by
  obtain ⟨-, ⟨rfl, rfl, -⟩ | ⟨lesson, hv, hl, hlits, -⟩⟩ := refute_spec hs href hr
  · exact ⟨h.same rfl rfl rfl rfl h.passed, aims_empty⟩
  · have hholds := h.follows hs href hfresh (follows_of_refute hs href hr (by simp [hlits]))
    rw [hlits] at hholds
    exact ⟨h.learns hl hholds, h.aims hlits (hv.isFalse _ List.mem_cons_self) hholds⟩

end Confined

theorem Within.backtrackTo (hw : Within b s) (hs : Sound F s) {k : Nat} (hk : b.level ≤ k) :
    Within b (s.backtrackTo k) := by
  by_cases hlt : k < s.level
  · exact hw.cut hs hk hlt (backtrackTo_spec hs hlt).2
  · rw [backtrackTo_of_le (Nat.le_of_not_lt hlt)]
    exact hw

/-- **The way back** from the scope, at a level that `b` had reached. -/
theorem Confined.leave {start : Solver} (h : Confined N c b s) (hs : Sound F s) (hw : Within b s)
    {k : Nat} (hk : b.level ≤ k) (hflags : start.scope.Exact b.varCount)
    (hend : s' = (s.backtrackTo k).restoreScope start.scope.current) :
    Over c b s' ∧ s'.scope = start.scope ∧ (∀ l ∈ b.trail.passed, l ∈ s'.trail.passed)
      ∧ ∀ ν, N ν → HoldsOn (Region c b) b.trail.passed s' ν := by
  have hback := h.backtrackTo hs hw hk
  subst hend
  exact ⟨hback.trail, hflags.swap_back hback.flags, hback.restoreScope (hw.backtrackTo hs hk) _,
    fun ν hν => (hback.obeyed ν hν).congr rfl fun _ hl h0 => ⟨hl, h0⟩⟩

/-- Learning from a conflict assigns nothing. -/
theorem Within.refute (hw : Within b s) (hs : Sound F s) {conflict : Conflict}
    (href : Refutes F s conflict) {learnt : Learnt}
    (hr : s.refute conflict = .ok (learnt, s')) : Within b s' := by
  obtain ⟨-, ⟨-, rfl, -⟩ | ⟨lesson, -, hl, -⟩⟩ := refute_spec hs href hr
  · exact hw
  · exact hw.learns hl

/-! ## A search -/

/-- **A conflict of a search**: the literal that is asserted was assigned above
the entry level. -/
theorem Confined.handleConflict {conflict : Conflict} {a : AfterConflict}
    (hc : Confined N c b s) (h : Conflicting F b entry n₀ s conflict)
    (hfresh : s.Fresh b.trail.passed conflict) (hb : b.level ≤ entry)
    (hh : s.handleConflict entry conflict = .ok (a, s')) :
    Confined N c b s' ∧ ∀ learnt, a = .refuted learnt → Aims N c b learnt := by
  unfold Solver.handleConflict at hh
  split at hh
  · obtain ⟨⟨learnt, s₁⟩, href, hend⟩ := Except.bind_eq_ok.mp hh
    obtain ⟨rfl, rfl⟩ := Prod.mk.inj (Except.ok.inj hend)
    obtain ⟨hc', haims⟩ := hc.refute h.sound h.refutes hfresh href
    exact ⟨hc', fun l hl => AfterConflict.refuted.inj hl ▸ haims⟩
  · obtain ⟨⟨o, s₁⟩, han, hend⟩ := Except.bind_eq_ok.mp hh
    rcases analyze_spec h.sound h.refutes han with ⟨rfl, rfl, -⟩ | ⟨lesson, rfl, rfl, hv⟩
    · obtain ⟨rfl, rfl⟩ := Prod.mk.inj (Except.ok.inj hend)
      exact ⟨hc.same rfl rfl rfl rfl hc.passed,
        fun l hl => AfterConflict.refuted.inj hl ▸ aims_empty⟩
    · have hfirst := hv.isFalse lesson.first List.mem_cons_self
      have hholds := hc.follows h.sound h.refutes hfresh
        (follows_of_analyze h.sound h.refutes han)
      simp only at hend
      split at hend
      · obtain ⟨⟨learnt, s₂⟩, hlearn, hend⟩ := Except.bind_eq_ok.mp hend
        obtain ⟨rfl, rfl⟩ := Prod.mk.inj (Except.ok.inj hend)
        obtain ⟨-, hl, hlits, -⟩ := learn_valid h.sound hv hlearn
        exact ⟨hc.learns hl hholds, fun l hl =>
          AfterConflict.refuted.inj hl ▸ hc.aims hlits hfirst hholds⟩
      · rename_i hback
        obtain ⟨⟨learnt, s₂⟩, hlearn, hend⟩ := Except.bind_eq_ok.mp hend
        obtain ⟨rfl, rfl⟩ := Prod.mk.inj (Except.ok.inj hend)
        have hentry := Nat.le_of_not_lt hback
        have hopened := h.reopened hb hv hentry
        obtain ⟨hs₂, hl, hlits, hval⟩ :=
          learn_spec hopened.sound hv.entailed hv.nodup hopened.inRange hlearn
        have htrail : s₂.trail = (s₁.backtrackTo lesson.backjump).trail :=
          (congrArg Solver.trail hl.others).symm
        have hc₂ := (hc.backtrackTo h.sound h.within (Nat.le_trans hb hentry)).learns hl hholds
        refine ⟨hc₂.assertLearnt (fun first rest he => ?_) fun ν hν => ?_, fun l hl => (nomatch hl)⟩
        · obtain ⟨rfl, -⟩ := List.cons.inj (hlits.symm.trans he)
          have hlevel := hv.level
          have hbj := hv.backjump
          refine hc.var_mem (m := lesson.first.neg) h.sound h.within hfirst ?_
          show b.level < s₁.trail.levelOf lesson.first.var
          omega
        · exact (hc₂.obeyed ν hν).asserted hs₂ hval hlits (htrail ▸ hopened.firstOpen)
            (fun m hm => htrail ▸ hopened.restFalse m hm) (hholds ν hν)

theorem Confined.restart (hc : Confined N c b s) (h : Searching F b entry n₀ s)
    (hb : b.level ≤ entry) (hr : s.restart entry = .ok s') : Confined N c b s' := by
  have h₀ := h.withStats { s.stats with search :=
    { s.stats.search with restarts := s.stats.search.restarts + 1 } }
  obtain ⟨-, hred⟩ := reduceLearnts_spec (h₀.sound.backtrackTo entry) hr
  obtain ⟨hlits, -, hhead⟩ := hred.trail_parts
  have hc₀ := (hc.withStats _).backtrackTo h₀.sound h₀.within hb
  refine hc₀.of_subset (congrArg Solver.scope hred.others).symm (fun l hl => hlits ▸ hl)
    (fun l hl => ?_) fun ν hν => (hc₀.obeyed ν hν).reduced hred
  rw [Trail.passed, hlits, hhead]
  exact hc₀.passed l hl

/-- **The loop of a search**, by induction on its fuel. -/
theorem Confined.searchWithin {budget : Option Nat} (hb : b.level ≤ entry)
    (hvars : ∀ v ∈ c.vars, v.index < b.varCount) (fuel : Nat) {schedule : RestartSchedule}
    {conflicts : Nat} {r : SearchResult} (hc : Confined N c b s) (h : Searching F b entry n₀ s)
    (hr : Solver.searchWithin c entry budget fuel schedule conflicts s = .ok (r, s')) :
    Confined N c b s' ∧ ∀ learnt, r = .refuted learnt → Aims N c b learnt := by
  induction fuel generalizing s schedule conflicts with
  | zero => cases hr
  | succ fuel ih =>
    unfold Solver.searchWithin at hr
    split at hr
    · -- a conflict
      rename_i conflict s₁ hp
      have hconf := ((h.propagate hp).2 conflict rfl).withStats s₁.countConflict.stats
      obtain ⟨hc₁, hfresh⟩ := hc.propagate h.sound hp
      obtain ⟨⟨after, s₂⟩, hh, hr⟩ := Except.bind_eq_ok.mp hr
      obtain ⟨hc₂, haims⟩ :=
        (hc₁.withStats s₁.countConflict.stats).handleConflict hconf (hfresh conflict rfl) hb hh
      cases after with
      | refuted learnt =>
        obtain ⟨rfl, rfl⟩ := Prod.mk.inj (Except.ok.inj hr)
        exact ⟨hc₂, fun l hl => SearchResult.refuted.inj hl ▸ haims learnt rfl⟩
      | goesOn =>
        have hgo := (handleConflict_spec hconf hb hh).2 rfl
        simp only at hr
        split at hr
        · obtain ⟨rfl, rfl⟩ := Prod.mk.inj (Except.ok.inj hr)
          exact ⟨hc₂, fun l hl => by cases hl⟩
        · split at hr
          · obtain ⟨s₃, hrestart, hr⟩ := Except.bind_eq_ok.mp hr
            exact ih (hc₂.restart hgo hb hrestart) (hgo.restart hb hrestart) hr
          · exact ih hc₂ hgo hr
    · -- everything is propagated
      rename_i s₁ hp
      obtain ⟨hs₁, hhead, hset⟩ := (h.propagate hp).1 rfl
      obtain ⟨hc₁, -⟩ := hc.propagate h.sound hp
      obtain ⟨o, hnext, hr⟩ := Except.bind_eq_ok.mp hr
      cases o with
      | none =>
        simp only at hr
        obtain ⟨rfl, rfl⟩ := Prod.mk.inj (Except.ok.inj hr)
        have hcaptured : Confined N c b s₁.captureModel.2 := hc₁.same rfl rfl rfl rfl hc₁.passed
        exact ⟨hcaptured, fun l hl => by cases hl⟩
      | some l =>
        obtain ⟨hl, hopen⟩ := (nextDecision_spec hnext).1 l rfl
        have hin : l.var.index < s₁.varCount := by
          rw [hs₁.within.varCount]
          exact hvars _ hl
        have hs₂ := hs₁.withStats s₁.countDecision.stats
        exact ih ((hc₁.withStats s₁.countDecision.stats).decided hs₂.sound hl hin hopen)
          (hs₂.decided hhead hset hin hopen) hr

/-- **In the scope of a component** what was assigned is as before, and propagation
assigns variables of the component only. -/
theorem Over.enter (ho : Over c b s) (hflags : s.scope.Exact b.varCount)
    (hvars : ∀ v ∈ c.vars, v.index < b.varCount) (hw : Within b s)
    (hpassed : ∀ l ∈ b.trail.passed, l ∈ s.trail.passed)
    (hobeyed : ∀ ν, N ν → HoldsOn (Region c b) b.trail.passed s ν) (stats : Statistics) :
    Confined N c b { s with scope := s.scopeOf c, stats := stats } := by
  have hflags' : (s.scopeOf c).Exact b.varCount := hflags.swap hvars
  exact ⟨fun v hv => ((hflags'.admits_iff v).mp hv).resolve_left
    (by simp [scopeOf, ScopeTable.swap]), hflags', ⟨_, rfl, hw.size_le⟩, ho, hpassed, fun ν hν =>
      (hobeyed ν hν).congr rfl fun _ hl h0 => ⟨hl, h0⟩⟩

theorem Ended.sound {r : SearchResult} (h : Ended F b entry n₀ c s r) : Sound F s := by
  cases r with
  | satisfiable m => exact h.1.sound
  | refuted learnt => exact RefutedAt.sound h
  | unknown => exact Searching.sound h

theorem Ended.within {r : SearchResult} (h : Ended F b entry n₀ c s r) : Within b s := by
  cases r with
  | satisfiable m => exact h.1.within
  | refuted learnt => exact RefutedAt.within h
  | unknown => exact Searching.within h

/-- **A search** assigns variables of its component, and restores the scope. -/
theorem Over.search {budget : Option Nat} {fuel : Nat} {r : SearchResult} (ho : Over c b s)
    (hflags : s.scope.Exact b.varCount) (hs : Sound F s) (hw : Within b s)
    (hset : ∀ done, SettledTo done n₀ b → ∃ n, n₀ ≤ n ∧ SettledTo done n s)
    (hpassed : ∀ l ∈ b.trail.passed, l ∈ s.trail.passed)
    (hobeyed : ∀ ν, N ν → HoldsOn (Region c b) b.trail.passed s ν)
    (h : s.search fuel c budget = .ok (r, s')) :
    Over c b s' ∧ s'.scope = s.scope ∧ (∀ l ∈ b.trail.passed, l ∈ s'.trail.passed)
      ∧ (∀ ν, N ν → HoldsOn (Region c b) b.trail.passed s' ν)
      ∧ ∀ learnt, r = .refuted learnt → Aims N c b learnt := by
  obtain ⟨hvars, stats, s₂, hend, -, hrun⟩ := search_eq_ok h
  have hin : ∀ v ∈ c.vars, v.index < b.varCount := fun v hv => hw.varCount ▸ hvars v hv
  have hstart := ho.enter hflags hin hw hpassed hobeyed stats
  have hsearching := Searching.start hs hw hset (s.scopeOf c) stats
  rcases hrun with ⟨-, rfl, rfl⟩ | ⟨-, hrun⟩
  · obtain ⟨hover, hscope, hpassed', hobeyed'⟩ :=
      hstart.leave hsearching.sound hsearching.within hw.level_le hflags hend
    exact ⟨hover, hscope, hpassed', hobeyed', fun l hl =>
      SearchResult.refuted.inj hl ▸ aims_empty⟩
  · obtain ⟨hc₂, haims⟩ := hstart.searchWithin hw.level_le hin fuel hsearching hrun
    have hended := (searchWithin_spec hw.level_le hin fuel hsearching hrun).1
    obtain ⟨hover, hscope, hpassed', hobeyed'⟩ :=
      hc₂.leave hended.sound hended.within hw.level_le hflags hend
    exact ⟨hover, hscope, hpassed', hobeyed', haims⟩

/-- The same inside the scope of the component. -/
theorem Confined.search {budget : Option Nat} {fuel : Nat} {r : SearchResult}
    (hc : Confined N c b s) (hs : Sound F s) (hw : Within b s)
    (hset : ∀ done, SettledTo done n₀ b → ∃ n, n₀ ≤ n ∧ SettledTo done n s)
    (h : s.search fuel c budget = .ok (r, s')) :
    Confined N c b s' ∧ ∀ learnt, r = .refuted learnt → Aims N c b learnt := by
  obtain ⟨hover, hscope, hpassed, hobeyed, haims⟩ :=
    hc.trail.search hc.flags hs hw hset hc.passed hc.obeyed h
  refine ⟨⟨?_, hscope ▸ hc.flags, hscope ▸ hc.entered, hover, hpassed, hobeyed⟩, haims⟩
  unfold inScope
  rw [hscope]
  exact hc.scope

/-! ## Probing -/

/-- **A refutation is applied**: if its first literal is still open, it aims at
the component. -/
theorem Confined.applyRefutation {learnt : Learnt} {o : Option Clause} (hc : Confined N c b s)
    (h : Refuting F b n₀ learnt s) (haims : Aims N c b learnt)
    (ha : s.applyRefutation learnt = .ok (o, s')) : Confined N c b s' := by
  rcases applyRefutation_eq_ok h ha with ⟨-, -, -, rfl⟩
    | ⟨first, rest, hlits, ⟨-, -, rfl⟩ | ⟨hopen, hat, hprop⟩⟩
  · exact hc.same rfl rfl rfl rfl hc.passed
  · exact hc
  · have hfirst : first.var ∈ c.vars := (haims.first first rest hlits).resolve_left fun hb =>
      h.sound.trail.not_mem_of_not_assigned (l := first.neg) hopen (h.within.lits.subset hb)
    have hc₁ : Confined N c b (s.assertLearnt learnt) := by
      obtain ⟨rfl, -⟩ | ⟨first', rest', hlits', hval, hrest, -⟩ := h.clause
      · cases hlits
      obtain ⟨rfl, rfl⟩ := List.cons.inj (hlits.symm.trans hlits')
      refine hc.assertLearnt (fun first' _ hlits' => ?_) fun ν hν => ?_
      · obtain ⟨rfl, -⟩ := List.cons.inj (hlits.symm.trans hlits')
        exact hfirst
      · exact (hc.obeyed ν hν).asserted h.sound hval hlits hopen hrest
          (hlits ▸ haims.holds (by simp [hlits]) ν hν)
    rcases hprop with ⟨-, hp⟩ | ⟨conflict, s₁, learnt', hp, href, -⟩
    · exact (hc₁.propagate hat.sound hp).1
    · obtain ⟨hcon, -⟩ := (hat.propagate hp).2 conflict rfl
      obtain ⟨hc₂, hfresh⟩ := hc₁.propagate hat.sound hp
      exact (hc₂.refute hcon.sound hcon.refutes (hfresh conflict rfl) href).1

theorem Confined.applyProbe {candidate : Lit} {learnt : Learnt} {p : Probe}
    (hc : Confined N c b s) (h : Refuting F b n₀ learnt s) (haims : Aims N c b learnt)
    (hp : s.applyProbe candidate learnt = .ok (p, s')) : Confined N c b s' := by
  obtain ⟨⟨o, s₁⟩, ha, hp⟩ := Except.bind_eq_ok.mp hp
  have hc₁ := hc.applyRefutation h haims ha
  cases o with
  | some clause =>
    obtain ⟨-, rfl⟩ := Prod.mk.inj (Except.ok.inj hp)
    exact hc₁
  | none =>
    simp only at hp
    split at hp
    · obtain ⟨-, rfl⟩ := Prod.mk.inj (Except.ok.inj hp)
      exact hc₁
    · obtain ⟨-, rfl⟩ := Prod.mk.inj (Except.ok.inj hp)
      exact hc₁

/-- **A probe of a variable of the component** ends with a refutation that aims
at the component, or with a model where the assumption is true, or without a
result. -/
theorem Confined.probe_cases {fuel budget : Nat} {candidate : Lit} {ledger ledger' : ModelLedger}
    {p : Probe} (hc : Confined N c b s) (h : Ready F b n₀ s) (hcand : candidate.var ∈ c.vars)
    (hl : candidate.var.index < s.varCount) (hopen : s.trail.isAssigned candidate.var = false)
    (hp : s.probe fuel c candidate budget ledger = .ok (p, ledger', s')) :
    (∃ learnt s₁, Refuting F b n₀ learnt s₁ ∧ Within s s₁ ∧ Confined N c b s₁ ∧ Aims N c b learnt
        ∧ s₁.applyProbe candidate learnt = .ok (p, s') ∧ ledger' = ledger)
      ∨ Confined N c b s' ∧ ((p = .postponed ∧ ledger' = ledger)
        ∨ p = .model ∧ ∃ m, ledger' = ledger.add m ∧ m.buffer < s'.pool.buffers.size
          ∧ s'.pool.value m candidate.var = some (!candidate.positive)
          ∧ (SettledTo b.trail.passed n₀ b → Loyal c b s' m)) := by
  have h₀ : Ready F b n₀ (s.countBackbone fun b => { b with probes := b.probes + 1 }) :=
    h.withStats _
  have hown : Ready F s s.trail.lits.size
      (s.countBackbone fun b => { b with probes := b.probes + 1 }) := h.own.withStats _
  have hassumed := h₀.searching_assume (l := candidate.neg) hl hopen
  have hc₀ : Confined N c b (s.assumption candidate) := (hc.withStats (s.countBackbone fun b =>
    { b with probes := b.probes + 1 }).stats).decided h₀.sound (l := candidate.neg) hcand hl hopen
  rcases probe_eq_ok hp with ⟨conflict, s₁, learnt, s₂, hprop, hr, happ, rfl⟩
    | ⟨s₁, r, s₂, hprop, hr, hend⟩
  · have hcon := (hassumed.propagate hprop).2 conflict rfl
    obtain ⟨hc₁, hfresh⟩ := hc₀.propagate hassumed.sound hprop
    obtain ⟨hc₂, haims⟩ := hc₁.refute hcon.sound hcon.refutes (hfresh conflict rfl) hr
    have hs₂ := (refute_spec hcon.sound hcon.refutes hr).1
    have hw₂ := hcon.within.refute hcon.sound hcon.refutes hr
    obtain ⟨href, -⟩ := h₀.refuting_conflict (l := candidate.neg) hl hopen hprop hr
    obtain ⟨hrefown, -⟩ := hown.refuting_conflict (l := candidate.neg) hl hopen hprop hr
    exact Or.inl ⟨learnt, _, href, hrefown.within, hc₂.backtrackTo hs₂ hw₂ h.within.level_le,
      haims, happ, rfl⟩
  · obtain ⟨hsearching, -, -⟩ := (hassumed.propagate hprop).1 rfl
    obtain ⟨hc₂, haims⟩ := (hc₀.propagate hassumed.sound hprop).1.search hsearching.sound
      hsearching.within hsearching.settled hr
    obtain ⟨hsearched, -⟩ := search_spec hsearching.sound hsearching.within hsearching.settled hr
    have hc₃ := hc₂.backtrackTo hsearched.sound hsearched.within h.within.level_le
    obtain ⟨hsat, href, -, -⟩ := h₀.search_above (l := candidate.neg) hl hopen hprop hr
    rcases hend with ⟨m, stats, rfl, rfl, rfl, rfl⟩ | ⟨learnt, rfl, happ, rfl⟩ | ⟨-, rfl, rfl, rfl⟩
    · obtain ⟨-, known, hfound, hsub, hset⟩ := hsat m rfl
      have hassumption : candidate.neg ∈ known :=
        hfound.starts.subset (List.mem_append_right _ List.mem_cons_self)
      have hstart : ∀ l ∈ b.trail.lits.toList, l ∈ known := fun l hl =>
        hfound.starts.subset (List.mem_append_left _ (h.within.lits.subset hl))
      have hloyal : SettledTo b.trail.passed n₀ b → Loyal c b (s₂.backtrackTo s.level) m :=
        fun hb => .of_found hfound (hset _ hb) hstart hsub
      exact Or.inr ⟨hc₃.withStats _, Or.inr ⟨rfl, m, rfl, hfound.buffer,
        (hfound.values candidate.neg).mpr hassumption,
        fun hb => ⟨(hloyal hb).trail, (hloyal hb).region.congr rfl fun _ hl h0 => ⟨hl, h0⟩⟩⟩⟩
    · have hrefown := (hown.search_above (l := candidate.neg) hl hopen hprop hr).2.1 learnt rfl
      exact Or.inl ⟨learnt, _, href learnt rfl, hrefown.within, hc₃, haims learnt rfl, happ, rfl⟩
    · exact Or.inr ⟨hc₃, Or.inl ⟨rfl, rfl⟩⟩

/-- **A probe** of an open variable of the component. -/
theorem Confined.probe {fuel budget : Nat} {candidate : Lit} {ledger ledger' : ModelLedger}
    {p : Probe} (hc : Confined N c b s) (h : Ready F b n₀ s) (hcand : candidate.var ∈ c.vars)
    (hl : candidate.var.index < s.varCount) (hopen : s.trail.isAssigned candidate.var = false)
    (hp : s.probe fuel c candidate budget ledger = .ok (p, ledger', s')) : Confined N c b s' := by
  rcases hc.probe_cases h hcand hl hopen hp with
    ⟨learnt, s₁, href, -, hc₁, haims, happ, -⟩ | ⟨hc', -⟩
  · exact hc₁.applyProbe href haims happ
  · exact hc'

/-- **Searching for a first model**, by induction on the rounds. -/
theorem Confined.firstModel {fuel : Nat} (rounds : Nat) {budget : Nat}
    {ledger ledger' : ModelLedger} {o : Option Clause} (hc : Confined N c b s)
    (h : AtLevel F b n₀ s)
    (hf : Solver.firstModel fuel c rounds budget ledger s = .ok (o, ledger', s')) :
    Confined N c b s' := by
  induction rounds generalizing budget ledger s with
  | zero => cases hf
  | succ rounds ih =>
    unfold Solver.firstModel at hf
    split at hf
    · obtain ⟨-, heq⟩ := Prod.mk.inj (Except.ok.inj hf)
      obtain ⟨-, rfl⟩ := Prod.mk.inj heq
      exact hc
    · obtain ⟨⟨r, s₁⟩, hr, hf⟩ := Except.bind_eq_ok.mp hf
      obtain ⟨hsat, href, hunk, -⟩ := h.search hr
      obtain ⟨hc₁, haims⟩ := hc.search h.sound h.within h.settled hr
      cases r with
      | satisfiable m => exact ih (hc₁.withStats _) ((hsat m rfl).1.withStats _).atLevel hf
      | refuted learnt =>
        obtain ⟨⟨o', s₂⟩, happ, hf⟩ := Except.bind_eq_ok.mp hf
        have hc₂ := hc₁.applyRefutation (href learnt rfl) (haims learnt rfl) happ
        cases o' with
        | some clause =>
          obtain ⟨-, heq⟩ := Prod.mk.inj (Except.ok.inj hf)
          obtain ⟨-, rfl⟩ := Prod.mk.inj heq
          exact hc₂
        | none => exact ih hc₂ ((applyRefutation_spec (href learnt rfl) happ).1 rfl).atLevel hf
      | unknown => exact ih hc₁ (hunk rfl) hf

/-- **A pass over candidates of the component**, by induction on them. -/
theorem Confined.probePass {fuel budget : Nat} (hb : Sound F b)
    (hvars : ∀ v ∈ c.vars, v.index < b.varCount) (cs : List Lit) {pass pass' : Pass}
    {ledger ledger' : ModelLedger} (hcs : ∀ l ∈ cs, l.var ∈ c.vars) (hc : Confined N c b s)
    (h : Ready F b n₀ s)
    (hp : Solver.probePass fuel c budget cs pass ledger s = .ok (pass', ledger', s')) :
    Confined N c b s' := by
  induction cs generalizing pass ledger s with
  | nil =>
    obtain ⟨-, heq⟩ := Prod.mk.inj (Except.ok.inj hp)
    obtain ⟨-, rfl⟩ := Prod.mk.inj heq
    exact hc
  | cons candidate rest ih =>
    have hrest : ∀ l ∈ rest, l.var ∈ c.vars := fun l hl => hcs l (List.mem_cons_of_mem _ hl)
    have hcand := hcs candidate List.mem_cons_self
    unfold Solver.probePass at hp
    split at hp
    · exact ih hrest hc h hp
    · rename_i hlive
      simp only [ne_eq, Bool.or_eq_true, decide_eq_true_eq, not_or, Bool.not_eq_true] at hlive
      obtain ⟨⟨probe, ledger₁, s₁⟩, hprobe, hp⟩ := Except.bind_eq_ok.mp hp
      have hl : candidate.var.index < s.varCount := by
        rw [h.within.varCount]
        exact hvars _ hcand
      have hc₁ := hc.probe h hcand hl hlive.1 hprobe
      have hready := (probe_spec hb h hl hlive.1 hprobe).ready
      cases probe with
      | forced => exact ih hrest (hc₁.withStats _) ((hready (by simp)).withStats _) hp
      | mismatch m => exact ih hrest (hc₁.withStats _) ((hready (by simp)).withStats _) hp
      | model => exact ih hrest hc₁ (hready (by simp)) hp
      | postponed => exact ih hrest (hc₁.withStats _) ((hready (by simp)).withStats _) hp
      | unsatisfiable clause =>
        obtain ⟨-, heq⟩ := Prod.mk.inj (Except.ok.inj hp)
        obtain ⟨-, rfl⟩ := Prod.mk.inj heq
        exact hc₁

/-- **Passes until nothing is left**, by induction on the rounds. -/
theorem Confined.probeAll {fuel : Nat} {vs : List Var} (hb : Sound F b)
    (hvars : ∀ v ∈ c.vars, v.index < b.varCount) (hvs : ∀ v ∈ vs, v ∈ c.vars) (rounds : Nat)
    {budget : Nat} {ledger ledger' : ModelLedger} {implied : ImpliedLiterals}
    (hc : Confined N c b s) (h : Ready F b n₀ s)
    (hp : Solver.probeAll fuel c vs rounds budget ledger s = .ok (implied, ledger', s')) :
    Confined N c b s' := by
  induction rounds generalizing budget ledger s with
  | zero => cases hp
  | succ rounds ih =>
    unfold Solver.probeAll at hp
    split at hp
    · obtain ⟨-, heq⟩ := Prod.mk.inj (Except.ok.inj hp)
      obtain ⟨-, rfl⟩ := Prod.mk.inj heq
      exact hc
    · obtain ⟨⟨pass, ledger₁, s₁⟩, hpass, hp⟩ := Except.bind_eq_ok.mp hp
      have hcs : ∀ l ∈ s.candidates vs ledger, l.var ∈ c.vars := fun l hl =>
        hvs _ (mem_candidates.mp hl).1
      have hc₁ := hc.probePass hb hvars _ hcs h hpass
      obtain ⟨hpassed, -⟩ := probePass_spec hb _ (fun l hl => hvars _ (hcs l hl)) rfl h hpass
      simp only at hp
      split at hp
      · obtain ⟨-, heq⟩ := Prod.mk.inj (Except.ok.inj hp)
        obtain ⟨-, rfl⟩ := Prod.mk.inj heq
        exact hc₁
      · rename_i hr
        split at hp
        · exact ih hc₁ (hpassed.ready hr) hp
        · obtain ⟨-, heq⟩ := Prod.mk.inj (Except.ok.inj hp)
          obtain ⟨-, rfl⟩ := Prod.mk.inj heq
          exact hc₁

theorem Confined.backboneByProbing {fuel : Nat} {projected : Bool} {ledger ledger' : ModelLedger}
    {implied : ImpliedLiterals} (hb : Sound F b) (hvars : ∀ v ∈ c.vars, v.index < b.varCount)
    (hc : Confined N c b s) (h : AtLevel F b n₀ s)
    (hp : s.backboneByProbing fuel c ledger projected = .ok (implied, ledger', s')) :
    Confined N c b s' := by
  unfold Solver.backboneByProbing at hp
  split at hp
  · rename_i conflict s₁ hprop
    obtain ⟨⟨learnt, s₂⟩, hr, hp⟩ := Except.bind_eq_ok.mp hp
    obtain ⟨-, heq⟩ := Prod.mk.inj (Except.ok.inj hp)
    obtain ⟨-, rfl⟩ := Prod.mk.inj heq
    obtain ⟨hcon, -⟩ := (h.propagate hprop).2 conflict rfl
    obtain ⟨hc₁, hfresh⟩ := hc.propagate h.sound hprop
    exact (hc₁.refute hcon.sound hcon.refutes (hfresh conflict rfl) hr).1
  · rename_i s₁ hprop
    have hs₁ := (h.propagate hprop).1 rfl
    obtain ⟨⟨o, ledger₁, s₂⟩, hfirst, hp⟩ := Except.bind_eq_ok.mp hp
    have hc₂ := (hc.propagate h.sound hprop).1.firstModel _ hs₁.atLevel hfirst
    cases o with
    | some clause =>
      obtain ⟨-, heq⟩ := Prod.mk.inj (Except.ok.inj hp)
      obtain ⟨-, rfl⟩ := Prod.mk.inj heq
      exact hc₂
    | none =>
      obtain ⟨hs₂, -⟩ := (firstModel_spec hb _ hs₁.atLevel (fun _ => hs₁) hfirst).1 rfl
      exact hc₂.probeAll hb hvars (fun v hv => List.mem_of_mem_filter hv) _ hs₂ hp

/-! ## Answers of an engine -/

theorem Confined.fails {result : Except ToolError ImpliedLiterals} (hc : Confined N c b s)
    (h : AtLevel F b n₀ s) (hf : s.Fails result s') : Confined N c b s' := by
  obtain ⟨conflict, s₁, learnt, hp, href, -⟩ := hf
  obtain ⟨hcon, -⟩ := (h.propagate hp).2 conflict rfl
  obtain ⟨hc₁, hfresh⟩ := hc.propagate h.sound hp
  exact (hc₁.refute hcon.sound hcon.refutes (hfresh conflict rfl) href).1

theorem Confined.learnImplied (first : Lit) (more : List Lit) (hc : Confined Unfollowed c b s) :
    Confined Unfollowed c b (s.learnImplied first more).2 := by
  obtain ⟨store, watches, heq⟩ :=
    storeClause_frame s first (more ++ s.trail.decisionClause.reverse) true
  show Confined Unfollowed c b (s.storeClause first _ true).2
  rw [heq]
  exact hc.of_subset rfl (fun _ hl => hl) hc.passed fun _ hν => hν.elim

theorem Confined.assertImplied {l : Lit} (projected : Bool) (hc : Confined Unfollowed c b s)
    (hl : l.var ∈ c.vars) : Confined Unfollowed c b (s.assertImplied projected l) := by
  unfold Solver.assertImplied
  split
  · exact hc
  · refine ((hc.withStats _).learnImplied l []).assertLearnt (fun first rest hlits => ?_)
      fun _ hν => hν.elim
    obtain ⟨rfl, -⟩ := List.cons.inj (hlits : l :: _ = first :: rest)
    exact hl

theorem Confined.storeImplied (d : Lit × Lit) (hc : Confined Unfollowed c b s) :
    Confined Unfollowed c b (s.storeImplied d) := by
  unfold Solver.storeImplied
  simp only
  split
  · exact hc
  · exact (hc.withStats _).learnImplied _ _

/-- Entering models assigns nothing. -/
theorem Confined.enterAnswer (r : Renaming) (ledger : ModelLedger) (answer : EngineAnswer)
    (hc : Confined Unfollowed c b s) :
    Confined Unfollowed c b (s.enterAnswer r ledger answer).2 := by
  unfold Solver.enterAnswer
  refine List.foldlRecOn answer.models _ (motive := fun (e : ModelLedger × Solver) =>
    Confined Unfollowed c b e.2) hc
    fun e he model _ => ?_
  obtain ⟨pool, stats, heq, -⟩ := enterModel_spec r e.1 e.2 model
  show Confined Unfollowed c b (enterModel r e.1 e.2 model).2
  rw [heq]
  exact he.same rfl rfl rfl rfl he.passed

/-- **An answer is stored**: its literals are over the component. -/
theorem Confined.storeAnswer {r : Renaming} {answer : EngineAnswer} (projected : Bool)
    (hc : Confined Unfollowed c b s) (hunits : ∀ l ∈ answer.units, (r.restore l).var ∈ c.vars) :
    Confined Unfollowed c b (s.storeAnswer r projected answer) := by
  refine List.foldlRecOn _ _ (motive := Confined Unfollowed c b) ?_
    fun t ht d _ => ht.storeImplied d
  refine List.foldlRecOn _ _ (motive := Confined Unfollowed c b) hc fun t ht l hl => ?_
  obtain ⟨m, hm, rfl⟩ := List.mem_map.mp hl
  exact ht.assertImplied projected (hunits m hm)

theorem Confined.backboneByAssumptions {P : SatProcedure} {projected : Bool}
    {ledger ledger' : ModelLedger} {result : Except ToolError ImpliedLiterals}
    (hc : Confined Unfollowed c b s) (h : AtLevel F b n₀ s)
    (hP : (P.Trusted ∧ s.Spans c) ∨ ¬ Satisfiable F)
    (hvars : ∀ v ∈ c.vars, v.index < b.varCount)
    (hr : s.backboneByAssumptions P c ledger projected = .ok (result, ledger', s')) :
    Confined Unfollowed c b s' := by
  rcases backboneByAssumptions_eq_ok hr with hf | ⟨s₁, hp, hids, hengine⟩
  · exact hc.fails h hf
  have hready := (h.propagate hp).1 rfl
  have hc₁ := (hc.propagate h.sound hp).1
  have hvars₁ : ∀ v ∈ c.vars, v.index < s₁.varCount := hready.within.varCount ▸ hvars
  rcases hengine with ⟨e, -, rfl⟩
    | ⟨request, answer, e, hrun, ⟨-, -, rfl⟩ | ⟨s₂, s₃, rfl, rfl, hend⟩⟩
  · exact hc₁
  · exact hc₁
  · have hright := openEngine_spec hready.sound (hP.imp_left fun ht =>
      ⟨ht.1, ht.2.grown h.sound hready.sound (propagate_spec h.sound hp).1.grown⟩) hvars₁ hids hrun
    obtain ⟨hentered, -⟩ := hready.enterModels (r := s₁.openNumbers c) answer.models ledger
    have hstored := (hready.storeAnswer ledger projected hvars₁ hright).1
    have hc₃ := ((hc₁.enterAnswer (s₁.openNumbers c) ledger answer).storeAnswer projected
      fun l hl => mem_restore hvars₁ (hright.units l hl).inRange).rewind hstored.within
        hentered.within.size_le
    have hstored := hstored.rewind (s₁.enterAnswer (s₁.openNumbers c) ledger answer).2.trail.size
    rcases hend with hf | ⟨-, hp₄⟩
    · exact hc₃.fails hstored hf
    · exact (hc₃.propagate hstored.sound hp₄).1

/-! ## The whole call -/

/-- **Implied literals** are over the component, and the scope is restored. -/
theorem Over.impliedLiterals {P : SatProcedure} {fuel : Nat} {projected : Bool}
    {ledger ledger' : ModelLedger} {result : Except ToolError ImpliedLiterals} (hs : Sound F s)
    (hflags : s.scope.Exact s.varCount)
    (hcall : s.Callable P c ∨ ¬ Satisfiable F)
    (h : s.impliedLiterals P fuel c ledger projected = .ok (result, ledger', s')) :
    Over c s s' ∧ s'.scope = s.scope := by
  rcases impliedLiterals_eq_ok h with ⟨-, -, -, stats, rfl⟩
    | ⟨-, hvars, stats, r, s₂, hback, hend, -⟩
  · exact ⟨.refl c s, rfl⟩
  have hstart : AtLevel F s 0 { s with scope := s.scopeOf c, stats := stats } :=
    .start hs 0 _ stats
  have hc : Confined Unfollowed c s { s with scope := s.scopeOf c, stats := stats } :=
    (Over.refl c s).enter hflags hvars (.refl hs) (fun _ hl => hl) (fun _ hν => hν.elim) stats
  cases hengine : s.options.engine with
  | native =>
    obtain ⟨implied, -, hprobe⟩ := backbone_native hback hengine
    have hc₂ := hc.backboneByProbing hs hvars hstart hprobe
    obtain ⟨hexp, -⟩ := backboneByProbing_spec hs hvars hstart hprobe
    have hs₂ : Sound F s₂ ∧ Within s s₂ := by
      cases implied with
      | unsatisfiable clause =>
        exact ⟨(hexp.disproved clause rfl).sound, (hexp.disproved clause rfl).within⟩
      | forced lits complete =>
        exact ⟨(hexp.forced lits complete rfl).1.sound, (hexp.forced lits complete rfl).1.within⟩
    obtain ⟨hover, hscope, -⟩ := hc₂.leave hs₂.1 hs₂.2 (Nat.le_refl _) hflags hend
    exact ⟨hover, hscope⟩
  | external =>
    have hP : (P.Trusted ∧ s.Spans c) ∨ ¬ Satisfiable F := hcall.imp_left fun hc =>
      hc.resolve_left fun hn => nomatch hengine.symm.trans hn
    unfold backbone at hback
    simp only [hengine] at hback
    have hc₂ := hc.backboneByAssumptions hstart hP hvars hback
    have hcon := backboneByAssumptions_spec (s := { s with scope := s.scopeOf c, stats := stats })
      hP hvars hstart hback
    obtain ⟨hover, hscope, -⟩ := hc₂.leave hcon.sound hcon.within (Nat.le_refl _) hflags hend
    exact ⟨hover, hscope⟩

end Solver

end Cleave
