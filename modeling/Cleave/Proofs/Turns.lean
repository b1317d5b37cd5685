import Cleave.Proofs.Certificates
import Cleave.Proofs.Definedness
import Cleave.Proofs.Schedules
import Mathlib.Data.List.Lex
import Mathlib.Data.List.Nodup

/-!
# The turns of a search

A search goes on in turns: it propagates, and then it learns from a conflict,
maybe restarting, or takes a decision, or ends. Here one turn is a function of its
own (`Solver.turn`), over any restart schedule, and the loop of a search repeats
it (`Solver.searchWithin_eq_turns`). What a turn can do is said once
(`Solver.Takes`).

A turn keeps what a search keeps, fails by scores only, and unless it restarts it
moves up in an order that does not depend on the clauses: the list of the
positions where levels end grows lexicographically (`Solver.Engaged.climbs`). A
conflict makes a level longer that was there before, whatever happens above it.
-/

namespace Cleave

namespace Solver

/-! ## One turn -/

/-- **Where a search stands** between two turns: its schedule, the conflicts that
it met, and the state. -/
structure Standing (σ : Type) where
  schedule : σ
  conflicts : Nat
  solver : Solver

/-- Why a search goes on. -/
inductive Event where
  /-- A clause was learnt and asserted. -/
  | conflict
  /-- After that, the search went back to its entry level. -/
  | restart
  | decision
deriving DecidableEq

/-- How a turn ends. -/
inductive Turn (σ : Type) where
  | ends (result : SearchResult) (s : Solver)
  | goesOn (event : Event) (next : Standing σ)

variable {σ : Type}

/-- **One turn of a search.** -/
def turn (tick : σ → Bool × σ) (c : Component) (entry : Nat) (budget : Option Nat)
    (p : Standing σ) : Except Fault (Turn σ) :=
  match p.solver.propagate with
  | (some conflict, s) => do
    match ← s.countConflict.handleConflict entry conflict with
    | (.refuted learnt, s) => return .ends (.refuted learnt) s
    | (.goesOn, s) =>
      if budget.any (· ≤ p.conflicts + 1) then return .ends .unknown s
      match tick p.schedule with
      | (true, schedule) =>
        let s ← s.restart entry
        return .goesOn .restart ⟨schedule, p.conflicts + 1, s⟩
      | (false, schedule) => return .goesOn .conflict ⟨schedule, p.conflicts + 1, s⟩
  | (none, s) => do
    match ← s.nextDecision c with
    | none => return .ends (.satisfiable s.captureModel.1) s.captureModel.2
    | some l => return .goesOn .decision ⟨p.schedule, p.conflicts, s.countDecision.openDecision l⟩

/-- Turn after turn, at most `fuel` of them. -/
def turns (tick : σ → Bool × σ) (c : Component) (entry : Nat) (budget : Option Nat) :
    Nat → Standing σ → Except Fault (SearchResult × Solver)
  | 0, _ => .error .outOfFuel
  | fuel + 1, p => do
    match ← turn tick c entry budget p with
    | .ends r s => return (r, s)
    | .goesOn _ q => turns tick c entry budget fuel q

/-- **A search takes turns**, by induction on the fuel. -/
theorem searchWithin_eq_turns (c : Component) (entry : Nat) (budget : Option Nat) (fuel : Nat)
    (schedule : RestartSchedule) (conflicts : Nat) (s : Solver) :
    searchWithin c entry budget fuel schedule conflicts s
      = turns RestartSchedule.tick c entry budget fuel ⟨schedule, conflicts, s⟩ := by
  induction fuel generalizing schedule conflicts s with
  | zero => rfl
  | succ fuel ih =>
    unfold searchWithin turns turn
    simp only
    cases s.propagate with
    | mk conflict? s₁ =>
      cases conflict? with
      | some conflict =>
        simp only
        cases s₁.countConflict.handleConflict entry conflict with
        | error e => rfl
        | ok handled =>
          obtain ⟨after, s₂⟩ := handled
          cases after with
          | refuted learnt => rfl
          | goesOn =>
            by_cases hany : budget.any (· ≤ conflicts + 1) = true
            · simp only [bind, Except.bind, if_pos hany]
              rfl
            · simp only [bind, Except.bind, if_neg hany]
              cases schedule.tick with
              | mk due schedule =>
                cases due with
                | false => exact ih _ _ _
                | true =>
                  simp only
                  cases s₂.restart entry with
                  | error e => rfl
                  | ok s₃ => exact ih _ _ _
      | none =>
        simp only
        cases s₁.nextDecision c with
        | error e => rfl
        | ok o =>
          cases o with
          | none => rfl
          | some l => exact ih _ _ _

/-! ## What a turn can do -/

section

variable {tick : σ → Bool × σ} {c : Component} {entry : Nat} {budget : Option Nat}
variable {F : List Clause} {b s s' : Solver} {safe : Prop} {p q : Standing σ} {e : Event}

/-- **What a turn can do.** -/
inductive Takes (tick : σ → Bool × σ) (c : Component) (entry : Nat) (budget : Option Nat)
    (p : Standing σ) : Turn σ → Prop where
  | refuted {conflict : Conflict} {s₁ s₂ : Solver} {learnt : Learnt}
      (hp : p.solver.propagate = (some conflict, s₁))
      (hh : s₁.countConflict.handleConflict entry conflict = .ok (.refuted learnt, s₂)) :
      Takes tick c entry budget p (.ends (.refuted learnt) s₂)
  | exhausted {conflict : Conflict} {s₁ s₂ : Solver}
      (hp : p.solver.propagate = (some conflict, s₁))
      (hh : s₁.countConflict.handleConflict entry conflict = .ok (.goesOn, s₂))
      (hbudget : budget.any (· ≤ p.conflicts + 1) = true) :
      Takes tick c entry budget p (.ends .unknown s₂)
  | conflict {conflict : Conflict} {s₁ s₂ : Solver} {schedule : σ}
      (hp : p.solver.propagate = (some conflict, s₁))
      (hh : s₁.countConflict.handleConflict entry conflict = .ok (.goesOn, s₂))
      (hbudget : ¬ budget.any (· ≤ p.conflicts + 1) = true)
      (htick : tick p.schedule = (false, schedule)) :
      Takes tick c entry budget p (.goesOn .conflict ⟨schedule, p.conflicts + 1, s₂⟩)
  | restart {conflict : Conflict} {s₁ s₂ s₃ : Solver} {schedule : σ}
      (hp : p.solver.propagate = (some conflict, s₁))
      (hh : s₁.countConflict.handleConflict entry conflict = .ok (.goesOn, s₂))
      (hbudget : ¬ budget.any (· ≤ p.conflicts + 1) = true)
      (htick : tick p.schedule = (true, schedule)) (hr : s₂.restart entry = .ok s₃) :
      Takes tick c entry budget p (.goesOn .restart ⟨schedule, p.conflicts + 1, s₃⟩)
  | model {s₁ : Solver} (hp : p.solver.propagate = (none, s₁))
      (hnext : s₁.nextDecision c = .ok none) :
      Takes tick c entry budget p (.ends (.satisfiable s₁.captureModel.1) s₁.captureModel.2)
  | decision {s₁ : Solver} {l : Lit} (hp : p.solver.propagate = (none, s₁))
      (hnext : s₁.nextDecision c = .ok (some l)) :
      Takes tick c entry budget p
        (.goesOn .decision ⟨p.schedule, p.conflicts, s₁.countDecision.openDecision l⟩)

theorem takes_of_turn {t : Turn σ} (h : turn tick c entry budget p = .ok t) :
    Takes tick c entry budget p t := by
  unfold turn at h
  split at h
  · rename_i conflict s₁ hp
    obtain ⟨⟨after, s₂⟩, hh, h⟩ := Except.bind_eq_ok.mp h
    cases after with
    | refuted learnt =>
      obtain rfl := Except.ok.inj h
      exact .refuted hp hh
    | goesOn =>
      simp only at h
      split at h
      · rename_i hbudget
        obtain rfl := Except.ok.inj h
        exact .exhausted hp hh hbudget
      · rename_i hbudget
        split at h
        · rename_i schedule htick
          obtain ⟨s₃, hr, h⟩ := Except.bind_eq_ok.mp h
          obtain rfl := Except.ok.inj h
          exact .restart hp hh hbudget htick hr
        · rename_i schedule htick
          obtain rfl := Except.ok.inj h
          exact .conflict hp hh hbudget htick
  · rename_i s₁ hp
    obtain ⟨o, hnext, h⟩ := Except.bind_eq_ok.mp h
    cases o with
    | none =>
      obtain rfl := Except.ok.inj h
      exact .model hp hnext
    | some l =>
      obtain rfl := Except.ok.inj h
      exact .decision hp hnext

/-! ## What a turn keeps -/

/-- **A search under way** whose activity does not fail if `safe` holds. -/
structure Engaged (F : List Clause) (b : Solver) (entry : Nat) (safe : Prop) (s : Solver) :
    Prop where
  searching : Searching F b entry 0 s
  safe : safe → s.Safe

/-- A conflict that a turn meets, counted. -/
theorem Engaged.conflicting {conflict : Conflict} (h : Engaged F b entry safe s)
    (hp : s.propagate = (some conflict, s')) :
    Conflicting F b entry 0 s'.countConflict conflict ∧ (safe → s'.countConflict.Safe) :=
  ⟨((h.searching.propagate hp).2 conflict rfl).withStats _,
    fun hsafe => (Upkeep.propagate hp).safe (h.safe hsafe)⟩

theorem Engaged.next (h : Engaged F b entry safe p.solver) (hb : b.level ≤ entry)
    (hvars : ∀ v ∈ c.vars, v.index < b.varCount)
    (ht : Takes tick c entry budget p (.goesOn e q)) : Engaged F b entry safe q.solver := by
  cases ht with
  | conflict hp hh _ _ =>
    obtain ⟨hconf, hsafe⟩ := h.conflicting hp
    exact ⟨(handleConflict_spec hconf hb hh).2 rfl,
      fun hs => (Upkeep.handleConflict hh).safe (hsafe hs)⟩
  | restart hp hh _ _ hr =>
    obtain ⟨hconf, hsafe⟩ := h.conflicting hp
    exact ⟨((handleConflict_spec hconf hb hh).2 rfl).restart hb hr,
      fun hs => ((Upkeep.restart hr).after (Upkeep.handleConflict hh)).safe (hsafe hs)⟩
  | @decision s₁ l hp hnext =>
    obtain ⟨hs₁, hhead, hset⟩ := (h.searching.propagate hp).1 rfl
    obtain ⟨hl, hopen⟩ := (nextDecision_spec hnext).1 l rfl
    have hin : l.var.index < s₁.varCount := by
      rw [hs₁.within.varCount]
      exact hvars _ hl
    exact ⟨(hs₁.withStats s₁.countDecision.stats).decided hhead hset hin hopen,
      fun hs => (Upkeep.propagate hp).safe (h.safe hs)⟩

/-- **A turn fails by scores only.** -/
theorem Engaged.failsByScore_turn (h : Engaged F b entry safe p.solver)
    (hvars : ∀ v ∈ c.vars, v.index < b.varCount) :
    FailsByScore safe (turn tick c entry budget p) := by
  unfold turn
  split
  · rename_i conflict s₁ hp
    obtain ⟨hconf, hsafe⟩ := h.conflicting hp
    refine ((hconf.sound.failsByScore_handleConflict hconf.refutes entry).mono hsafe).bind ?_
    rintro ⟨after, s₂⟩ -
    cases after with
    | refuted learnt => exact .ok _
    | goesOn =>
      simp only
      split
      · exact .ok _
      · split
        · exact (FailsByScore.of_exists (exists_restart s₂ entry)).bind fun _ _ => .ok _
        · exact .ok _
  · rename_i s₁ hp
    have hs₁ := ((h.searching.propagate hp).1 rfl).1
    refine FailsByScore.bind (FailsByScore.mono (failsByScore_nextDecision hs₁.sound fun v hv => ?_)
      fun hs => (Upkeep.propagate hp).safe (h.safe hs)) fun o _ => ?_
    · rw [hs₁.within.varCount]
      exact hvars v hv
    · cases o with
      | none => exact .ok _
      | some l => exact .ok _

/-! ## Moving up -/

/-- **Where the levels end**, from level 0 to the current one. -/
def levelEnds (s : Solver) : List Nat := s.trail.starts.toList ++ [s.trail.lits.size]

theorem trail_storeClause (s : Solver) (first : Lit) (rest : List Lit) (learnt : Bool) :
    (s.storeClause first rest learnt).2.trail = s.trail := by
  obtain ⟨store, watches, heq⟩ := storeClause_frame s first rest learnt
  rw [heq]

theorem learn_frame {lesson : Lesson} {learnt : Learnt} (h : s.learn lesson = .ok (learnt, s')) :
    s'.trail = s.trail ∧ learnt.lits = lesson.first :: lesson.rest := by
  unfold learn at h
  simp only at h
  obtain ⟨raised, -, h⟩ := Except.bind_eq_ok.mp h
  obtain ⟨aged, -, h⟩ := Except.bind_eq_ok.mp h
  obtain ⟨rfl, rfl⟩ := Prod.mk.inj (Except.ok.inj h)
  exact ⟨trail_storeClause _ _ _ _, rfl⟩

/-- Asserting puts one literal on the trail. -/
theorem levelEnds_assertLearnt {learnt : Learnt} {first : Lit} {rest : List Lit}
    (hlits : learnt.lits = first :: rest) :
    (s.assertLearnt learnt).levelEnds = s.trail.starts.toList ++ [s.trail.lits.size + 1] := by
  have hpush : ∀ (level : Nat) (reason : Reason) (facts : List Lit),
      levelEnds { s with trail := s.trail.push first level reason, pendingFacts := facts }
        = s.trail.starts.toList ++ [s.trail.lits.size + 1] := by
    intro level reason facts
    show s.trail.starts.toList ++ [(s.trail.lits.push first).size] = _
    rw [Array.size_push]
  unfold assertLearnt
  rw [hlits]
  cases rest with
  | nil => exact hpush _ _ _
  | cons m more => exact hpush _ _ _

/-- **A conflict makes a lower level longer** by the literal that is asserted. -/
theorem Conflicting.levelEnds {conflict : Conflict} (h : Conflicting F b entry 0 s conflict)
    (hb : b.level ≤ entry) (hh : s.handleConflict entry conflict = .ok (.goesOn, s')) :
    ∃ k, ∃ hk : k < s.trail.starts.toList.length, s'.levelEnds
      = s.trail.starts.toList.take k ++ [s.trail.starts.toList[k] + 1] := by
  unfold handleConflict at hh
  split at hh
  · obtain ⟨⟨learnt, s₁⟩, -, hh⟩ := Except.bind_eq_ok.mp hh
    cases Except.ok.inj hh
  obtain ⟨⟨o, s₁⟩, han, hend⟩ := Except.bind_eq_ok.mp hh
  rcases analyze_spec h.sound h.refutes han with ⟨rfl, rfl, -⟩ | ⟨lesson, rfl, rfl, hv⟩
  · cases Except.ok.inj hend
  simp only at hend
  split at hend
  · obtain ⟨⟨learnt, s₂⟩, -, hend⟩ := Except.bind_eq_ok.mp hend
    cases Except.ok.inj hend
  rename_i hback
  obtain ⟨⟨learnt, s₂⟩, hlearn, hend⟩ := Except.bind_eq_ok.mp hend
  obtain ⟨-, rfl⟩ := Prod.mk.inj (Except.ok.inj hend)
  have hfirst := hv.isFalse lesson.first List.mem_cons_self
  have hL : s₁.trail.levelOf lesson.first.neg.var = s₁.conflictLevel conflict := hv.level
  have hle : s₁.conflictLevel conflict ≤ s₁.level := hL ▸ h.sound.levelOf_le_level hfirst
  have hlt : lesson.backjump < s₁.level := Nat.lt_of_lt_of_le hv.backjump hle
  have hlen : s₁.trail.starts.toList.length = s₁.level := Array.length_toList
  have hcut := (backtrackTo_spec h.sound hlt).2
  have hsize := (back_spec h.sound h.within (by omega) (Nat.le_of_lt hlt)).2.2.size
  obtain ⟨htrail, hlits⟩ := learn_frame hlearn
  refine ⟨lesson.backjump, by omega, ?_⟩
  rw [levelEnds_assertLearnt hlits, htrail, hcut.starts, hsize, Trail.levelStart_succ,
    List.getElem?_eq_getElem (by omega)]
  rfl

/-- **A search moves up** with every turn that does not restart: the list of the
ends of its levels grows, the lower levels counting first. -/
theorem Engaged.climbs (h : Engaged F b entry safe p.solver) (hb : b.level ≤ entry)
    (ht : Takes tick c entry budget p (.goesOn e q)) (he : e ≠ .restart) :
    List.Lex (· < ·) p.solver.levelEnds q.solver.levelEnds := by
  cases ht with
  | restart => exact absurd rfl he
  | @conflict conflict s₁ s₂ _ hp hh _ _ =>
    obtain ⟨k, hk, hends⟩ := (h.conflicting hp).1.levelEnds hb hh
    have hstarts : s₁.countConflict.trail.starts = p.solver.trail.starts :=
      (propagate_spec h.searching.sound hp).1.grown.starts
    simp only [hstarts] at hk hends
    show List.Lex _ p.solver.levelEnds s₂.levelEnds
    have hsplit : p.solver.trail.starts.toList = p.solver.trail.starts.toList.take k
        ++ p.solver.trail.starts.toList[k] :: p.solver.trail.starts.toList.drop (k + 1) := by
      rw [List.getElem_cons_drop, List.take_append_drop]
    rw [hends]
    show List.Lex _ (p.solver.trail.starts.toList ++ [p.solver.trail.lits.size]) _
    conv => enter [2, 1]; rw [hsplit]
    rw [List.append_assoc]
    exact List.Lex.append_left _ (.rel (Nat.lt_succ_self _)) _
  | @decision s₁ l hp hnext =>
    obtain ⟨hgrown, -, -⟩ := propagate_spec h.searching.sound hp
    have hle : p.solver.trail.lits.size ≤ s₁.trail.lits.size := by
      simpa using hgrown.grown.lits.length_le
    have hends : (s₁.countDecision.openDecision l).levelEnds
        = p.solver.trail.starts.toList ++ [s₁.trail.lits.size, s₁.trail.lits.size + 1] := by
      show (s₁.trail.decided l).starts.toList ++ [(s₁.trail.decided l).lits.size] = _
      rw [← Array.length_toList, Trail.lits_decided, Trail.starts_decided, hgrown.grown.starts]
      simp
    show List.Lex _ _ (s₁.countDecision.openDecision l).levelEnds
    rw [hends]
    refine List.Lex.append_left _ ?_ _
    rcases Nat.eq_or_lt_of_le hle with heq | hlt
    · rw [heq]
      exact .cons .nil
    · exact .rel hlt

/-- There are no more levels than variables, and no longer ones. -/
theorem Sound.levelEnds_bounded (hs : Sound F s) : s.levelEnds.length ≤ s.varCount + 1
    ∧ ∀ n ∈ s.levelEnds, n ≤ s.varCount := by
  have hsize := hs.trail.size_le
  have hlt := hs.trail.startsLt
  have hlevels : s.trail.starts.toList.length ≤ s.trail.lits.size := by
    have hnodup : s.trail.starts.toList.Nodup := hs.trail.startsSorted.imp Nat.ne_of_lt
    have hsub : s.trail.starts.toList ⊆ List.range s.trail.lits.size :=
      fun n hn => List.mem_range.mpr (hlt n hn)
    simpa using (hnodup.subperm hsub).length_le
  unfold Solver.levelEnds
  refine ⟨?_, fun n hn => ?_⟩
  · rw [List.length_append, List.length_singleton]
    omega
  · rcases List.mem_append.mp hn with hn | hn
    · exact Nat.le_trans (Nat.le_of_lt (hlt n hn)) hsize
    · exact (List.mem_singleton.mp hn).trans_le hsize

end

end Solver

end Cleave
