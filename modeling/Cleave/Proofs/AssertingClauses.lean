import Cleave.Proofs.OwnClauses
import Cleave.Proofs.UnitClosure

/-!
# Analysis gives an asserting clause

A conflict is a stored clause whose literals are all false. If they are false at
level 0, analysis raises the conflict flag. Otherwise it derives a clause from
the stored ones that is false as well, with one literal of the conflict's
highest level; going back to the level of the second literal opens the first
one and leaves the others false, so the clause asserts it there
(`Lesson.Asserts`).

The walk down the trail never reaches its start: as long as it goes on, a
literal of the conflict's level is left below (`exists_resolve`). That holds
for every choice of a fixed literal, as one that cannot be reached does not
lead off the level.

The clause follows from what the solver itself stores, not just from what it
was given at some time (`Reachable.restsOnGiven`). A clause that was refuted when it
was added is the one thing that is not stored; the conflict flag stands for it.
-/

namespace Cleave

namespace Solver

variable {F G : List Clause} {s s' : Solver} {c : Conflict}

/-- **All stored clauses**, learnt ones included. -/
def stored (s : Solver) : List Clause := s.store.exported.map Prod.fst

/-- The stored clauses and the empty one, which is not stored like the others: the
conflict flag stands for it. -/
def clauses (s : Solver) : List Clause := (if s.conflicted then [[]] else []) ++ s.stored

/-- **A conflict that propagation returns** in a state, on its own or behind a
decision on an open variable. -/
inductive Reports (s : Solver) (c : Conflict) (s' : Solver) : Prop
  | propagate (hr : s.propagate = (some c, s'))
  | decide {l : Lit} (hopen : s.trail.isAssigned l.var = false)
      (hr : s.decide l = .ok (some c, s'))

end Solver

/-- **An asserting clause** for a conflict of level `L` above 0: distinct
variables, entailed and false, with one literal of level `L` and the others
strictly between 0 and `L`. The level to go back to is the one of the second
literal, the highest of all but the first. There the first literal is open, and
the others are still false. Unless the formula was refuted before, the stored clauses
alone entail it. -/
structure Lesson.Asserts (s : Solver) (L : Nat) (lesson : Lesson) : Prop where
  nodup : ((lesson.first :: lesson.rest).map Lit.var).Nodup
  entailed : Entails s.clauses (lesson.first :: lesson.rest)
  ofStored : s.conflicted = false → Entails s.stored (lesson.first :: lesson.rest)
  isFalse : ∀ l ∈ lesson.first :: lesson.rest, s.trail.isFalse l = true
  level : s.trail.levelOf lesson.first.var = L
  between : ∀ l ∈ lesson.rest, 0 < s.trail.levelOf l.var ∧ s.trail.levelOf l.var < L
  backjump : lesson.backjump = (lesson.rest.head?.map fun l => s.trail.levelOf l.var).getD 0
  highest : ∀ l ∈ lesson.rest, s.trail.levelOf l.var ≤ lesson.backjump
  opened : (s.backtrackTo lesson.backjump).trail.isAssigned lesson.first.var = false
  stays : ∀ l ∈ lesson.rest, (s.backtrackTo lesson.backjump).trail.isFalse l = true

namespace Solver

variable {F G : List Clause} {s s' : Solver} {c : Conflict}

/-- A conflict refutes whatever clauses the solver is sound for. -/
theorem Refutes.of_sound (h : Refutes F s c) (hs : Sound G s) : Refutes G s c :=
  ⟨h.stored, hs.entailed.has h.stored.has, h.isFalse⟩

theorem Reports.call (h : s.Reports c s') (F : List Clause) : Call F s F s' := by
  cases h with
  | propagate hr => exact .propagate hr
  | decide hopen hr => exact .decide hopen hr

theorem Reports.refutes (h : s.Reports c s') (hs : Sound F s) : Refutes F s' c := by
  cases h with
  | propagate hr => exact (propagate_spec hs hr).1.conflict c rfl
  | decide hopen hr =>
    obtain ⟨hl, stats, hprop⟩ := decide_eq_ok hr
    exact (propagate_spec (hs.decided hl hopen) hprop).1.conflict c rfl

/-- What follows from the given clauses follows from all. -/
theorem entails_stored {d : Clause} (h : Entails s.store.givenClauses d) : Entails s.stored d :=
  h.mono fun _ hd => List.mem_map_of_mem (ClauseStore.mem_givenClauses.mp hd)

/-- Once the conflict flag is up everything follows. -/
theorem entails_clauses {d : Clause} (h : s.conflicted = false → Entails s.stored d) :
    Entails s.clauses d := by
  unfold clauses
  cases hconf : s.conflicted with
  | false => exact h hconf
  | true =>
    intro ν hν
    have hempty : Clause.holds ν [] = true := allHold_iff.mp hν [] List.mem_cons_self
    cases hempty

/-- **A valid lesson asserts its first literal** one level below or further
down. -/
theorem Sound.asserts {L : Nat} {lesson : Lesson} (hs : Sound G s) (hv : lesson.Valid G s L)
    (hent : s.conflicted = false → Entails s.stored (lesson.first :: lesson.rest)) :
    lesson.Asserts s L := by
  have hfirst : lesson.first.neg ∈ s.trail.lits.toList := hv.isFalse _ List.mem_cons_self
  have hrest : ∀ l ∈ lesson.rest, l.neg ∈ s.trail.lits.toList := fun l hl =>
    hv.isFalse l (List.mem_cons_of_mem _ hl)
  have hlevel : s.trail.levelOf lesson.first.neg.var = L := hv.level
  have hk : lesson.backjump < s.level :=
    Nat.lt_of_lt_of_le hv.backjump (hlevel ▸ hs.levelOf_le_level hfirst)
  obtain ⟨hs', hcut⟩ := backtrackTo_spec hs hk
  exact {
    nodup := hv.nodup
    entailed := entails_clauses hent
    ofStored := hent
    isFalse := fun l hl => hs.trail.isFalse_iff.mpr (hv.isFalse l hl)
    level := hv.level
    between := fun l hl => ⟨Nat.pos_of_ne_zero (hv.lower l hl).1,
      Nat.lt_of_le_of_lt (hv.lower l hl).2 hv.backjump⟩
    backjump := by
      cases hr : lesson.rest with
      | nil => exact hv.unit hr
      | cons l more => exact (hv.second l more hr).symm
    highest := fun l hl => (hv.lower l hl).2
    opened := hcut.open_of_lt_level (m := lesson.first.neg) hs hs' hfirst
      (hlevel.symm ▸ hv.backjump)
    stays := by
      intro l hl
      obtain ⟨hpos, hle⟩ := hv.lower l hl
      obtain ⟨more, hlits, -⟩ := hcut.lits
      -- the literal stands before the cut
      refine hs'.trail.isFalse_iff.mpr ?_
      rw [hlits]
      exact List.mem_append_left _ (hs.mem_take_of_level_le (hrest l hl) hpos hle) }

/-- **Conflict analysis**, in every state and with any literal fixed: a conflict
at level 0 raises the conflict flag, and any other gives an asserting clause. -/
theorem Reachable.analysis (h : Reachable F s) (hc : s.Reports c s') (fixed : Option Lit) :
    ((∀ l ∈ s'.conflictLits c, s'.trail.levelOf l.var = 0) →
        s'.analyze c fixed = .ok (none, s'.setConflicted))
      ∧ ((∃ l ∈ s'.conflictLits c, s'.trail.levelOf l.var ≠ 0) →
        ∃ lesson, s'.analyze c fixed = .ok (some lesson, s')
          ∧ lesson.Asserts s' (s'.conflictLevel c)) := by
  have h' : Reachable F s' := .call h (hc.call F)
  have href := hc.refutes h.sound
  constructor
  · intro hzero
    refine analyze_root ?_ fixed
    by_contra hL
    obtain ⟨l, hl, hlevel⟩ := exists_conflictLevel hL
    exact hL (hlevel ▸ hzero l hl)
  · rintro ⟨l, hl, hpos⟩
    have hL : s'.conflictLevel c ≠ 0 := by
      have := le_conflictLevel s' c l hl
      omega
    by_cases hconf : s'.conflicted = true
    · obtain ⟨lesson, hok, hv, -⟩ := exists_lesson h'.sound href hL fixed
      exact ⟨lesson, hok, h'.sound.asserts hv fun hno => nomatch hconf.symm.trans hno⟩
    · have hown := h'.restsOnGiven (by simpa using hconf)
      obtain ⟨lesson, hok, hv, -⟩ := exists_lesson hown (href.of_sound hown) hL fixed
      exact ⟨lesson, hok, hown.asserts hv fun _ => entails_stored hv.entailed⟩

/-- Two clauses that exclude each other once their first two literals are
false. -/
def clash : Formula :=
  { clauses := [[Var.neg ⟨0⟩, Var.neg ⟨1⟩, Var.pos ⟨2⟩], [Var.neg ⟨0⟩, Var.neg ⟨1⟩, Var.neg ⟨2⟩]] }

/-- Two decisions run into the clash, and the clause learnt from it asserts the
opposite of the second one at the level of the first. -/
theorem Reachable.analysis_clash : ∃ (s s' : Solver) (c : Conflict) (lesson : Lesson),
    Reachable clash.clauses s ∧ s.Reports c s'
      ∧ s'.analyze c none = .ok (some lesson, s')
      ∧ lesson.first = Var.neg ⟨1⟩ ∧ lesson.rest = [Var.neg ⟨0⟩] ∧ lesson.backjump = 1
      ∧ lesson.Asserts s' (s'.conflictLevel c) := by
  have hopen : (Solver.ofFormula clash {}).trail.isAssigned ⟨0⟩ = false := by
    rw [ofFormula_of_ascending (f := clash) (by decide) rfl]
    decide +kernel
  have hrun : (do
      let r₁ ← (Solver.ofFormula clash {}).decide (Var.pos ⟨0⟩)
      let r₂ ← r₁.2.decide (Var.pos ⟨1⟩)
      return !r₁.2.trail.isAssigned ⟨1⟩ && r₂.1.any fun c => r₂.2.conflictLevel c == 2
        && (r₂.2.analyze c none).toOption.any fun r₃ => r₃.1.any fun lesson =>
          lesson.first == Var.neg ⟨1⟩ && lesson.rest == [Var.neg ⟨0⟩] && lesson.backjump == 1 :
      Except Fault Bool) = .ok true := by
    rw [ofFormula_of_ascending (f := clash) (by decide) rfl]
    decide +kernel
  obtain ⟨⟨_, s⟩, h₁, hrun⟩ := Except.bind_eq_ok.mp hrun
  obtain ⟨⟨r, s'⟩, h₂, hrun⟩ := Except.bind_eq_ok.mp hrun
  obtain ⟨hopen₁, hconflict⟩ := Bool.and_eq_true_iff.mp (Except.ok.inj hrun)
  obtain ⟨c, rfl, hconflict⟩ := (Option.any_eq_true _ _).mp hconflict
  obtain ⟨hlevel, hanalyze⟩ := Bool.and_eq_true_iff.mp hconflict
  obtain ⟨⟨found, t⟩, h₃, hlesson⟩ := (Option.any_eq_true _ _).mp hanalyze
  have hlevel : s'.conflictLevel c = 2 := beq_iff_eq.mp hlevel
  have hreach : Reachable clash.clauses s :=
    .call (.ofFormula clash {}) (.decide hopen h₁)
  have hreports : s.Reports c s' :=
    .decide (l := Var.pos ⟨1⟩) (Bool.not_eq_true' _ ▸ hopen₁) h₂
  have habove : ∃ l ∈ s'.conflictLits c, s'.trail.levelOf l.var ≠ 0 := by
    obtain ⟨l, hl, hL⟩ := exists_conflictLevel (s := s') (c := c) (by omega)
    exact ⟨l, hl, by omega⟩
  obtain ⟨lesson, hok, hasserts⟩ := (hreach.analysis hreports none).2 habove
  have h₃ := Except.toOption_eq_some.mp h₃
  rw [hok] at h₃
  obtain ⟨rfl, rfl⟩ := Prod.mk.inj (Except.ok.inj h₃)
  simp only [Option.any_some, Bool.and_eq_true, beq_iff_eq] at hlesson
  exact ⟨s, s', c, lesson, hreach, hreports, hok, hlesson.1.1, hlesson.1.2, hlesson.2, hasserts⟩

end Solver

end Cleave
