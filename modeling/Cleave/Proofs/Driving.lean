import Cleave.Proofs.Solving

/-!
# Driving a solver from outside

A solver may be driven by hand before it is asked for a verdict: clauses are
added, decisions taken, the trail propagated and taken back. A decision that
runs into a conflict is taken back at once.

Propagation stops in the middle of a literal's clauses when it meets a
conflict, and the head has already passed that literal. The literal counts as
propagated from then on, though some of its clauses were never looked at,
until the head goes back to it. `Drive.interrupted` keeps track of these
literals. Where none of them is a root fact when the verdict is asked for, a
positive verdict is right (`Drive.satisfiable_of_solve`): everything above
level 0 is taken back first. Where one is, a clause may have been skipped for
good (`Drive.skipped_clause`).
-/

namespace Cleave

/-- A solver under way, with the clauses it was given and the positions of
literals that count as propagated but were interrupted by a conflict. -/
structure Drive where
  /-- The solver. -/
  solver : Solver
  /-- All clauses that were added. -/
  clauses : List Clause
  /-- The positions of interrupted literals behind the head. -/
  interrupted : List Nat

namespace Drive

/-- The drive after a call left the solver `s`, with the conflict it
reported. An interrupted literal is propagated again once the head is back at
its position. -/
def after (d : Drive) (clauses : List Clause) (r : Option Conflict) (s : Solver) : Drive :=
  { solver := s
    clauses := clauses
    interrupted := (d.interrupted ++ r.toList.map fun _ => s.trail.head - 1).filter
      (· < s.trail.head) }

/-- A call that drives a solver. -/
inductive Call where
  /-- Adds a clause. -/
  | add (c : Clause)
  /-- Propagates the trail. -/
  | propagate
  /-- Takes everything above a level back. -/
  | backtrack (level : Nat)
  /-- Opens a level with a literal. -/
  | decide (l : Lit)

/-- A new solver. -/
def new (options : Options) : Drive := ⟨.new options, [], []⟩

/-- **One call**, none if it is not allowed: clauses are only added at level
0, and decisions only taken on open variables. A decision that runs into a
conflict is taken back at once. -/
def call (d : Drive) : Call → Option Drive
  | .add c => (d.solver.addClause c).toOption.map (d.after (d.clauses ++ [c]) none)
  | .propagate =>
    let (r, s) := d.solver.propagate
    some (d.after d.clauses r s)
  | .backtrack level => some (d.after d.clauses none (d.solver.backtrackTo level))
  | .decide l =>
    if d.solver.trail.isAssigned l.var then none
    else
      (d.solver.decide l).toOption.map fun
        | (none, s) => d.after d.clauses none s
        | (some c, s) => (d.after d.clauses (some c) s).after d.clauses none
            (s.backtrackTo d.solver.level)

/-- Any number of calls in order. -/
def run (d : Drive) (calls : List Call) : Option Drive := calls.foldlM call d

/-- What every drive keeps: the clauses are settled up to the first
interrupted literal. -/
structure Inv (d : Drive) : Prop where
  sound : d.solver.Sound d.clauses
  covers : d.solver.Covers d.clauses
  below : ∀ p ∈ d.interrupted, p < d.solver.trail.head
  settled : ∀ q ≤ d.solver.trail.head, (∀ p ∈ d.interrupted, q ≤ p) →
    Settled [] d.solver.store (d.solver.trail.lits.toList.take q)

variable {d d' : Drive} {s : Solver} {options : Options}

/-- After a call the clauses are settled up to the literals interrupted before
that are still behind the head, and up to the one that was just
interrupted. -/
theorem Inv.after {clauses : List Clause} {r : Option Conflict} (hs : s.Sound clauses)
    (hc : s.Covers clauses) (hpos : r ≠ none → 0 < s.trail.head)
    (hset : ∀ q ≤ s.trail.head, (∀ p ∈ d.interrupted, p < s.trail.head → q ≤ p) →
      (r ≠ none → q < s.trail.head) → Settled [] s.store (s.trail.lits.toList.take q)) :
    Inv (d.after clauses r s) where
  sound := hs
  covers := hc
  below := fun p hp => of_decide_eq_true (List.mem_filter.mp hp).2
  settled := by
    intro q hq hall
    have hq : q ≤ s.trail.head := hq
    refine hset q hq (fun p hp hlt => ?_) (fun hr => ?_)
    · exact hall p (List.mem_filter.mpr ⟨List.mem_append_left _ hp, decide_eq_true hlt⟩)
    · have hlt := hpos hr
      obtain ⟨c, rfl⟩ := Option.ne_none_iff_exists'.mp hr
      have := hall (s.trail.head - 1)
        (List.mem_filter.mpr ⟨by simp, decide_eq_true (Nat.sub_lt hlt Nat.one_pos)⟩)
      omega

theorem inv_new (options : Options) : Inv (new options) where
  sound := Solver.sound_blank options options.maxLearnts
  covers := fun _ _ _ => by simp [new, allHold]
  below := by simp [new]
  settled := by
    intro q hq _
    rw [Nat.le_zero.mp hq, List.take_zero]
    exact .nil _ _

/-! ## Each call -/

theorem Inv.add (h : Inv d) {c : Clause} (hadd : d.solver.addClause c = .ok s) :
    Inv (d.after (d.clauses ++ [c]) none s) := by
  obtain ⟨-, hadds⟩ := Solver.addClause_adds h.sound hadd
  refine .after hadds.sound (hadds.covers h.covers) (by simp) fun q hq hall _ => ?_
  refine hadds.settled q hq fun hq' => h.settled q hq' fun p hp => ?_
  -- a clause that was stored sends the head back to the start
  by_cases hlt : p < s.trail.head
  · exact hall p hp hlt
  · omega

theorem Inv.propagate (h : Inv d) {r : Option Conflict} (hp : d.solver.propagate = (r, s)) :
    Inv (d.after d.clauses r s) := by
  obtain ⟨hd, -, hmore⟩ := Solver.propagate_spec h.sound hp
  have hconf : s.conflicted = d.solver.conflicted :=
    (congrArg Solver.conflicted hd.grown.others).symm
  have hwithin := (Solver.Within.refl h.sound).grown h.sound hd.grown
  refine .after hd.sound (h.covers.of_keeps hconf hwithin.given hwithin.roots)
    (fun hr => Nat.lt_of_le_of_lt (Nat.zero_le _) (hmore hr)) fun q hq hall hlast => ?_
  have hgrow := hd.grown.head
  by_cases hold : q ≤ d.solver.trail.head
  · -- what was settled before
    have hset := h.settled q hold fun p hpi => hall p hpi (Nat.lt_of_lt_of_le (h.below p hpi) hgrow)
    have htake : s.trail.lits.toList.take q = d.solver.trail.lits.toList.take q := by
      obtain ⟨more, hmore⟩ := hd.grown.lits
      have hle := h.sound.trail.headLe
      rw [← hmore, List.take_append_of_le_length (by rw [Array.length_toList]; omega)]
    rw [htake]
    exact hd.grown.settled (fun l hl => List.mem_of_mem_take hl) hset
  · -- beyond the old head nothing was interrupted before
    have hnone : ∀ p ∈ d.interrupted, d.solver.trail.head ≤ p := by
      intro p hpi
      have hlt := h.below p hpi
      have := hall p hpi (Nat.lt_of_lt_of_le hlt hgrow)
      omega
    obtain ⟨m, -, -, hle, hset⟩ := Solver.propagate_settled h.sound hp (Nat.le_refl _)
      h.sound.trail.headLe (h.settled _ (Nat.le_refl _) hnone)
    refine hset.take_le ?_
    by_cases hr : r = none
    · rw [if_pos hr] at hle
      omega
    · rw [if_neg hr] at hle
      have := hlast hr
      omega

theorem Inv.backtrack (h : Inv d) (k : Nat) :
    Inv (d.after d.clauses none (d.solver.backtrackTo k)) := by
  obtain ⟨hstore, hconf, hroots⟩ := h.sound.roots_backtrackTo k
  refine .after (h.sound.backtrackTo k) (h.covers.of_keeps hconf (hstore ▸ .refl _) hroots)
    (by simp) fun q hq hall _ => ?_
  have hbelow : ∀ p ∈ d.interrupted, q ≤ p := by
    intro p hp
    by_cases hlt : p < (d.solver.backtrackTo k).trail.head
    · exact hall p hp hlt
    · omega
  by_cases hk : d.solver.level ≤ k
  · rw [Solver.backtrackTo_of_le hk] at hq ⊢
    exact h.settled q hq hbelow
  · obtain ⟨-, hcut⟩ := Solver.backtrackTo_spec h.sound (Nat.lt_of_not_le hk)
    rw [hcut.head] at hq
    have hle := h.sound.trail.headLe
    exact hcut.settled (by omega) (by omega) (h.settled q (by omega) hbelow)

/-- Opening a level interrupts nothing. -/
theorem Inv.opened (h : Inv d) {l : Lit} (hl : l.var.index < d.solver.varCount)
    (hopen : d.solver.trail.isAssigned l.var = false) (stats : Statistics) :
    Inv { d with solver := ({ d.solver with stats := stats } : Solver).openDecision l } where
  sound := h.sound.decided hl hopen
  covers := by
    have hwithin := (Solver.Within.refl h.sound).decided h.sound.trail hl hopen
    exact h.covers.of_keeps rfl hwithin.given hwithin.roots
  below := h.below
  settled := by
    intro q hq hall
    have hq : q ≤ d.solver.trail.head := hq
    have hle := h.sound.trail.headLe
    show Settled [] d.solver.store ((d.solver.trail.decided l).lits.toList.take q)
    rw [Trail.lits_decided, List.take_append_of_le_length (by rw [Array.length_toList]; omega)]
    exact h.settled q hq hall

theorem Inv.decide (h : Inv d) {l : Lit} {r : Option Conflict}
    (hopen : d.solver.trail.isAssigned l.var = false)
    (hdec : d.solver.decide l = .ok (r, s)) : Inv (d.after d.clauses r s) := by
  obtain ⟨hl, stats, hp⟩ := Solver.decide_eq_ok hdec
  exact (h.opened hl hopen stats).propagate hp

/-! ## Any number of calls -/

theorem Inv.call (h : Inv d) {c : Call} (hc : d.call c = some d') : Inv d' := by
  cases c with
  | add c =>
    obtain ⟨s, hs, rfl⟩ := Option.map_eq_some_iff.mp hc
    exact h.add (Except.toOption_eq_some.mp hs)
  | propagate =>
    obtain rfl := Option.some.inj hc
    exact h.propagate rfl
  | backtrack level =>
    obtain rfl := Option.some.inj hc
    exact h.backtrack level
  | decide l =>
    unfold Drive.call at hc
    simp only at hc
    split at hc
    · cases hc
    · rename_i hopen
      obtain ⟨⟨r, s⟩, hs, hd'⟩ := Option.map_eq_some_iff.mp hc
      have hinv := h.decide (by simpa using hopen) (Except.toOption_eq_some.mp hs)
      cases r with
      | none => exact hd' ▸ hinv
      | some c => exact hd' ▸ hinv.backtrack d.solver.level

/-- **What every drive keeps**, by induction on the calls. -/
theorem Inv.run (h : Inv d) {calls : List Call} (hr : d.run calls = some d') : Inv d' := by
  unfold Drive.run at hr
  induction calls generalizing d with
  | nil =>
    obtain rfl := Option.some.inj hr
    exact h
  | cons c rest ih =>
    obtain ⟨d₁, hc, hrest⟩ := Option.bind_eq_some_iff.mp hr
    exact ih (h.call hc) hrest

theorem run_cons {c : Call} {rest : List Call} (h : d.call c = some d') :
    d.run (c :: rest) = d'.run rest := by
  unfold run
  rw [List.foldlM_cons, h]
  rfl

theorem call_add {c sorted : Clause} (h0 : d.solver.level = 0) (hc : c.normalize = some sorted) :
    d.call (.add c) = some (d.after (d.clauses ++ [c]) none
      ((d.solver.growTo c.varBound).insertClause sorted false)) := by
  unfold call Solver.addClause
  simp only
  rw [if_pos h0, Solver.addNormalized_of_normalize hc]
  rfl

/-! ## The verdict -/

/-- **A positive verdict is right** if no root fact was interrupted. -/
theorem satisfiable_of_solve {calls : List Call} {fuel : Nat} {s' : Solver}
    (h : (new options).run calls = some d)
    (hfree : ∀ p ∈ d.interrupted, d.solver.trail.levelStart 1 ≤ p)
    (hsolve : d.solver.solve fuel = .ok (.satisfiable, s')) : Satisfiable d.clauses := by
  have hinv := (inv_new options).run h
  obtain ⟨hconf, hval⟩ := (Solver.solve_spec hinv.sound hsolve).2.2.2 rfl
  -- going back to level 0 leaves no interrupted literal behind the head
  have hback := hinv.backtrack 0
  have hset : Solver.SettledTo [] (d.solver.backtrackTo 0).trail.head (d.solver.backtrackTo 0) := by
    refine ⟨Nat.le_refl _, hback.sound.trail.headLe, hback.settled _ (Nat.le_refl _) ?_⟩
    intro p hp
    obtain ⟨hp, hlt⟩ := List.mem_filter.mp hp
    have hp : p ∈ d.interrupted := by simpa using hp
    have hlt : p < (d.solver.backtrackTo 0).trail.head := of_decide_eq_true hlt
    have hle : (d.solver.backtrackTo 0).trail.head ≤ d.solver.trail.levelStart 1 :=
      hinv.sound.head_backtrackTo_le 0
    have := hfree p hp
    omega
  obtain ⟨ν, hν⟩ := hval _ hset
  exact ⟨ν, hinv.covers hconf ν hν⟩

/-- Everything is assigned and propagated at level 0, without a conflict. -/
def isFull (d : Drive) : Bool :=
  !d.solver.conflicted && d.solver.level = 0 && d.solver.trail.head = d.solver.trail.lits.size
    && (Var.range d.solver.varCount).all d.solver.trail.isAssigned

theorem solve_of_isFull (h : d.isFull = true) :
    ∃ s', d.solver.solve 1 = .ok (.satisfiable, s') := by
  unfold isFull at h
  simp only [Bool.and_eq_true, Bool.not_eq_true', decide_eq_true_eq, List.all_eq_true] at h
  obtain ⟨⟨⟨hconf, h0⟩, hhead⟩, hall⟩ := h
  exact Solver.solve_of_full 0 hconf h0 hhead hall

/-- A decision that is refused, and clauses that settle everything. -/
def refusing : List Call :=
  [.add [Var.pos ⟨0⟩, Var.neg ⟨1⟩], .add [Var.pos ⟨0⟩, Var.pos ⟨1⟩], .decide (Var.neg ⟨0⟩),
    .add [Var.pos ⟨0⟩], .add [Var.pos ⟨1⟩], .propagate]

theorem satisfiable_of_solve_refusing : ∃ (d : Drive) (s' : Solver),
    (new {}).run refusing = some d ∧ (∀ p ∈ d.interrupted, d.solver.trail.levelStart 1 ≤ p)
      ∧ d.solver.solve 1 = .ok (.satisfiable, s') ∧ Satisfiable d.clauses := by
  have h1 : Clause.normalize [Var.pos ⟨0⟩, Var.neg ⟨1⟩] = some [Var.pos ⟨0⟩, Var.neg ⟨1⟩] := by cbv
  have h2 : Clause.normalize [Var.pos ⟨0⟩, Var.pos ⟨1⟩] = some [Var.pos ⟨0⟩, Var.pos ⟨1⟩] := by cbv
  have hrun : ((new {}).run refusing).any (fun d => d.interrupted.isEmpty && d.isFull) = true := by
    unfold refusing
    rw [run_cons (call_add (by decide +kernel) h1), run_cons (call_add (by decide +kernel) h2)]
    decide +kernel
  obtain ⟨d, hrun, hd⟩ := (Option.any_eq_true _ _).mp hrun
  obtain ⟨hnone, hfull⟩ := Bool.and_eq_true_iff.mp hd
  have hfree : ∀ p ∈ d.interrupted, d.solver.trail.levelStart 1 ≤ p := by
    simp [List.isEmpty_iff.mp hnone]
  obtain ⟨s', hsolve⟩ := solve_of_isFull hfull
  exact ⟨d, s', hrun, hfree, hsolve, satisfiable_of_solve hrun hfree hsolve⟩

/-- The calls after which a false clause is never looked at. Two root facts
are propagated by decisions that they refute, and each conflict comes before
the clause of both. -/
def skipping : List Call :=
  [.add [Var.pos ⟨0⟩, Var.neg ⟨2⟩], .add [Var.pos ⟨1⟩, Var.neg ⟨2⟩],
    .add [Var.pos ⟨0⟩, Var.pos ⟨1⟩], .add [Var.pos ⟨3⟩, Var.neg ⟨2⟩],
    .add [Var.neg ⟨0⟩], .add [Var.neg ⟨1⟩], .add [Var.neg ⟨3⟩],
    .decide (Var.pos ⟨2⟩), .decide (Var.pos ⟨2⟩), .propagate]

/-- **Root facts must not be interrupted**: after `skipping` the verdict is
positive though the clauses have no model. -/
theorem skipped_clause : ¬ ∀ (options : Options) (calls : List Call) (d : Drive) (fuel : Nat)
    (s' : Solver), (new options).run calls = some d →
      d.solver.solve fuel = .ok (.satisfiable, s') → Satisfiable d.clauses := by
  intro hright
  have h1 : Clause.normalize [Var.pos ⟨0⟩, Var.neg ⟨2⟩] = some [Var.pos ⟨0⟩, Var.neg ⟨2⟩] := by cbv
  have h2 : Clause.normalize [Var.pos ⟨1⟩, Var.neg ⟨2⟩] = some [Var.pos ⟨1⟩, Var.neg ⟨2⟩] := by cbv
  have h3 : Clause.normalize [Var.pos ⟨0⟩, Var.pos ⟨1⟩] = some [Var.pos ⟨0⟩, Var.pos ⟨1⟩] := by cbv
  have h4 : Clause.normalize [Var.pos ⟨3⟩, Var.neg ⟨2⟩] = some [Var.neg ⟨2⟩, Var.pos ⟨3⟩] := by cbv
  have hrun : ((new {}).run skipping).any (fun d => d.isFull
      && [[Var.pos ⟨0⟩, Var.pos ⟨1⟩], [Var.neg ⟨0⟩], [Var.neg ⟨1⟩]].all d.clauses.contains)
      = true := by
    unfold skipping
    rw [run_cons (call_add (by decide +kernel) h1), run_cons (call_add (by decide +kernel) h2),
      run_cons (call_add (by decide +kernel) h3), run_cons (call_add (by decide +kernel) h4)]
    decide +kernel
  obtain ⟨d, hrun, hd⟩ := (Option.any_eq_true _ _).mp hrun
  obtain ⟨hfull, hclauses⟩ := Bool.and_eq_true_iff.mp hd
  obtain ⟨s', hsolve⟩ := solve_of_isFull hfull
  obtain ⟨ν, hν⟩ := hright _ _ d 1 s' hrun hsolve
  -- the clause of both facts and the facts themselves
  have hholds : ∀ c ∈ [[Var.pos ⟨0⟩, Var.pos ⟨1⟩], [Var.neg ⟨0⟩], [Var.neg ⟨1⟩]],
      Clause.holds ν c = true := fun c hc =>
    allHold_iff.mp hν c (by simpa using List.all_eq_true.mp hclauses c hc)
  simp [Clause.holds, Lit.holds, Var.pos, Var.neg] at hholds
  grind

end Drive

end Cleave
