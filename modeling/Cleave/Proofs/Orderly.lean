import Cleave.Proofs.Backbone

/-!
# Orderly histories

A history is orderly if it reacts to every conflict that is reported to it: it
goes back below the highest level of the clause before it does anything else,
and ends if that level is 0. Decisions are only taken on a trail that was just
propagated without a conflict.

In such a history the clauses are settled below the current level and up to the
head, or, if a conflict is pending, but for its clause (`Solver.Orderly.inv`). A
propagation that is interrupted by a conflict then concerns a literal of the
current level, and a clause that is learnt on the spot is false only above the
level the history goes back to.

With this, what the native engine reports of a closed component is exact
(`Solver.Orderly.implied_exact`).
-/

namespace Cleave

namespace Solver

/-- What the last call of a history left. -/
inductive Phase where
  /-- No conflict. -/
  | idle
  /-- No conflict, and everything propagated. -/
  | propagated
  /-- A clause that is false. -/
  | conflict (clause : Clause)

namespace Phase

/-- No conflict is pending. -/
def IsCalm (p : Phase) : Prop := ∀ clause, p ≠ .conflict clause

/-- After a propagation or a decision. -/
def ofConflict (s : Solver) : Option Conflict → Phase
  | none => .propagated
  | some c => .conflict (s.conflictLits c)

/-- After a search. A refutation is a conflict if all its literals are
false. -/
def ofSearch (s : Solver) : SearchResult → Phase
  | .refuted learnt => if learnt.lits.all s.trail.isFalse then .conflict learnt.lits else .idle
  | _ => .idle

/-- After a computation of implied literals. -/
def ofImplied : ImpliedLiterals → Phase
  | .unsatisfiable clause => .conflict clause
  | .forced _ _ => .idle

end Phase

/-- The highest level among the literals of a clause. -/
def highestLevel (s : Solver) (clause : Clause) : Nat :=
  clause.foldl (fun level l => max level (s.trail.levelOf l.var)) 0

theorem exists_highestLevel {s : Solver} {clause : Clause} (h : s.highestLevel clause ≠ 0) :
    ∃ l ∈ clause, s.trail.levelOf l.var = s.highestLevel clause :=
  (foldl_max_eq_or (fun l : Lit => s.trail.levelOf l.var) clause 0).resolve_left h

theorem highestLevel_le {s : Solver} {clause : Clause} {n : Nat}
    (h : ∀ l ∈ clause, s.trail.levelOf l.var ≤ n) : s.highestLevel clause ≤ n := by
  unfold highestLevel
  refine List.foldlRecOn clause _ (motive := (· ≤ n)) (Nat.zero_le n) fun level hlevel l hl => ?_
  exact Nat.max_le.mpr ⟨hlevel, h l hl⟩

/-- **The states of orderly histories** of a formula. Models may be made and
given back at any time. -/
inductive Orderly (f : Formula) (options : Options) : Solver → Phase → Prop where
  | start : Orderly f options (ofFormula f options) .idle
  | models {s : Solver} {p : Phase} (h : Orderly f options s p) (pool : ModelPool) :
      Orderly f options { s with pool := pool } p
  | propagate {s s' : Solver} {p : Phase} {r : Option Conflict} (h : Orderly f options s p)
      (hp : p.IsCalm) (hr : s.propagate = (r, s')) : Orderly f options s' (.ofConflict s' r)
  | decide {s s' : Solver} {l : Lit} {r : Option Conflict} (h : Orderly f options s .propagated)
      (hopen : s.trail.isAssigned l.var = false) (hr : s.decide l = .ok (r, s')) :
      Orderly f options s' (.ofConflict s' r)
  | backtrack {s : Solver} {p : Phase} (h : Orderly f options s p) (hp : p.IsCalm) (k : Nat) :
      Orderly f options (s.backtrackTo k) .idle
  | recover {s : Solver} {clause : Clause} {k : Nat} (h : Orderly f options s (.conflict clause))
      (hk : k < s.highestLevel clause) : Orderly f options (s.backtrackTo k) .idle
  | search {s s' : Solver} {p : Phase} {fuel : Nat} {c : Component} {budget : Option Nat}
      {r : SearchResult} (h : Orderly f options s p) (hp : p.IsCalm)
      (hr : s.search fuel c budget = .ok (r, s')) : Orderly f options s' (.ofSearch s' r)
  | implied {s s' : Solver} {p : Phase} {P : SatProcedure} {fuel : Nat} {c : Component}
      {ledger ledger' : ModelLedger} {projected : Bool} {r : ImpliedLiterals}
      (h : Orderly f options s p) (hp : p.IsCalm) (hengine : s.options.engine = .native)
      (hr : s.impliedLiterals P fuel c ledger projected = .ok (.ok r, ledger', s')) :
      Orderly f options s' (.ofImplied r)

/-- **What an orderly history keeps.** -/
structure OrderlyInv (F : List Clause) (s : Solver) (p : Phase) : Prop where
  sound : Sound F s
  represents : Represents F s
  /-- The levels below the current one are settled, and with them all that
  counts as propagated. -/
  settledTo : p.IsCalm → ∃ n, s.trail.levelStart s.level ≤ n ∧ SettledTo [] n s
  propagated : p = .propagated → s.trail.head = s.trail.lits.size
    ∧ Settled [] s.store s.trail.lits.toList
  conflict : ∀ clause, p = .conflict clause →
    Entails F clause ∧ (∀ l ∈ clause, l.neg ∈ s.trail.lits.toList)
      ∧ ∃ n, s.trail.levelStart s.level ≤ n ∧ SettledBut [] clause n s

variable {F : List Clause} {s s' : Solver} {p : Phase} {f : Formula} {options : Options}

namespace OrderlyInv

/-- A calm state from what is settled there. -/
theorem idle {n : Nat} (hs : Sound F s) (hrep : Represents F s)
    (hstart : s.trail.levelStart s.level ≤ n) (hn : SettledTo [] n s) : OrderlyInv F s .idle :=
  ⟨hs, hrep, fun _ => ⟨n, hstart, hn⟩, fun h => (nomatch h), fun _ h => (nomatch h)⟩

/-- A state with everything settled. -/
theorem idle_of_all (hs : Sound F s) (hrep : Represents F s)
    (hset : Settled [] s.store s.trail.lits.toList) : OrderlyInv F s .idle :=
  idle hs hrep (hs.trail.levelStart_le _) (.of_all hs hset)

/-- A state with a conflict. -/
theorem pending {n : Nat} {clause : Clause} (hs : Sound F s) (hrep : Represents F s)
    (hstart : s.trail.levelStart s.level ≤ n) (hset : SettledBut [] clause n s)
    (hent : Entails F clause) (hfalse : ∀ l ∈ clause, l.neg ∈ s.trail.lits.toList) :
    OrderlyInv F s (.conflict clause) where
  sound := hs
  represents := hrep
  settledTo := fun hp => absurd rfl (hp clause)
  propagated := fun h => (nomatch h)
  conflict := by
    intro clause' h
    obtain rfl := Phase.conflict.inj h
    exact ⟨hent, hfalse, n, hstart, hset⟩

end OrderlyInv

/-- The same levels start where they did. -/
theorem Within.levelStart_eq (hw : Within s s') (hlevel : s'.level = s.level) :
    s'.trail.levelStart s'.level = s.trail.levelStart s.level := by
  have hlen : s.trail.starts.toList.length = s.level := Array.length_toList
  have hlen' : s'.trail.starts.toList.length = s'.level := Array.length_toList
  have hstarts := hw.starts.eq_of_length (by omega)
  rw [hlevel]
  exact Trail.levelStart_congr (Array.toList_inj.mp hstarts.symm) (Nat.le_refl _)

namespace OrderlyInv

/-- What satisfies the solver satisfies the clauses, if anything does. -/
theorem covers (h : OrderlyInv F s p) (hsat : Satisfiable F) :
    ∀ ν, GivenHold s ν → allHold ν F = true := by
  refine h.represents.covers ?_
  by_contra hc
  exact h.sound.refuted (by simpa using hc) hsat

theorem represents_within (h : OrderlyInv F s p) (hw : Within s s')
    (hconf : s'.conflicted = false → s.conflicted = false) : Represents F s' :=
  h.represents.of_keeps hconf hw.given hw.roots

end OrderlyInv

theorem inv_start (f : Formula) (options : Options) :
    OrderlyInv f.clauses (ofFormula f options) .idle := by
  have hs := sound_ofFormula f options
  refine .idle hs (represents_ofFormula f options) (n := (ofFormula f options).trail.head) ?_
    ⟨Nat.le_refl _, hs.trail.headLe, settled_ofFormula f options⟩
  rw [level_ofFormula]
  exact Nat.zero_le _

/-! ## What one call keeps -/

namespace OrderlyInv

/-- Models do not matter. -/
theorem models (h : OrderlyInv F s p) (pool : ModelPool) :
    OrderlyInv F { s with pool := pool } p :=
  ⟨h.sound, h.represents, fun hp => (h.settledTo hp).imp fun _ hn =>
    ⟨hn.1, hn.2.head, hn.2.size, hn.2.settled⟩, h.propagated, h.conflict⟩

/-- A propagation settles everything, or stops at a literal beyond what is
settled. -/
theorem propagate {r : Option Conflict} (h : OrderlyInv F s p) (hp : p.IsCalm)
    (hr : s.propagate = (r, s')) : OrderlyInv F s' (.ofConflict s' r) := by
  obtain ⟨n, hstart, hn⟩ := h.settledTo hp
  obtain ⟨hdrawn, hhead, -⟩ := propagate_spec h.sound hr
  have hw : Within s s' := (Within.refl h.sound).grown h.sound hdrawn.grown
  have hrep := h.represents_within hw fun hf =>
    (congrArg Solver.conflicted hdrawn.grown.others).trans hf
  obtain ⟨m, hnm, hm, -, hset⟩ := propagate_settled h.sound hr hn.head hn.size hn.settled
  have hstart' : s'.trail.levelStart s'.level ≤ m := by
    rw [hw.levelStart_eq hdrawn.grown.level]
    omega
  cases r with
  | none =>
    have hall : Settled [] s'.store s'.trail.lits.toList :=
      propagate_settled_all h.sound hr hn.head hn.size hn.settled
    have hidle := idle_of_all hdrawn.sound hrep hall
    exact ⟨hidle.sound, hrep, fun _ => hidle.settledTo fun _ hc => (nomatch hc),
      fun _ => ⟨hhead rfl, hall⟩, fun _ hc => (nomatch hc)⟩
  | some c =>
    have href := hdrawn.conflict c rfl
    exact .pending hdrawn.sound hrep hstart' (.of_settled _ hm hset) href.entailed href.isFalse

/-- A decision opens a level above all that is settled. -/
theorem decided {l : Lit} (h : OrderlyInv F s .propagated) (hl : l.var.index < s.varCount)
    (hopen : s.trail.isAssigned l.var = false) (stats : Statistics) :
    OrderlyInv F (({ s with stats := stats } : Solver).openDecision l) .idle := by
  obtain ⟨-, hset⟩ := h.propagated rfl
  have hready : Ready F s s.trail.lits.size { s with stats := stats } :=
    ⟨h.sound, .refl h.sound, rfl, fun _ hn => hn.all⟩
  obtain ⟨hs, hw, -, hto⟩ := hready.assume hl hopen
  refine .idle hs (h.represents_within hw id) ?_ (hto [] (.of_all h.sound hset))
  show (s.trail.decided l).levelStart (s.trail.decided l).level ≤ s.trail.lits.size
  rw [Trail.level_decided, Trail.levelStart_decided _ _ (Nat.le_refl _)]
  exact h.sound.trail.levelStart_le _

/-- What is below a level stays settled when the level is taken back. -/
theorem cut {k : Nat} (h : OrderlyInv F s p) (hk : k < s.level)
    (hset : Settled [] s.store (s.trail.lits.toList.take (s.trail.levelStart (k + 1)))) :
    OrderlyInv F (s.backtrackTo k) .idle := by
  obtain ⟨hs', hc⟩ := backtrackTo_spec h.sound hk
  obtain ⟨hstore, hconf, hroots⟩ := h.sound.roots_backtrackTo k
  refine .idle hs' (h.represents.of_keeps (fun hf => hconf ▸ hf) (hstore ▸ .refl _) hroots)
    (n := s.trail.levelStart (k + 1)) ?_ ⟨?_, hc.levelStart_le_size h.sound, ?_⟩
  · rw [hc.level hk, hc.levelStart_eq hk (Nat.le_refl _)]
    exact h.sound.trail.levelStart_mono (Nat.le_succ k)
  · rw [hc.head]
    exact Nat.min_le_right _ _
  · exact hc.settled (Nat.le_refl _) (h.sound.trail.levelStart_le _) hset

/-- Going back without a conflict. -/
theorem backtrack (h : OrderlyInv F s p) (hp : p.IsCalm) (k : Nat) :
    OrderlyInv F (s.backtrackTo k) .idle := by
  obtain ⟨n, hstart, hn⟩ := h.settledTo hp
  by_cases hk : k < s.level
  · exact h.cut hk (hn.settled.take_le (Nat.le_trans (h.sound.trail.levelStart_mono hk) hstart))
  · rw [backtrackTo_of_le (Nat.le_of_not_lt hk)]
    exact .idle h.sound h.represents hstart hn

/-- A conflict is above the level it is taken back to, so a literal of its clause
is not false there. -/
theorem recover {clause : Clause} {k : Nat} (h : OrderlyInv F s (.conflict clause))
    (hk : k < s.highestLevel clause) : OrderlyInv F (s.backtrackTo k) .idle := by
  obtain ⟨-, hfalse, n, hstart, -, hset⟩ := h.conflict clause rfl
  have hlt : k < s.level := Nat.lt_of_lt_of_le hk
    (highestLevel_le fun l hl => h.sound.levelOf_le_level (m := l.neg) (hfalse l hl))
  obtain ⟨l, hl, hlevel⟩ := exists_highestLevel (Nat.ne_zero_of_lt hk)
  refine h.cut hlt (hset _ (Nat.le_trans (h.sound.trail.levelStart_mono hlt) hstart) ⟨l, hl, ?_⟩)
  exact h.sound.not_mem_take_of_lt_level (m := l.neg) (hlevel ▸ hk)

/-- A search leaves more settled than it found, at the same level. -/
theorem search {fuel : Nat} {c : Component} {budget : Option Nat} {r : SearchResult}
    (h : OrderlyInv F s p) (hp : p.IsCalm) (hr : s.search fuel c budget = .ok (r, s')) :
    OrderlyInv F s' (.ofSearch s' r) := by
  obtain ⟨n, hstart, hn⟩ := h.settledTo hp
  obtain ⟨hd, -⟩ := search_spec h.sound (.refl h.sound) (fun _ hb => ⟨n, Nat.le_refl _, hb⟩) hr
  have hrep := h.represents_within hd.own fun hf => by
    by_contra hc
    rw [(search_of_conflicted (by simpa using hc) hr).2] at hf
    cases hf
  rw [← hd.own.levelStart_eq hd.level] at hstart
  have hans := hd.answers
  cases r with
  | satisfiable m =>
    obtain ⟨known, hfound, hset⟩ := hans
    exact .idle_of_all hd.sound hrep ((hset [] hn).mono fun l hl => hfound.starts.mem hl)
  | refuted learnt =>
    obtain ⟨k, hnk, hset, hall⟩ := hans.settled [] hn
    show OrderlyInv F s' (if learnt.lits.all s'.trail.isFalse then _ else _)
    split
    · rename_i hfalse
      rw [List.all_eq_true] at hfalse
      refine .pending hd.sound hrep (Nat.le_trans hstart hnk) hset (hans.entailed hd.sound) ?_
      exact fun l hl => hd.sound.trail.isFalse_iff.mp (hfalse l hl)
    · rename_i hfalse
      rcases hall with rfl | hall
      · obtain ⟨l, hl, hopen⟩ : ∃ l ∈ learnt.lits, l.neg ∉ s'.trail.lits.toList := by
          by_contra hno
          refine hfalse (List.all_eq_true.mpr fun l hl => hd.sound.trail.isFalse_iff.mpr ?_)
          by_contra hopen
          exact hno ⟨l, hl, hopen⟩
        have hwhole := hset.2 _ (Nat.le_refl _) ⟨l, hl, fun hm => hopen (List.mem_of_mem_take hm)⟩
        rw [List.take_of_length_le (by simp)] at hwhole
        exact .idle_of_all hd.sound hrep hwhole
      · refine absurd (List.all_eq_true.mpr fun l hl => ?_) hfalse
        exact hd.sound.trail.isFalse_iff.mpr (hall l hl)
  | unknown =>
    obtain ⟨k, hnk, hk⟩ := hans [] hn
    exact .idle hd.sound hrep (Nat.le_trans hstart hnk) hk

/-- The native engine settles everything, or disproves the trail. -/
theorem implied {P : SatProcedure} {fuel : Nat} {c : Component} {ledger ledger' : ModelLedger}
    {projected : Bool} {r : ImpliedLiterals} (h : OrderlyInv F s p) (hp : p.IsCalm)
    (hengine : s.options.engine = .native)
    (hr : s.impliedLiterals P fuel c ledger projected = .ok (.ok r, ledger', s')) :
    OrderlyInv F s' (.ofImplied r) := by
  obtain ⟨n, hstart, hn⟩ := h.settledTo hp
  have himp := impliedLiterals_spec h.sound hengine hr n
  have hconf : s'.conflicted = false → s.conflicted = false := fun hf => by
    by_contra hc
    rw [(impliedLiterals_of_conflicted (by simpa using hc) hr).2] at hf
    cases hf
  cases r with
  | unsatisfiable clause =>
    have hd := himp.disproved clause rfl
    obtain ⟨k, hnk, hset⟩ := hd.settled [] hn
    rw [← hd.within.levelStart_eq hd.level] at hstart
    exact .pending hd.sound (h.represents_within hd.within hconf) (Nat.le_trans hstart hnk) hset
      hd.entailed hd.isFalse
  | forced lits complete =>
    obtain ⟨hready, -⟩ := himp.forced lits complete rfl
    exact .idle_of_all hready.sound (h.represents_within hready.within hconf) (hready.settled [] hn)

end OrderlyInv

/-- **Orderly histories keep their invariant.** -/
theorem Orderly.inv (h : Orderly f options s p) : OrderlyInv f.clauses s p := by
  induction h with
  | start => exact inv_start f options
  | models _ pool ih => exact ih.models pool
  | propagate _ hp hr ih => exact ih.propagate hp hr
  | decide _ hopen hr ih =>
    obtain ⟨hl, stats, hprop⟩ := decide_eq_ok hr
    exact (ih.decided hl hopen stats).propagate (fun _ hc => (nomatch hc)) hprop
  | backtrack _ hp k ih => exact ih.backtrack hp k
  | recover _ hk ih => exact ih.recover hk
  | search _ hp hr ih => exact ih.search hp hr
  | implied _ hp hengine hr ih => exact ih.implied hp hengine hr

/-! ## The native backbone -/

/-- No conflict is pending where a valuation completes the assignment. -/
theorem OrderlyInv.isCalm (h : OrderlyInv F s p) {ν : Valuation} (hν : Completes F s ν) :
    p.IsCalm := by
  rintro clause rfl
  obtain ⟨hent, hfalse, -⟩ := h.conflict clause rfl
  exact hν.not_false hν.2 hent hfalse

/-- **The native backbone is exact.** After an orderly history, let the
assignment be completed by some valuation of the formula, let the component be
closed under it, and let the models of the ledger fit it. Then the call never
refutes anything. It reports literals that are forced, one for each variable,
and if it says that they are complete, it reports all that are forced, or all
over the projection. The models of the ledger it leaves fit again. -/
theorem Orderly.implied_exact {P : SatProcedure} {fuel : Nat} {c : Component}
    {ledger ledger' : ModelLedger} {projected : Bool} {result : Except ToolError ImpliedLiterals}
    (h : Orderly f options s p) (hsat : ∃ ν, Completes f.clauses s ν) (hclosed : s.Closed c)
    (hledger : ∀ m ∈ ledger.models, Fits s c s.pool m) (hengine : s.options.engine = .native)
    (hr : s.impliedLiterals P fuel c ledger projected = .ok (result, ledger', s')) :
    ∃ lits complete, result = .ok (.forced lits complete)
      ∧ (lits.map Lit.var).Nodup
      ∧ (∀ l ∈ lits, IsForced f.clauses s c l)
      ∧ (complete = true → ∀ l, IsForced f.clauses s c l →
          (projected = true → s.isProjected l.var = true) → l ∈ lits)
      ∧ ∀ m ∈ ledger'.models, Fits s c s'.pool m := by
  obtain ⟨ν, hν⟩ := hsat
  have hinv := h.inv
  have hs := hinv.sound
  obtain ⟨n, -, hn⟩ := hinv.settledTo (hinv.isCalm hν)
  have himp := impliedLiterals_spec hs hengine hr n
  have hfits := himp.enters.fits hn hclosed hledger
  obtain ⟨implied, rfl⟩ := himp.answered
  cases implied with
  | unsatisfiable clause =>
    have hd := himp.disproved clause rfl
    exact (hν.not_false (hν.holds hs hd.sound hd.within hd.level) hd.entailed hd.isFalse).elim
  | forced lits complete =>
    obtain ⟨hready, hne, rfl, hcomplete⟩ := himp.forced lits complete rfl
    have hmem : ∀ l, l ∈ (s'.trail.litsFrom s.trail.size).filter (fun l => c.contains l.var)
        ↔ (l ∈ s'.trail.lits.toList ∧ s.trail.isAssigned l.var = false) ∧ l.var ∈ c.vars := by
      intro l
      rw [List.mem_filter, hready.within.mem_litsFrom hs hready.sound]
      simp [Component.contains]
    refine ⟨_, complete, rfl, ?_, fun l hl => ?_, fun hc l hl hproj => ?_, hfits⟩
    · refine hready.sound.trail.nodup.sublist (List.Sublist.map _ ?_)
      exact List.filter_sublist.trans (List.drop_sublist _ _)
    · obtain ⟨⟨hin, hopen⟩, hv⟩ := (hmem l).mp hl
      exact ⟨hv, hopen, fun ν' hν' => hν'.holds hs hready.sound hready.within hready.level l hin⟩
    · -- all models agree on a forced literal, so it is no candidate only if it is assigned
      have hun := unanimous_of_shared hs (hinv.covers ⟨ν, hν.1⟩) hclosed hfits hne hν hl.var
        hl.isOpen hl.holds
      have hassigned : s'.trail.isAssigned l.var = true := by
        by_contra ha
        have hcand : l ∈ s'.candidates (c.vars.filter fun v => !projected || s.isProjected v)
            ledger' := by
          refine mem_candidates.mpr ⟨List.mem_filter.mpr ⟨hl.var, ?_⟩, by simpa using ha, hun⟩
          cases projected with
          | false => rfl
          | true => exact hproj rfl
        rw [hcomplete hc] at hcand
        cases hcand
      obtain ⟨x, hx, hv⟩ := hready.sound.trail.isAssigned_iff.mp hassigned
      obtain rfl : x = l := Lit.eq_of_holds hv
        (hν.holds hs hready.sound hready.within hready.level x hx) (hl.holds ν hν)
      exact (hmem x).mpr ⟨⟨hx, hl.isOpen⟩, hl.var⟩

/-- A fact and an implication that is not propagated yet. -/
def chain : Formula := { clauses := [[Var.pos ⟨0⟩], [Var.neg ⟨0⟩, Var.pos ⟨1⟩]] }

/-- The model of `chain`, in a pool of its own. -/
def chainModel : Model × ModelPool :=
  let (m, pool) := ModelPool.allocate {} 2
  pool.assignAll m [Var.pos ⟨0⟩, Var.pos ⟨1⟩]

/-- The solver for `chain`, with its model. -/
def chainSolver : Solver := { ofFormula chain {} with pool := chainModel.2 }

theorem ofFormula_chain : ofFormula chain {} =
    (((((new {}).growTo 2).growTo 1).insertClause [Var.pos ⟨0⟩] false).growTo 2).insertClause
      [Var.neg ⟨0⟩, Var.pos ⟨1⟩] false :=
  ofFormula_of_ascending (by decide) rfl {}

theorem chainSolver_eq : chainSolver =
    { (((((new {}).growTo 2).growTo 1).insertClause [Var.pos ⟨0⟩] false).growTo 2).insertClause
        [Var.neg ⟨0⟩, Var.pos ⟨1⟩] false with pool := chainModel.2 } := by
  rw [chainSolver, ofFormula_chain]

deriving instance DecidableEq for ImpliedLiterals

theorem Orderly.implied_exact_chain : ∃ (ledger' : ModelLedger) (s' : Solver),
    Fits chainSolver chainSolver.initComponent chainSolver.pool chainModel.1
      ∧ chainSolver.impliedLiterals splitting 1 chainSolver.initComponent ⟨[chainModel.1]⟩ false
        = .ok (.ok (.forced [Var.pos ⟨1⟩] true), ledger', s')
      ∧ IsForced chain.clauses chainSolver chainSolver.initComponent (Var.pos ⟨1⟩) := by
  have horderly : Orderly chain {} chainSolver .idle := .models .start _
  have hs := horderly.inv.sound
  have hν : Completes chain.clauses chainSolver fun _ => true := by
    refine ⟨by decide, List.all_eq_true.mp ?_⟩
    rw [chainSolver_eq]
    decide +kernel
  have hvars : ∀ v ∈ chainSolver.initComponent.vars, v.index < chainSolver.varCount := by
    rw [chainSolver_eq]
    decide +kernel
  have hfits : Fits chainSolver chainSolver.initComponent chainSolver.pool chainModel.1 := by
    refine .of_completes hs hν hvars ?_ ?_
    · decide +kernel
    · rw [chainSolver_eq]
      decide +kernel
  have hrun : (chainSolver.impliedLiterals splitting 1 chainSolver.initComponent
      ⟨[chainModel.1]⟩ false).toOption.any
        (fun r => r.1.toOption == some (.forced [Var.pos ⟨1⟩] true)) = true := by
    rw [chainSolver_eq]
    decide +kernel
  have hengine : chainSolver.options.engine = .native := by
    rw [chainSolver_eq]
    decide +kernel
  obtain ⟨⟨result, ledger', s'⟩, hcall, hresult⟩ := (Option.any_eq_true _ _).mp hrun
  have hcall := Except.toOption_eq_some.mp hcall
  obtain ⟨lits, complete, rfl, -, hforced, -⟩ := horderly.implied_exact ⟨_, hν⟩
    hs.closed_initComponent (fun _ hm => List.mem_singleton.mp hm ▸ hfits) hengine hcall
  obtain ⟨rfl, rfl⟩ := ImpliedLiterals.forced.inj (Option.some.inj (beq_iff_eq.mp hresult))
  exact ⟨ledger', s', hfits, hcall, hforced _ List.mem_cons_self⟩

end Solver

end Cleave
