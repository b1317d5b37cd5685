import Cleave.Proofs.Resolution

/-!
# What is learnt from a conflict

The clause that resolution ends with is cut down: a literal that the others
imply is dropped, and one of the highest level is moved to the front of the
lower ones. What remains follows from the clause of the conflict
(`Solver.Follows`), so `F` entails it; it is false now, and becomes unit when
the level of the conflict is taken back (`Lesson.Valid`).

Dropping several literals at once is right because each of them is implied by
literals that stand before it on the trail: the argument goes along the trail
from the front, where a dropped literal only rests on ones already shown
false.
-/

namespace Cleave

/-! ## Reordering -/

/-- Rejecting by swaps keeps what a filter keeps. -/
theorem rejectBySwap_perm {α : Type} (p : α → Bool) (xs : List α) :
    (rejectBySwap p xs).Perm (xs.filter fun x => !p x) := by
  fun_induction rejectBySwap p xs with
  | case1 => exact .refl _
  | case2 x rest hx hlast =>
    have hnil : rest = [] := List.getLast?_eq_none_iff.mp hlast
    simp [hnil, hx]
  | case3 x rest hx last hlast ih =>
    have hrest : rest.dropLast ++ [last] = rest := by
      rw [List.dropLast_append_getLast?]
      exact hlast
    refine ih.trans ?_
    have hperm : (last :: rest.dropLast).Perm rest := by
      conv_rhs => rw [← hrest]
      exact (List.perm_append_singleton _ _).symm
    simpa [hx] using hperm.filter fun x => !p x
  | case4 x rest hx ih =>
    have hx : p x = false := by simpa using hx
    simpa [hx] using ih.cons x

/-- The largest key is at least the others, and one of them. -/
theorem lastMaxFrom_spec (keys : List Nat) (best bestKey pos : Nat) :
    bestKey ≤ (lastMaxFrom best bestKey pos keys).2
      ∧ (∀ k ∈ keys, k ≤ (lastMaxFrom best bestKey pos keys).2)
      ∧ ((lastMaxFrom best bestKey pos keys).2 = bestKey
          ∨ (lastMaxFrom best bestKey pos keys).2 ∈ keys) := by
  induction keys generalizing best bestKey pos with
  | nil => exact ⟨Nat.le_refl _, by simp, Or.inl rfl⟩
  | cons key rest ih =>
    unfold lastMaxFrom
    split
    · rename_i hle
      obtain ⟨h1, h2, h3⟩ := ih pos key (pos + 1)
      refine ⟨Nat.le_trans hle h1, fun k hk => ?_, Or.inr ?_⟩
      · rcases List.mem_cons.mp hk with rfl | hk
        · exact h1
        · exact h2 k hk
      · rcases h3 with h3 | h3
        · rw [h3]
          exact List.mem_cons_self
        · exact List.mem_cons_of_mem _ h3
    · rename_i hgt
      obtain ⟨h1, h2, h3⟩ := ih best bestKey (pos + 1)
      refine ⟨h1, fun k hk => ?_, h3.imp_right (List.mem_cons_of_mem _)⟩
      rcases List.mem_cons.mp hk with rfl | hk
      · omega
      · exact h2 k hk

/-- The position found is the one of the largest key. -/
theorem getElem_lastMaxFrom (pre keys : List Nat) (best bestKey : Nat)
    (hbest : (pre ++ keys)[best]? = some bestKey) :
    (pre ++ keys)[(lastMaxFrom best bestKey pre.length keys).1]?
      = some (lastMaxFrom best bestKey pre.length keys).2 := by
  induction keys generalizing pre best bestKey with
  | nil => exact hbest
  | cons key rest ih =>
    have hstep : pre ++ key :: rest = (pre ++ [key]) ++ rest := by simp
    have hlen : (pre ++ [key]).length = pre.length + 1 := by simp
    unfold lastMaxFrom
    rw [hstep] at hbest ⊢
    rw [← hlen]
    split
    · exact ih (pre ++ [key]) pre.length key (by simp)
    · exact ih (pre ++ [key]) best bestKey hbest

/-- What was at a position is first after it was exchanged with the first. -/
theorem head_swapIfInBounds {α : Type} {xs : List α} {pos : Nat} {x : α} (h : xs[pos]? = some x) :
    (xs.toArray.swapIfInBounds 0 pos).toList.head? = some x := by
  obtain ⟨hpos, rfl⟩ := List.getElem?_eq_some_iff.mp h
  have h0 : 0 < xs.length := Nat.lt_of_le_of_lt (Nat.zero_le _) hpos
  rw [List.head?_eq_getElem?, Array.getElem?_toList]
  by_cases hzero : pos = 0
  · subst hzero
    simp [Array.swapIfInBounds, h0]
  · have hset : ((xs.set 0 xs[pos]).set pos xs[0])[0]? = some xs[pos] := by
      rw [List.getElem?_set_ne hzero, List.getElem?_set_self h0]
    simpa [Array.swapIfInBounds, h0, hpos] using hset

theorem swapIfInBounds_perm {α : Type} (xs : List α) (i j : Nat) :
    (xs.toArray.swapIfInBounds i j).toList.Perm xs := by
  unfold Array.swapIfInBounds
  split
  · split
    · exact (Array.swap_perm _ _).toList
    · exact .refl _
  · exact .refl _

namespace Solver

variable {F : List Clause} {s s' : Solver} {P : Valuation → Prop}

/-- One of the highest level comes first. -/
theorem highestFirst_spec (s : Solver) (lits : List Lit) :
    (s.highestFirst lits).1.Perm lits
      ∧ (∀ l ∈ lits, s.trail.levelOf l.var ≤ (s.highestFirst lits).2)
      ∧ ((s.highestFirst lits).2 = 0
          ∨ ∃ l ∈ lits, s.trail.levelOf l.var = (s.highestFirst lits).2) := by
  cases lits with
  | nil => exact ⟨.refl _, by simp, Or.inl rfl⟩
  | cons l rest =>
    obtain ⟨h1, h2, h3⟩ := lastMaxFrom_spec (rest.map fun m => s.trail.levelOf m.var) 0
      (s.trail.levelOf l.var) 1
    refine ⟨swapIfInBounds_perm _ _ _, fun m hm => ?_, Or.inr ?_⟩
    · rcases List.mem_cons.mp hm with rfl | hm
      · exact h1
      · exact h2 _ (List.mem_map.mpr ⟨m, hm, rfl⟩)
    · rcases h3 with h3 | h3
      · exact ⟨l, List.mem_cons_self, h3.symm⟩
      · obtain ⟨m, hm, he⟩ := List.mem_map.mp h3
        exact ⟨m, List.mem_cons_of_mem _ hm, he⟩

theorem levelOf_head_highestFirst {lits more : List Lit} {m : Lit}
    (h : (s.highestFirst lits).1 = m :: more) :
    s.trail.levelOf m.var = (s.highestFirst lits).2 := by
  cases lits with
  | nil => cases h
  | cons l rest =>
    have hpos := getElem_lastMaxFrom [s.trail.levelOf l.var]
      (rest.map fun m => s.trail.levelOf m.var) 0 (s.trail.levelOf l.var) rfl
    rw [List.singleton_append, ← List.map_cons (f := fun m : Lit => s.trail.levelOf m.var),
      List.getElem?_map] at hpos
    obtain ⟨x, hx, hlevel⟩ := Option.map_eq_some_iff.mp hpos
    have hhead : (s.highestFirst (l :: rest)).1.head? = some x := head_swapIfInBounds hx
    rw [h] at hhead
    exact Option.some.inj hhead ▸ hlevel

/-! ## Dropping implied literals -/

/-- **Dropped literals are false wherever the others are**, by induction along
the trail. -/
theorem Resolved.lower_false {L : Nat} {uip : Lit} {r : Resolution} (h : Resolved P s L uip r)
    (hs : Sound F s) {ν : Valuation} (hν : s.Heeds ν) (huip : uip.holds ν = true)
    (hkept : ∀ l ∈ r.lower.toList, s.isRedundant (r.seen.mark uip.var).2 l = false →
      l.holds ν = false) :
    ∀ n pre m post, pre.length < n → s.trail.lits.toList = pre ++ m :: post →
      m.neg ∈ r.lower.toList → m.holds ν = true := by
  intro n
  induction n with
  | zero => exact fun _ _ _ hlt => absurd hlt (Nat.not_lt_zero _)
  | succ n ih =>
    intro pre m post hlt hsplit hm
    by_cases hred : s.isRedundant (r.seen.mark uip.var).2 m.neg = true
    · unfold isRedundant at hred
      obtain ⟨hreason, hall⟩ := (Bool.and_eq_true _ _).mp hred
      have hfalse := hs.antecedents hsplit (of_decide_eq_true hreason)
      have hmem : m ∈ s.trail.lits.toList := by
        rw [hsplit]
        simp
      rcases hν.forced m hmem (of_decide_eq_true hreason) with hmν | ⟨p, hp, hpν⟩
      · exact hmν
      · -- a literal that forced it would have to be true, but none is
        exfalso
        have hpneg : p.neg ∈ s.trail.lits.toList := by
          rw [hsplit]
          exact List.mem_append_left _ (hfalse p hp)
        have huv : uip.var.index < r.seen.stamps.size := by
          rw [h.tracked.size]
          exact hs.trail.inRange uip h.mem
        have hp' := List.all_eq_true.mp hall p hp
        rcases (Bool.or_eq_true _ _).mp hp' with h0 | hmark
        · have := hν.root p.neg hpneg (of_decide_eq_true h0)
          rw [Lit.holds_neg, hpν] at this
          exact absurd this (by simp)
        · rw [Marks.isMarked_mark huv] at hmark
          rcases (Bool.or_eq_true _ _).mp hmark with hmark | hmark
          · obtain ⟨l, hl, hlv⟩ : ∃ l ∈ r.lower.toList, l.var = p.var := by
              rcases h.tracked.marked _ hmark with ⟨-, x, hx, -⟩ | hlow
              · exact absurd hx (by simp)
              · exact hlow
            have he : l.neg = p.neg := hs.trail.eq_of_var_eq (h.tracked.lower l hl).1 hpneg hlv
            rw [Lit.neg_inj] at he
            obtain ⟨q, rest, hq⟩ := List.append_of_mem (hfalse p hp)
            rw [hq, List.append_assoc, List.cons_append] at hsplit
            have hpm := ih q p.neg _ (by rw [hq] at hlt; simp at hlt; omega) hsplit
              (by rw [Lit.neg_neg]; exact he ▸ hl)
            rw [Lit.holds_neg, hpν] at hpm
            exact absurd hpm (by simp)
          · have he : p.neg = uip := hs.trail.eq_of_var_eq hpneg h.mem (of_decide_eq_true hmark)
            rw [← he, Lit.holds_neg, hpν] at huip
            exact absurd huip (by simp)
    · have hf := hkept m.neg hm (by simpa using hred)
      rw [Lit.holds_neg] at hf
      simpa using hf

/-- The clause without the dropped literals holds as well. -/
theorem Resolved.minimized {L : Nat} {uip : Lit} {r : Resolution} (h : Resolved P s L uip r)
    (hs : Sound F s) (hP : ∀ ν, P ν → s.Heeds ν) {ν : Valuation} (hν : P ν) :
    Clause.holds ν (uip.neg :: r.lower.toList.filter fun l =>
      !s.isRedundant (r.seen.mark uip.var).2 l) = true := by
  by_contra hno
  have hfalse : ∀ l ∈ uip.neg :: r.lower.toList.filter fun l =>
      !s.isRedundant (r.seen.mark uip.var).2 l, l.holds ν = false := by
    intro l hl
    by_contra hl'
    exact hno (Clause.holds_iff.mpr ⟨l, hl, by simpa using hl'⟩)
  have huip : uip.holds ν = true := by
    have := hfalse uip.neg List.mem_cons_self
    rw [Lit.holds_neg] at this
    simpa using this
  have hkept : ∀ l ∈ r.lower.toList, s.isRedundant (r.seen.mark uip.var).2 l = false →
      l.holds ν = false := fun l hl hred =>
    hfalse l (List.mem_cons_of_mem _ (List.mem_filter.mpr ⟨hl, by rw [hred]; rfl⟩))
  obtain ⟨l, hl, hlν⟩ := Clause.holds_iff.mp (h.holds ν hν)
  rcases List.mem_cons.mp hl with rfl | hl
  · rw [Lit.holds_neg, huip] at hlν
    exact absurd hlν (by simp)
  · obtain ⟨pre, post, hsplit⟩ := List.append_of_mem (h.tracked.lower l hl).1
    have hneg := h.lower_false hs (hP ν hν) huip hkept _ pre l.neg post (Nat.lt_succ_self _) hsplit
      (by rw [Lit.neg_neg]; exact hl)
    rw [Lit.holds_neg, hlν] at hneg
    exact absurd hneg (by simp)

end Solver

/-! ## Analysis -/

/-- **A valid lesson** from a conflict at level `L`: entailed and false, with
one literal of level `L` and the others of levels above 0, up to the level to
go back to, which is the one of the second literal. -/
structure Lesson.Valid (F : List Clause) (s : Solver) (L : Nat) (lesson : Lesson) : Prop where
  entailed : Entails F (lesson.first :: lesson.rest)
  nodup : ((lesson.first :: lesson.rest).map Lit.var).Nodup
  isFalse : ∀ l ∈ lesson.first :: lesson.rest, l.neg ∈ s.trail.lits.toList
  level : s.trail.levelOf lesson.first.var = L
  lower : ∀ l ∈ lesson.rest,
    s.trail.levelOf l.var ≠ 0 ∧ s.trail.levelOf l.var ≤ lesson.backjump
  backjump : lesson.backjump < L
  second : ∀ l more, lesson.rest = l :: more → s.trail.levelOf l.var = lesson.backjump
  unit : lesson.rest = [] → lesson.backjump = 0

namespace Solver

variable {F : List Clause} {s s' : Solver} {P : Valuation → Prop}

theorem le_conflictLevel (s : Solver) (c : Conflict) :
    ∀ l ∈ s.conflictLits c, s.trail.levelOf l.var ≤ s.conflictLevel c :=
  fun _ hl => le_foldl_max_of_mem (fun l : Lit => s.trail.levelOf l.var) hl 0

theorem exists_conflictLevel {c : Conflict} (h : s.conflictLevel c ≠ 0) :
    ∃ l ∈ s.conflictLits c, s.trail.levelOf l.var = s.conflictLevel c :=
  (foldl_max_eq_or (fun l : Lit => s.trail.levelOf l.var) (s.conflictLits c) 0).resolve_left h

/-- The marks before anything is added. -/
theorem Tracked.start (s : Solver) (L pos : Nat) :
    Tracked s L pos ⟨Marks.empty.resize s.varCount, 0, #[]⟩ where
  size := VarTable.size_resize _ (Nat.zero_le _)
  current := by
    show max (0 : UInt32) 1 ≠ 0
    decide
  lower := by simp
  nodup := List.nodup_nil
  marked := fun v hv => by
    rw [Marks.isMarked_empty_resize] at hv
    exact absurd hv (by simp)
  pending := by
    symm
    rw [List.countP_eq_zero]
    intro m _
    rw [Marks.isMarked_empty_resize]
    simp

/-- **The lesson of a resolution**: the collected literals without the dropped
ones, one of the highest level first. -/
theorem Resolved.valid {L : Nat} {uip : Lit} {r : Resolution} (hr : Resolved P s L uip r)
    (hs : Sound F s) (hP : ∀ ν, P ν → s.Heeds ν) (hF : ∀ ν, allHold ν F = true → P ν) (hL0 : L ≠ 0)
    {kept : List Lit}
    (hkept : rejectBySwap (s.isRedundant (r.seen.mark uip.var).2) r.lower.toList = kept) :
    Lesson.Valid F s L ⟨uip.neg, (s.highestFirst kept).1, (s.highestFirst kept).2⟩
      ∧ ∀ ν, P ν → Clause.holds ν (uip.neg :: (s.highestFirst kept).1) = true := by
  have hreject := rejectBySwap_perm (s.isRedundant (r.seen.mark uip.var).2) r.lower.toList
  rw [hkept] at hreject
  obtain ⟨hperm, hmax, hlevel⟩ := highestFirst_spec s kept
  have hrest := hperm.trans hreject
  have hlow : ∀ l ∈ (s.highestFirst kept).1, l ∈ r.lower.toList := fun l hl =>
    (List.mem_filter.mp (hrest.mem_iff.mp hl)).1
  have hholds : ∀ ν, P ν → Clause.holds ν (uip.neg :: (s.highestFirst kept).1) = true :=
    fun ν hν => (Clause.holds_perm (hrest.cons _)).trans (hr.minimized hs hP hν)
  refine ⟨{
    entailed := fun ν hν => hholds ν (hF ν hν)
    nodup := by
      refine List.nodup_cons.mpr ⟨fun hm => ?_, ?_⟩
      · obtain ⟨l, hl, hv⟩ := List.mem_map.mp hm
        have hlt := (hr.tracked.lower l (hlow l hl)).2.2.2
        have hlv : l.var = uip.var := hv
        rw [hlv, hr.level] at hlt
        exact absurd hlt (Nat.lt_irrefl _)
      · refine ((hrest.map Lit.var).nodup_iff).mpr ?_
        exact hr.tracked.nodup.sublist (List.filter_sublist.map _)
    isFalse := by
      intro l hl
      rcases List.mem_cons.mp hl with rfl | hl
      · rw [Lit.neg_neg]
        exact hr.mem
      · exact (hr.tracked.lower l (hlow l hl)).1
    level := hr.level
    lower := fun l hl =>
      ⟨(hr.tracked.lower l (hlow l hl)).2.2.1, hmax l (hperm.mem_iff.mp hl)⟩
    backjump := by
      rcases hlevel with hz | ⟨l, hl, he⟩
      · rw [hz]
        exact Nat.pos_of_ne_zero hL0
      · rw [← he]
        exact (hr.tracked.lower l (hlow l (hperm.mem_iff.mpr hl))).2.2.2
    second := fun l more hl => levelOf_head_highestFirst hl
    unit := by
      intro hnil
      rcases hlevel with hz | ⟨l, hl, -⟩
      · exact hz
      · exact absurd (hperm.mem_iff.mpr hl) (List.eq_nil_iff_forall_not_mem.mp hnil l) },
    hholds⟩

/-- At level 0 analysis raises the conflict flag. -/
theorem analyze_root {c : Conflict} (h0 : s.conflictLevel c = 0) (fixed : Option Lit) :
    s.analyze c fixed = .ok (none, s.setConflicted) := by
  unfold analyze
  rw [if_pos h0]
  rfl

/-- **A clause follows from a conflict**: it holds wherever the trail is heeded and
the clause of the conflict holds. -/
def Follows (s : Solver) (c : Conflict) (d : Clause) : Prop :=
  ∀ ν, s.Heeds ν → Clause.holds ν (s.conflictLits c) = true → Clause.holds ν d = true

/-- **Above level 0 analysis gives a valid lesson**, whatever literal is
fixed. -/
theorem exists_lesson {c : Conflict} (hs : Sound F s) (href : Refutes F s c)
    (hL0 : s.conflictLevel c ≠ 0) (fixed : Option Lit) :
    ∃ lesson, s.analyze c fixed = .ok (some lesson, s)
      ∧ lesson.Valid F s (s.conflictLevel c) ∧ s.Follows c (lesson.first :: lesson.rest) := by
  have hwhole : s.trail.lits.toList.take s.trail.size = s.trail.lits.toList :=
    List.take_of_length_le (by simp [Trail.size])
  obtain ⟨htracked, hadded, -, -⟩ := (Tracked.start s (s.conflictLevel c) s.trail.size).addAll
    (s.conflictLits c) hs fun l hl =>
      ⟨by rw [hwhole]; exact href.isFalse l hl, le_conflictLevel s c l hl⟩
  have hpending : ((s.conflictLits c).foldl (Resolution.add s (s.conflictLevel c))
      ⟨Marks.empty.resize s.varCount, 0, #[]⟩).pending ≠ 0 := by
    obtain ⟨l, hl, hL⟩ := exists_conflictLevel hL0
    have hmark := (hadded l hl).resolve_left (hL ▸ hL0)
    exact htracked.pending_ne_zero (m := l.neg) (by rw [hwhole]; exact href.isFalse l hl) hmark hL
  obtain ⟨uip, r, hres, hr⟩ := exists_resolve
    (fixed.filter fun l => s.trail.isTrue l && s.trail.levelOf l.var = s.conflictLevel c)
    (P := fun ν => s.Heeds ν ∧ Clause.holds ν (s.conflictLits c) = true)
    hs (fun _ hν => hν.1) hL0 (Nat.le_refl _) htracked hpending fun ν hν => by
      obtain ⟨l, hl, hlν⟩ := Clause.holds_iff.mp hν.2
      exact htracked.holds hs (href.isFalse l hl) (hadded l hl) hν.1 hlν
  obtain ⟨hvalid, hfollows⟩ := hr.valid hs (fun _ hν => hν.1)
    (fun ν hν => ⟨hs.heeds hν, href.entailed ν hν⟩) hL0 rfl
  refine ⟨_, ?_, hvalid, fun ν hheeds hc => hfollows ν ⟨hheeds, hc⟩⟩
  unfold analyze
  rw [if_neg hL0]
  exact Except.bind_eq_ok.mpr ⟨(uip, r), hres, rfl⟩

/-- **Analysis** refutes the formula at level 0 and gives a valid lesson
above. -/
theorem analyze_spec {c : Conflict} {fixed : Option Lit} {o : Option Lesson} (hs : Sound F s)
    (href : Refutes F s c) (h : s.analyze c fixed = .ok (o, s')) :
    (o = none ∧ s' = s.setConflicted ∧ ¬ Satisfiable F)
      ∨ ∃ lesson, o = some lesson ∧ s' = s ∧ lesson.Valid F s (s.conflictLevel c) := by
  by_cases h0 : s.conflictLevel c = 0
  · rw [analyze_root h0] at h
    obtain ⟨rfl, rfl⟩ := Prod.mk.inj (Except.ok.inj h)
    refine Or.inl ⟨rfl, rfl, ?_⟩
    rintro ⟨ν, hν⟩
    obtain ⟨l, hl, hlν⟩ := Clause.holds_iff.mp (href.entailed ν hν)
    have hzero : s.trail.levelOf l.var = 0 := by
      have := le_conflictLevel s c l hl
      omega
    have hneg := (hs.entails_root (href.isFalse l hl) hzero).lit hν
    rw [Lit.holds_neg, hlν] at hneg
    exact absurd hneg (by simp)
  · obtain ⟨lesson, hok, hv, -⟩ := exists_lesson hs href h0 fixed
    rw [hok] at h
    obtain ⟨rfl, rfl⟩ := Prod.mk.inj (Except.ok.inj h)
    exact Or.inr ⟨lesson, rfl, rfl, hv⟩

/-- **A lesson follows from the conflict** it was derived from. -/
theorem follows_of_analyze {c : Conflict} {fixed : Option Lit} {lesson : Lesson} (hs : Sound F s)
    (href : Refutes F s c) (h : s.analyze c fixed = .ok (some lesson, s')) :
    s.Follows c (lesson.first :: lesson.rest) := by
  by_cases h0 : s.conflictLevel c = 0
  · rw [analyze_root h0] at h
    cases h
  · obtain ⟨lesson', hok, -, hfollows⟩ := exists_lesson hs href h0 fixed
    rw [hok] at h
    obtain ⟨he, -⟩ := Prod.mk.inj (Except.ok.inj h)
    exact Option.some.inj he ▸ hfollows

/-! ## Storing and asserting a lesson -/

/-- **What learning changes**: the clauses, and what the heuristics and the
statistics remember. The new clause is settled where its first literal is not
false. -/
structure Learns (first : Lit) (rest : List Lit) (s s' : Solver) : Prop where
  others : { s with store := s'.store, watches := s'.watches, activity := s'.activity,
                    stats := s'.stats } = s'
  given : s.store.KeepsGiven s'.store
  gains : s.store.Gains (first :: rest) s'.store
  settled : ∀ done known, first.neg ∉ known → Settled done s.store known →
    Settled done s'.store known

/-- A clause that was learnt, with a reason it gives for its first literal
once the others are false. -/
structure Learnt.Valid (F : List Clause) (s : Solver) (learnt : Learnt) : Prop where
  entailed : Entails F learnt.lits
  inRange : ∀ l ∈ learnt.lits, l.var.index < s.varCount
  explains : ∀ first rest, learnt.lits = first :: rest → rest ≠ [] → ∀ t pre,
    (∀ m ∈ rest, m.neg ∈ pre) →
      Explains s.store t pre first learnt.reason ∧ learnt.reason ≠ .decision

/-- A derived clause is stored, at whatever level. -/
theorem storeClause_valid {first : Lit} {rest : List Lit} {stored : Stored} (hs : Sound F s)
    (hent : Entails F (first :: rest)) (hnodup : ((first :: rest).map Lit.var).Nodup)
    (hrange : ∀ l ∈ first :: rest, l.var.index < s.varCount)
    (hstore : s.storeClause first rest true = (stored, s')) :
    Sound F s' ∧ Learns first rest s s' ∧ Learnt.Valid F s' ⟨first :: rest, reasonOfStored stored⟩ := by
  obtain ⟨hs', hstores, hex⟩ := storeClause_learnt hs hent hnodup hrange hstore
  refine ⟨hs', ⟨?_, hstores.given, hstores.gains, hstores.settled⟩, ⟨hent, fun l hl => ?_, ?_⟩⟩
  · rw [← hstores.others]
  · rw [← hstores.others]
    exact hrange l hl
  · intro first rest he hrest t pre hpre
    obtain ⟨rfl, rfl⟩ := List.cons.inj he
    exact hex hrest t pre hpre

/-- Learning keeps the invariant, at whatever level. -/
theorem learn_spec {lesson : Lesson} {learnt : Learnt} (hs : Sound F s)
    (hent : Entails F (lesson.first :: lesson.rest))
    (hnodup : ((lesson.first :: lesson.rest).map Lit.var).Nodup)
    (hrange : ∀ l ∈ lesson.first :: lesson.rest, l.var.index < s.varCount)
    (h : s.learn lesson = .ok (learnt, s')) :
    Sound F s' ∧ Learns lesson.first lesson.rest s s' ∧ learnt.lits = lesson.first :: lesson.rest
      ∧ Learnt.Valid F s' learnt := by
  unfold learn at h
  obtain ⟨raised, -, h⟩ := Except.bind_eq_ok.mp h
  obtain ⟨aged, -, h⟩ := Except.bind_eq_ok.mp h
  obtain ⟨rfl, rfl⟩ := Prod.mk.inj (Except.ok.inj h)
  obtain ⟨hs', hl, hval⟩ := storeClause_valid
    (s := { s with activity := aged
                   stats := { s.stats with search := { s.stats.search with
                     learntClauses := s.stats.search.learntClauses + 1 } } })
    hs hent hnodup hrange rfl
  refine ⟨hs', ⟨?_, hl.given, hl.gains, hl.settled⟩, rfl, hval⟩
  rw [← hl.others]

theorem lits_of_learn {lesson : Lesson} {learnt : Learnt} (h : s.learn lesson = .ok (learnt, s')) :
    learnt.lits = lesson.first :: lesson.rest := by
  obtain ⟨raised, -, h⟩ := Except.bind_eq_ok.mp h
  obtain ⟨aged, -, h⟩ := Except.bind_eq_ok.mp h
  obtain ⟨rfl, -⟩ := Prod.mk.inj (Except.ok.inj h)
  rfl

/-- A valid lesson is learnt. -/
theorem learn_valid {L : Nat} {lesson : Lesson} {learnt : Learnt} (hs : Sound F s)
    (hv : lesson.Valid F s L) (h : s.learn lesson = .ok (learnt, s')) :
    Sound F s' ∧ Learns lesson.first lesson.rest s s' ∧ learnt.lits = lesson.first :: lesson.rest
      ∧ Learnt.Valid F s' learnt :=
  learn_spec hs hv.entailed hv.nodup
    (fun l hl => hs.trail.inRange l.neg (hv.isFalse l hl)) h

/-- **What asserting a literal changes.** -/
structure Asserted (l : Lit) (s s' : Solver) : Prop where
  others : { s with trail := s'.trail, pendingFacts := s'.pendingFacts } = s'
  lits : s'.trail.lits.toList = s.trail.lits.toList ++ [l]
  starts : s'.trail.starts = s.trail.starts
  head : s'.trail.head = s.trail.head
  pending : ∀ m ∈ s'.pendingFacts, m ∈ s.pendingFacts ∨ m = l
  levels : ∀ m ∈ s.trail.lits.toList, s'.trail.levelOf m.var = s.trail.levelOf m.var
  kept : ∀ m ∈ s.pendingFacts, m ∈ s'.pendingFacts
  /-- A root fact that is asserted above level 0 is remembered. -/
  remembered : s'.trail.levelOf l.var = 0 → s.level = 0 ∨ l ∈ s'.pendingFacts

/-- Asserting the first literal of a clause whose others are false. -/
theorem assertLearnt_spec {learnt : Learnt} {first : Lit} {rest : List Lit} (hs : Sound F s)
    (hv : Learnt.Valid F s learnt) (hlits : learnt.lits = first :: rest)
    (hopen : s.trail.isAssigned first.var = false)
    (hfalse : ∀ m ∈ rest, m.neg ∈ s.trail.lits.toList) :
    Sound F (s.assertLearnt learnt) ∧ Asserted first s (s.assertLearnt learnt) := by
  have hrange : first.var.index < s.varCount := hv.inRange first (by simp [hlits])
  have hlevels : ∀ level reason, ∀ m ∈ s.trail.lits.toList,
      (s.trail.push first level reason).levelOf m.var = s.trail.levelOf m.var :=
    fun _ _ m hm => Trail.levelOf_push_ne _ (hs.trail.var_ne_of_open hopen m hm) _ _
  unfold assertLearnt
  rw [hlits]
  cases rest with
  | nil =>
    have hent : Entails F [first] := hlits ▸ hv.entailed
    refine ⟨hs.assignRootFact hrange hopen hent,
      ⟨rfl, by simp [assignRootFact], rfl, rfl, ?_, hlevels _ _, ?_, fun _ => ?_⟩⟩
    · intro m hm
      unfold assignRootFact at hm
      simp only at hm
      split at hm
      · exact Or.inl hm
      · simpa using hm
    · intro m hm
      unfold assignRootFact
      simp only
      split
      · exact hm
      · exact List.mem_append_left _ hm
    · unfold assignRootFact
      simp only
      split
      · rename_i h0
        exact Or.inl h0
      · exact Or.inr (by simp)
  | cons b more =>
    obtain ⟨hex, hreason⟩ := hv.explains first (b :: more) hlits (by simp) s.trail _ hfalse
    refine ⟨hs.imply hrange hopen hreason hex,
      ⟨rfl, ?_, rfl, rfl, fun m hm => Or.inl hm, hlevels _ _, fun _ hm => hm, fun h0 => ?_⟩⟩
    · show (s.trail.push first _ _).lits.toList = _
      rw [Trail.lits_push]
    · have hself : (s.assign first learnt.reason).trail.levelOf first.var = s.level :=
        Trail.levelOf_push_self hs.trail.sizeLevels hrange _ _
      exact Or.inl (hself.symm.trans h0)

/-- **Refuting at the level of a conflict**: the formula at level 0, else by a
clause that is false now. -/
theorem refute_spec {c : Conflict} {learnt : Learnt} (hs : Sound F s) (href : Refutes F s c)
    (h : s.refute c = .ok (learnt, s')) :
    Sound F s' ∧ ((learnt = .empty ∧ s' = s.setConflicted ∧ ¬ Satisfiable F)
      ∨ ∃ lesson : Lesson, lesson.Valid F s (s.conflictLevel c) ∧ Learns lesson.first lesson.rest s s'
          ∧ learnt.lits = lesson.first :: lesson.rest ∧ Learnt.Valid F s' learnt) := by
  unfold refute at h
  obtain ⟨⟨o, s₁⟩, han, hend⟩ := Except.bind_eq_ok.mp h
  rcases analyze_spec hs href han with ⟨rfl, rfl, hunsat⟩ | ⟨lesson, rfl, rfl, hv⟩
  · obtain ⟨rfl, rfl⟩ := Prod.mk.inj (Except.ok.inj hend)
    exact ⟨hs.refute hunsat, Or.inl ⟨rfl, rfl, hunsat⟩⟩
  · obtain ⟨hs', hl, hlits, hval⟩ := learn_valid hs hv hend
    exact ⟨hs', Or.inr ⟨lesson, hv, hl, hlits, hval⟩⟩

/-- What is learnt from a conflict follows from it. -/
theorem follows_of_refute {c : Conflict} {learnt : Learnt} (hs : Sound F s) (href : Refutes F s c)
    (h : s.refute c = .ok (learnt, s')) (hne : learnt.lits ≠ []) : s.Follows c learnt.lits := by
  unfold refute at h
  obtain ⟨⟨o, s₁⟩, han, hend⟩ := Except.bind_eq_ok.mp h
  cases o with
  | none =>
    obtain ⟨rfl, -⟩ := Prod.mk.inj (Except.ok.inj hend)
    exact absurd rfl hne
  | some lesson =>
    rw [lits_of_learn hend]
    exact follows_of_analyze hs href han

end Solver

end Cleave
