import Cleave.Proofs.Inserting

/-!
# Resolving a conflict along the trail

Analysis walks down the trail from a conflict and replaces the latest marked
literal of the conflict's level by the literals that forced it. Throughout,
the clause under way consists of the literals collected from lower levels and
of the opposites of the marked literals of the level itself, which all lie
below the position reached. `Solver.Tracked` says how the marks describe the
clause, `Solver.Resolution.Holds` that it holds.

That the clause holds is a matter of one valuation and of the clauses that were
used: those that forced the literals of the trail, and the root facts
(`Solver.Heeds`). So a clause that is learnt holds wherever these and the clause
of the conflict do, whatever other clauses there are.

A decision has no literals that forced it. It never needs any: a decision is
the first literal of its level, so once it is reached no other literal of the
level is left.
-/

namespace Cleave

/-! ## Counting marks -/

/-- Selecting one more variable selects one more literal. -/
theorem countP_mark {xs : List Lit} (hnodup : (xs.map Lit.var).Nodup) {p q : Lit → Bool} {m : Lit}
    (hm : m ∈ xs) (hp : p m = false) (hq : q m = true)
    (hother : ∀ x ∈ xs, x.var ≠ m.var → q x = p x) : xs.countP q = xs.countP p + 1 := by
  induction xs with
  | nil => exact absurd hm List.not_mem_nil
  | cons x xs ih =>
    obtain ⟨hx, hxs⟩ := List.nodup_cons.mp hnodup
    rcases List.mem_cons.mp hm with rfl | hmem
    · have hsame : xs.countP q = xs.countP p := by
        refine List.countP_congr fun y hy => ?_
        rw [hother y (List.mem_cons_of_mem _ hy) fun he => hx (he ▸ List.mem_map_of_mem hy)]
      simp [hp, hq, hsame]
    · have hne : x.var ≠ m.var := fun he => hx (he ▸ List.mem_map_of_mem hmem)
      have hrec := ih hxs hmem fun y hy => hother y (List.mem_cons_of_mem _ hy)
      have hqx := hother x List.mem_cons_self hne
      rw [List.countP_cons, List.countP_cons, hrec, hqx]
      omega

/-! ## Why a literal is on the trail -/

namespace Trail

/-- Later positions belong to the same or higher levels. -/
theorem depth_mono (t : Trail) {p q : Nat} (h : p ≤ q) : t.depth p ≤ t.depth q := by
  refine List.countP_mono_left fun x _ hx => ?_
  simp only [decide_eq_true_eq] at hx ⊢
  omega

/-- A position where a level starts is deeper than all before it. -/
theorem depth_lt_of_start (t : Trail) {p q : Nat} (hq : q ∈ t.starts.toList) (h : p < q) :
    t.depth p < t.depth q := by
  unfold depth
  generalize t.starts.toList = starts at hq ⊢
  induction starts with
  | nil => exact absurd hq List.not_mem_nil
  | cons x xs ih =>
    rw [List.countP_cons, List.countP_cons]
    have hmono : xs.countP (fun x => decide (x ≤ p)) ≤ xs.countP (fun x => decide (x ≤ q)) :=
      List.countP_mono_left fun y _ hy => by
        simp only [decide_eq_true_eq] at hy ⊢
        omega
    rcases List.mem_cons.mp hq with rfl | hmem
    · simp only [decide_eq_true_eq, Nat.le_refl, if_true]
      rw [if_neg (by omega)]
      omega
    · have hlt := ih hmem
      split
      · rw [if_pos (by simp_all; omega)]
        omega
      · split <;> omega

end Trail

namespace Solver

variable {F : List Clause} {s : Solver}

/-- **A valuation heeds the trail**: the root facts hold, and so does every clause
that forced a literal. -/
structure Heeds (s : Solver) (ν : Valuation) : Prop where
  root : ∀ l ∈ s.trail.lits.toList, s.trail.levelOf l.var = 0 → l.holds ν = true
  forced : ∀ m ∈ s.trail.lits.toList, s.trail.reasonOf m.var ≠ .decision →
    m.holds ν = true ∨ ∃ p ∈ s.antecedents m.var, p.holds ν = true

/-- **The literals that forced a literal** became false before it. -/
theorem Sound.antecedents (hs : Sound F s) {pre post : List Lit} {m : Lit}
    (hsplit : s.trail.lits.toList = pre ++ m :: post)
    (hr : s.trail.reasonOf m.var ≠ .decision) : ∀ p ∈ s.antecedents m.var, p.neg ∈ pre := by
  have hex := (hs.justified pre m post hsplit).explained
  unfold Solver.antecedents
  cases hreason : s.trail.reasonOf m.var with
  | decision => exact absurd hreason hr
  | binary other =>
    rw [hreason] at hex
    intro p hp
    rw [List.mem_singleton.mp hp]
    exact hex.2
  | long id =>
    rw [hreason] at hex
    intro p hp
    obtain ⟨hp, hv⟩ := List.mem_filter.mp hp
    have hv : p.var ≠ m.var := by simpa using hv
    exact hex.2 p hp fun he => hv (he ▸ rfl)

/-- **What forced a literal** says so: the literal holds, or one of those that
forced it, if the clause does. -/
theorem Sound.forced (hs : Sound F s) {ν : Valuation} {m : Lit}
    (hm : m ∈ s.trail.lits.toList) (hr : s.trail.reasonOf m.var ≠ .decision)
    (hbinary : ∀ other ∈ s.store.implied m.neg, other.neg ∈ s.trail.lits.toList →
      m.holds ν = true ∨ other.holds ν = true)
    (hlong : ∀ id, s.store.Watches id m →
      (∀ l ∈ s.store.lits id, l ≠ m → l.neg ∈ s.trail.lits.toList) →
      Clause.holds ν (s.store.lits id) = true) :
    m.holds ν = true ∨ ∃ p ∈ s.antecedents m.var, p.holds ν = true := by
  obtain ⟨pre, post, hsplit, hj⟩ := hs.justified_of_mem hm
  have hpre : ∀ l ∈ pre, l ∈ s.trail.lits.toList := fun l hl => by
    rw [hsplit]
    exact List.mem_append_left _ hl
  have hex := hj.explained
  unfold Solver.antecedents
  cases hreason : s.trail.reasonOf m.var with
  | decision => exact absurd hreason hr
  | binary other =>
    rw [hreason] at hex
    exact (hbinary other hex.1 (hpre _ hex.2)).imp_right fun ho => ⟨other, by simp, ho⟩
  | long id =>
    rw [hreason] at hex
    obtain ⟨hwatch, hrest⟩ := hex
    obtain ⟨l, hl, hlν⟩ := Clause.holds_iff.mp
      (hlong id hwatch fun l hl hlm => hpre _ (hrest l hl hlm))
    by_cases hlm : l = m
    · exact Or.inl (hlm ▸ hlν)
    · -- the variable of the literal itself occurs in no other literal
      refine Or.inr ⟨l, List.mem_filter.mpr ⟨hl, ?_⟩, hlν⟩
      have hneg : l.neg ∈ s.trail.lits.toList := hpre _ (hrest l hl hlm)
      have hne : l.var ≠ m.var := by
        intro hv
        have he : l.neg = m := hs.trail.eq_of_var_eq hneg hm hv
        have hnodup := hs.trail.nodup
        rw [hsplit, List.map_append, List.map_cons] at hnodup
        have hdis := (List.nodup_append.mp hnodup).2.2
        refine hdis m.var ?_ m.var List.mem_cons_self rfl
        exact he ▸ List.mem_map_of_mem (hrest l hl hlm)
      simpa using hne

/-- Every valuation of the clauses heeds the trail. -/
theorem Sound.heeds (hs : Sound F s) {ν : Valuation} (hν : allHold ν F = true) : s.Heeds ν where
  root := fun _ hl h0 => (hs.entails_root hl h0).lit hν
  forced := fun m hm hr => hs.forced hm hr
    (fun other ho _ => by
      have hpair := hs.entailed.binary m.neg other ho
      rw [Lit.neg_neg] at hpair
      exact Clause.holds_pair.mp (hpair ν hν))
    fun _ hid _ => hs.entailed.clause hid.1 ν hν

/-- A literal that stands before another one is of the same or a lower
level. -/
theorem Sound.levelOf_le (hs : Sound F s) {pre post : List Lit} {m l : Lit}
    (hsplit : s.trail.lits.toList = pre ++ m :: post) (hm : s.trail.levelOf m.var ≠ 0)
    (hl : l ∈ pre) : s.trail.levelOf l.var ≤ s.trail.levelOf m.var := by
  obtain ⟨q, r, rfl⟩ := List.append_of_mem hl
  have hl' := (hs.justified q l (r ++ m :: post) (by simp [hsplit])).level
  have hm' := (hs.justified _ m post hsplit).level.resolve_left hm
  rcases hl' with h0 | hd
  · omega
  · rw [hd, hm']
    exact s.trail.depth_mono (by simp)

/-! ## The clause under way -/

/-- **How the marks describe the clause** under way, with everything of the
level `L` below the position `pos`. -/
structure Tracked (s : Solver) (L pos : Nat) (r : Resolution) : Prop where
  size : r.seen.stamps.size = s.varCount
  current : r.seen.current ≠ 0
  lower : ∀ l ∈ r.lower.toList, l.neg ∈ s.trail.lits.toList ∧ r.seen.isMarked l.var = true
    ∧ s.trail.levelOf l.var ≠ 0 ∧ s.trail.levelOf l.var < L
  nodup : (r.lower.toList.map Lit.var).Nodup
  marked : ∀ v, r.seen.isMarked v = true →
    (s.trail.levelOf v = L ∧ ∃ m ∈ s.trail.lits.toList.take pos, m.var = v)
      ∨ ∃ l ∈ r.lower.toList, l.var = v
  pending : r.pending = (s.trail.lits.toList.take pos).countP fun m =>
    r.seen.isMarked m.var && s.trail.levelOf m.var == L

/-- The clause under way holds. -/
def Resolution.Holds (s : Solver) (L pos : Nat) (r : Resolution) (ν : Valuation) : Prop :=
  (∃ l ∈ r.lower.toList, l.holds ν = true)
    ∨ ∃ m ∈ s.trail.lits.toList.take pos,
        r.seen.isMarked m.var = true ∧ s.trail.levelOf m.var = L ∧ m.holds ν = false

section Tracked

variable {L pos : Nat} {r : Resolution}

/-- A false literal that was added is part of the clause, unless it is false
at level 0. -/
theorem Tracked.holds (h : Tracked s L pos r) (hs : Sound F s) {l : Lit}
    (hl : l.neg ∈ s.trail.lits.toList)
    (hadded : s.trail.levelOf l.var = 0 ∨ r.seen.isMarked l.var = true) {ν : Valuation}
    (hν : s.Heeds ν) (hlν : l.holds ν = true) : r.Holds s L pos ν := by
  rcases hadded with h0 | hmark
  · have hneg := hν.root l.neg hl h0
    rw [Lit.not_holds_of_neg hneg] at hlν
    exact absurd hlν (by simp)
  · rcases h.marked _ hmark with ⟨hL, m, hm, hv⟩ | ⟨l', hl', hv⟩
    · have he : m = l.neg := hs.trail.eq_of_var_eq (List.mem_of_mem_take hm) hl hv
      refine Or.inr ⟨m, hm, hv ▸ hmark, hv ▸ hL, ?_⟩
      rw [he, Lit.holds_neg, hlν]
      rfl
    · have he : l'.neg = l.neg := hs.trail.eq_of_var_eq (h.lower l' hl').1 hl hv
      rw [Lit.neg_inj] at he
      exact Or.inl ⟨l', hl', he ▸ hlν⟩

/-- **What adding a literal does**: nothing if it is of level 0 or was seen, and
otherwise it is marked and, by its level, counted or collected. -/
theorem Resolution.add_cases (s : Solver) (L : Nat) (r : Resolution) (l : Lit) :
    (r.add s L l = r ∧ (s.trail.levelOf l.var = 0 ∨ r.seen.isMarked l.var = true))
      ∨ (s.trail.levelOf l.var ≠ 0 ∧ r.seen.isMarked l.var = false
        ∧ ((s.trail.levelOf l.var = L
            ∧ r.add s L l = ⟨(r.seen.mark l.var).2, r.pending + 1, r.lower⟩)
          ∨ (s.trail.levelOf l.var ≠ L
            ∧ r.add s L l = ⟨(r.seen.mark l.var).2, r.pending, r.lower.push l⟩))) := by
  have hfst : (r.seen.mark l.var).1 = !r.seen.isMarked l.var := Marks.mark_fst _ _
  unfold Resolution.add
  simp only
  by_cases h0 : s.trail.levelOf l.var = 0
  · exact Or.inl ⟨if_pos h0, Or.inl h0⟩
  rw [if_neg h0]
  rcases hm : r.seen.mark l.var with ⟨new, seen⟩
  rw [hm] at hfst
  cases hmark : r.seen.isMarked l.var with
  | true =>
    obtain rfl : new = false := hfst.trans (by rw [hmark]; rfl)
    exact Or.inl ⟨rfl, Or.inr rfl⟩
  | false =>
    obtain rfl : new = true := hfst.trans (by rw [hmark]; rfl)
    refine Or.inr ⟨h0, rfl, ?_⟩
    by_cases hL : s.trail.levelOf l.var = L
    · exact Or.inl ⟨hL, if_pos hL⟩
    · exact Or.inr ⟨hL, if_neg hL⟩

/-- Marking the variable of an assigned literal marks no other one. -/
theorem Tracked.isMarked_mark (h : Tracked s L pos r) (hs : Sound F s) {l : Lit}
    (hl : l.neg ∈ s.trail.lits.toList) (w : Var) :
    (r.seen.mark l.var).2.isMarked w = true ↔ r.seen.isMarked w = true ∨ w = l.var := by
  rw [Marks.isMarked_mark (h.size ▸ hs.trail.inRange l.neg hl)]
  simp

/-- A literal of the level is counted. -/
theorem Tracked.count (h : Tracked s L pos r) (hs : Sound F s) {l : Lit}
    (hl : l.neg ∈ s.trail.lits.toList.take pos) (hL : s.trail.levelOf l.var = L)
    (hmark : r.seen.isMarked l.var = false) :
    Tracked s L pos ⟨(r.seen.mark l.var).2, r.pending + 1, r.lower⟩ := by
  have hmarked := h.isMarked_mark hs (List.mem_of_mem_take hl)
  refine ⟨(Marks.size_mark _ _).trans h.size, (Marks.current_mark _ _).trans_ne h.current,
    fun x hx => ?_, h.nodup, fun w hw => ?_, ?_⟩
  · obtain ⟨hfalse, hx, hlevel⟩ := h.lower x hx
    exact ⟨hfalse, (hmarked _).mpr (Or.inl hx), hlevel⟩
  · rcases (hmarked w).mp hw with hw | rfl
    · exact h.marked w hw
    · exact Or.inl ⟨hL, l.neg, hl, rfl⟩
  · have hprefix : ((s.trail.lits.toList.take pos).map Lit.var).Nodup :=
      hs.trail.nodup.sublist ((List.take_sublist pos _).map _)
    show r.pending + 1 = _
    rw [h.pending]
    refine (countP_mark hprefix hl ?_ ?_ fun x _ hx => ?_).symm
    · show (r.seen.isMarked l.var && _) = false
      rw [hmark]
      rfl
    · show ((r.seen.mark l.var).2.isMarked l.var && s.trail.levelOf l.var == L) = true
      rw [(hmarked _).mpr (Or.inr rfl), hL]
      simp
    · show ((r.seen.mark l.var).2.isMarked x.var && _) = (r.seen.isMarked x.var && _)
      rw [Bool.eq_iff_iff.mpr ((hmarked x.var).trans (or_iff_left hx))]

/-- A literal of a lower level is collected. -/
theorem Tracked.collect (h : Tracked s L pos r) (hs : Sound F s) {l : Lit}
    (hl : l.neg ∈ s.trail.lits.toList) (h0 : s.trail.levelOf l.var ≠ 0)
    (hlt : s.trail.levelOf l.var < L) (hmark : r.seen.isMarked l.var = false) :
    Tracked s L pos ⟨(r.seen.mark l.var).2, r.pending, r.lower.push l⟩ := by
  have hmarked := h.isMarked_mark hs hl
  have hmem : ∀ x, x ∈ (r.lower.push l).toList ↔ x ∈ r.lower.toList ∨ x = l := by simp
  refine ⟨(Marks.size_mark _ _).trans h.size, (Marks.current_mark _ _).trans_ne h.current,
    fun x hx => ?_, ?_, fun w hw => ?_, ?_⟩
  · rcases (hmem x).mp hx with hx | rfl
    · obtain ⟨hfalse, hx, hlevel⟩ := h.lower x hx
      exact ⟨hfalse, (hmarked _).mpr (Or.inl hx), hlevel⟩
    · exact ⟨hl, (hmarked _).mpr (Or.inr rfl), h0, hlt⟩
  · show ((r.lower.push l).toList.map Lit.var).Nodup
    rw [Array.toList_push, List.map_append, List.nodup_append]
    refine ⟨h.nodup, List.nodup_singleton _, fun v hv w hw hvw => ?_⟩
    obtain ⟨x, hx, rfl⟩ := List.mem_map.mp hv
    obtain rfl : w = l.var := List.mem_singleton.mp hw
    -- what was collected before is marked
    have hxmark := (h.lower x hx).2.1
    rw [hvw, hmark] at hxmark
    cases hxmark
  · rcases (hmarked w).mp hw with hw | rfl
    · exact (h.marked w hw).imp_right fun ⟨x, hx, hxw⟩ => ⟨x, (hmem x).mpr (Or.inl hx), hxw⟩
    · exact Or.inr ⟨l, (hmem l).mpr (Or.inr rfl), rfl⟩
  · show r.pending = _
    rw [h.pending]
    refine List.countP_congr fun x _ => ?_
    show _ ↔ ((r.seen.mark l.var).2.isMarked x.var && s.trail.levelOf x.var == L) = true
    by_cases hx : x.var = l.var
    · have hne : (s.trail.levelOf x.var == L) = false := by simpa [hx] using Nat.ne_of_lt hlt
      simp [hne]
    · rw [Bool.eq_iff_iff.mpr ((hmarked x.var).trans (or_iff_left hx))]

/-- **Adding a false literal** below the position reached. -/
theorem Tracked.add (h : Tracked s L pos r) (hs : Sound F s) {l : Lit}
    (hl : l.neg ∈ s.trail.lits.toList.take pos) (hle : s.trail.levelOf l.var ≤ L) :
    Tracked s L pos (r.add s L l)
      ∧ (s.trail.levelOf l.var = 0 ∨ (r.add s L l).seen.isMarked l.var = true)
      ∧ ∀ v, r.seen.isMarked v = true → (r.add s L l).seen.isMarked v = true := by
  have hmem := List.mem_of_mem_take hl
  have hmarked := h.isMarked_mark hs hmem
  have hself := (hmarked l.var).mpr (Or.inr rfl)
  have hkeep := fun v hv => (hmarked v).mpr (Or.inl hv)
  rcases r.add_cases s L l with ⟨heq, hknown⟩ | ⟨h0, hnew, ⟨hL, heq⟩ | ⟨hL, heq⟩⟩
  · rw [heq]
    exact ⟨h, hknown, fun _ hv => hv⟩
  · rw [heq]
    exact ⟨h.count hs hl hL hnew, Or.inr hself, hkeep⟩
  · rw [heq]
    exact ⟨h.collect hs hmem h0 (Nat.lt_of_le_of_ne hle hL) hnew, Or.inr hself, hkeep⟩

theorem mem_lower_add (s : Solver) (L : Nat) (r : Resolution) (l : Lit) {x : Lit}
    (hx : x ∈ r.lower.toList) : x ∈ (r.add s L l).lower.toList := by
  rcases r.add_cases s L l with ⟨heq, -⟩ | ⟨-, -, ⟨-, heq⟩ | ⟨-, heq⟩⟩
  · rwa [heq]
  · rwa [heq]
  · rw [heq]
    simp [hx]

/-- Adding several false literals. -/
theorem Tracked.addAll (ls : List Lit) (h : Tracked s L pos r) (hs : Sound F s)
    (hls : ∀ l ∈ ls, l.neg ∈ s.trail.lits.toList.take pos ∧ s.trail.levelOf l.var ≤ L) :
    Tracked s L pos (ls.foldl (Resolution.add s L) r)
      ∧ (∀ l ∈ ls, s.trail.levelOf l.var = 0
          ∨ (ls.foldl (Resolution.add s L) r).seen.isMarked l.var = true)
      ∧ (∀ v, r.seen.isMarked v = true →
          (ls.foldl (Resolution.add s L) r).seen.isMarked v = true)
      ∧ ∀ x ∈ r.lower.toList, x ∈ (ls.foldl (Resolution.add s L) r).lower.toList := by
  induction ls generalizing r with
  | nil => exact ⟨h, by simp, fun _ hv => hv, fun _ hx => hx⟩
  | cons l rest ih =>
    obtain ⟨hl, hle⟩ := hls l List.mem_cons_self
    obtain ⟨h₁, hadded, hkeep₁⟩ := h.add hs hl hle
    obtain ⟨h₂, hrest, hkeep₂, hlower₂⟩ := ih h₁ fun m hm => hls m (List.mem_cons_of_mem _ hm)
    refine ⟨h₂, fun m hm => ?_, fun v hv => hkeep₂ v (hkeep₁ v hv),
      fun x hx => hlower₂ x (mem_lower_add s L r l hx)⟩
    rcases List.mem_cons.mp hm with rfl | hm
    · exact hadded.imp_right fun hmark => hkeep₂ _ hmark
    · exact hrest m hm

/-- More marks and literals keep a clause that holds. -/
theorem Resolution.Holds.mono {r' : Resolution} {ν : Valuation} (h : r.Holds s L pos ν)
    (hmarks : ∀ v, r.seen.isMarked v = true → r'.seen.isMarked v = true)
    (hlower : ∀ x ∈ r.lower.toList, x ∈ r'.lower.toList) : r'.Holds s L pos ν := by
  rcases h with ⟨l, hl, hν⟩ | ⟨m, hm, hmark, hL, hν⟩
  · exact Or.inl ⟨l, hlower l hl, hν⟩
  · exact Or.inr ⟨m, hm, hmarks _ hmark, hL, hν⟩

/-! ## One position -/

theorem take_succ_litAt {t : Trail} (hpos : pos < t.lits.size) :
    t.lits.toList.take (pos + 1) = t.lits.toList.take pos ++ [t.litAt pos] := by
  have hlt : pos < t.lits.toList.length := by simpa using hpos
  rw [List.take_succ_eq_append_getElem hlt]
  simp [Trail.litAt, hpos]

/-- A position whose literal is not part of the clause is passed. -/
theorem Tracked.skip (h : Tracked s L (pos + 1) r) (hpos : pos < s.trail.lits.size)
    (hno : ¬ (r.seen.isMarked (s.trail.litAt pos).var = true
      ∧ s.trail.levelOf (s.trail.litAt pos).var = L)) :
    Tracked s L pos r ∧ ∀ ν, r.Holds s L (pos + 1) ν → r.Holds s L pos ν := by
  have hback : ∀ m ∈ s.trail.lits.toList.take (pos + 1), r.seen.isMarked m.var = true →
      s.trail.levelOf m.var = L → m ∈ s.trail.lits.toList.take pos := by
    intro m hm hmark hL
    rw [take_succ_litAt hpos] at hm
    rcases List.mem_append.mp hm with hm | hm
    · exact hm
    · rw [List.mem_singleton.mp hm] at hmark hL
      exact absurd ⟨hmark, hL⟩ hno
  refine ⟨{ h with marked := fun v hv => ?_, pending := ?_ }, fun ν hν => ?_⟩
  · refine (h.marked v hv).imp_left ?_
    rintro ⟨hL, m, hm, rfl⟩
    exact ⟨hL, m, hback m hm hv hL, rfl⟩
  · rw [h.pending, take_succ_litAt hpos, List.countP_append]
    have hzero : [s.trail.litAt pos].countP
        (fun m => r.seen.isMarked m.var && s.trail.levelOf m.var == L) = 0 := by
      simpa using hno
    rw [hzero, Nat.add_zero]
  · refine hν.imp_right ?_
    rintro ⟨m, hm, hmark, hL, hmν⟩
    exact ⟨m, hback m hm hmark hL, hmark, hL, hmν⟩

/-- The resolution without the literal at a position. -/
def Resolution.without (r : Resolution) (v : Var) : Resolution :=
  { r with seen := r.seen.unmark v, pending := r.pending - 1 }

/-- What stands before a position is over other variables than the literal there. -/
theorem Sound.var_ne_litAt (hs : Sound F s) (hpos : pos < s.trail.lits.size) {m : Lit}
    (hm : m ∈ s.trail.lits.toList.take pos) : m.var ≠ (s.trail.litAt pos).var := by
  have hnodup : ((s.trail.lits.toList.take (pos + 1)).map Lit.var).Nodup :=
    hs.trail.nodup.sublist ((List.take_sublist _ _).map _)
  rw [take_succ_litAt hpos, List.map_append, List.nodup_append] at hnodup
  exact hnodup.2.2 m.var (List.mem_map_of_mem hm) (s.trail.litAt pos).var (by simp)

/-- A literal of the clause is taken out, to be replaced. -/
theorem Tracked.remove (h : Tracked s L (pos + 1) r) (hs : Sound F s)
    (hpos : pos < s.trail.lits.size)
    (hmark : r.seen.isMarked (s.trail.litAt pos).var = true)
    (hL : s.trail.levelOf (s.trail.litAt pos).var = L) :
    Tracked s L pos (r.without (s.trail.litAt pos).var)
      ∧ ∀ ν, r.Holds s L (pos + 1) ν → (s.trail.litAt pos).holds ν = false
          ∨ (r.without (s.trail.litAt pos).var).Holds s L pos ν := by
  have htake := take_succ_litAt hpos
  have hother := fun m => hs.var_ne_litAt hpos (m := m)
  generalize s.trail.litAt pos = pivot at *
  have hmem : ∀ m, m ∈ s.trail.lits.toList.take (pos + 1)
      ↔ m ∈ s.trail.lits.toList.take pos ∨ m = pivot := by
    simp [htake]
  have hin : pivot ∈ s.trail.lits.toList := List.mem_of_mem_take ((hmem _).mpr (Or.inr rfl))
  have hunmark : ∀ w, (r.seen.unmark pivot.var).isMarked w = true
      ↔ r.seen.isMarked w = true ∧ w ≠ pivot.var := by
    intro w
    rw [Marks.isMarked_unmark (h.size ▸ hs.trail.inRange pivot hin) h.current]
    simp
  have hback : ∀ m ∈ s.trail.lits.toList.take (pos + 1), m.var ≠ pivot.var →
      m ∈ s.trail.lits.toList.take pos := fun m hm hmv =>
    ((hmem m).mp hm).resolve_right fun he => hmv (congrArg Lit.var he)
  refine ⟨⟨?_, h.current, fun l hl => ?_, h.nodup, fun v hv => ?_, ?_⟩, ?_⟩
  · simpa [Resolution.without] using h.size
  · obtain ⟨hfalse, hlmark, hpos, hlt⟩ := h.lower l hl
    refine ⟨hfalse, (hunmark _).mpr ⟨hlmark, fun he => ?_⟩, hpos, hlt⟩
    rw [he, hL] at hlt
    exact absurd hlt (Nat.lt_irrefl _)
  · obtain ⟨hv, hvp⟩ := (hunmark v).mp hv
    refine (h.marked v hv).imp_left ?_
    rintro ⟨hvL, m, hm, rfl⟩
    exact ⟨hvL, m, hback m hm hvp, rfl⟩
  · show r.pending - 1 = _
    rw [h.pending, htake, List.countP_append]
    have hone : [pivot].countP (fun m => r.seen.isMarked m.var && s.trail.levelOf m.var == L)
        = 1 := by
      simp [hmark, hL]
    rw [hone, Nat.add_sub_cancel]
    refine List.countP_congr fun m hm => ?_
    show _ ↔ ((r.seen.unmark pivot.var).isMarked m.var && _) = true
    rw [Bool.eq_iff_iff.mpr ((hunmark m.var).trans (and_iff_left (hother m hm)))]
  · rintro ν (⟨l, hl, hlν⟩ | ⟨m, hm, hmm, hmL, hmν⟩)
    · exact Or.inr (Or.inl ⟨l, hl, hlν⟩)
    · by_cases hmv : m.var = pivot.var
      · have he : m = pivot := hs.trail.eq_of_var_eq (List.mem_of_mem_take hm) hin hmv
        exact Or.inl (he ▸ hmν)
      · exact Or.inr (Or.inr ⟨m, hback m hm hmv, (hunmark _).mpr ⟨hmm, hmv⟩, hmL, hmν⟩)

theorem split_litAt {t : Trail} (hpos : pos < t.lits.size) :
    t.lits.toList = t.lits.toList.take pos ++ t.litAt pos :: t.lits.toList.drop (pos + 1) := by
  conv_lhs => rw [← List.take_append_drop (pos + 1) t.lits.toList, take_succ_litAt hpos]
  simp

/-- **A decision is the first of its level**, so no other literal of the level
is left when it is reached. -/
theorem Tracked.pending_decision (h : Tracked s L pos r) (hs : Sound F s) (hL0 : L ≠ 0)
    (hpos : pos < s.trail.lits.size) (hL : s.trail.levelOf (s.trail.litAt pos).var = L)
    (hr : s.trail.reasonOf (s.trail.litAt pos).var = .decision) : r.pending = 0 := by
  have hsplit := split_litAt hpos
  have hj := hs.justified _ _ _ hsplit
  have hlen : (s.trail.lits.toList.take pos).length = pos := by
    rw [List.length_take, Array.length_toList]
    omega
  have hstart : pos ∈ s.trail.starts.toList := by
    have hex := hj.explained
    rw [hr] at hex
    rw [← hlen]
    exact hex.resolve_left (by rw [hL]; exact hL0)
  have hdepth : s.trail.depth pos = L := by
    have hlevel := hj.level.resolve_left (by rw [hL]; exact hL0)
    rw [hlen, hL] at hlevel
    exact hlevel.symm
  rw [h.pending, List.countP_eq_zero]
  intro m hm
  obtain ⟨q, rest, hq⟩ := List.append_of_mem hm
  rw [hq, List.append_assoc, List.cons_append] at hsplit
  have hm' := (hs.justified q m _ hsplit).level
  have hlt : q.length < pos := by
    rw [← hlen, hq]
    simp
  have hlow := s.trail.depth_lt_of_start hstart hlt
  have hne : s.trail.levelOf m.var ≠ L := by
    rcases hm' with h0 | hd
    · rw [h0]
      exact Ne.symm hL0
    · omega
  simp [hne]

/-- **The clause that resolution ends with**: the opposite of one literal of
the level, and the literals collected from lower ones. It holds wherever `P`
does. -/
structure Resolved (P : Valuation → Prop) (s : Solver) (L : Nat) (uip : Lit) (r : Resolution) :
    Prop where
  tracked : Tracked s L 0 r
  mem : uip ∈ s.trail.lits.toList
  level : s.trail.levelOf uip.var = L
  holds : ∀ ν, P ν → Clause.holds ν (uip.neg :: r.lower.toList) = true

/-- Nothing of the level is left. -/
theorem Tracked.finish (h : Tracked s L pos r) (hpending : r.pending = 0) : Tracked s L 0 r := by
  have hnone : ∀ m ∈ s.trail.lits.toList.take pos, r.seen.isMarked m.var = true →
      s.trail.levelOf m.var ≠ L := by
    intro m hm hmark hL
    have hz := h.pending
    rw [hpending] at hz
    have := List.countP_eq_zero.mp hz.symm m hm
    simp [hmark, hL] at this
  refine { h with marked := fun v hv => ?_, pending := by simpa using hpending }
  rcases h.marked v hv with ⟨hL, m, hm, rfl⟩ | hlow
  · exact absurd hL (hnone m hm hv)
  · exact Or.inr hlow

/-- A marked literal of the level is pending. -/
theorem Tracked.pending_ne_zero (h : Tracked s L pos r) {m : Lit}
    (hm : m ∈ s.trail.lits.toList.take pos) (hmark : r.seen.isMarked m.var = true)
    (hL : s.trail.levelOf m.var = L) : r.pending ≠ 0 := by
  rw [h.pending]
  exact Nat.ne_of_gt (List.countP_pos_iff.mpr ⟨m, hm, by simp [hmark, hL]⟩)

theorem Tracked.exists_pending (h : Tracked s L pos r) (hpending : r.pending ≠ 0) :
    ∃ m ∈ s.trail.lits.toList.take pos,
      r.seen.isMarked m.var = true ∧ s.trail.levelOf m.var = L := by
  rw [h.pending] at hpending
  simpa using List.countP_pos_iff.mp (Nat.pos_of_ne_zero hpending)

/-- Something is pending after false literals were added, if it was before or one
of them is of the level. -/
theorem Tracked.still_pending {r' : Resolution} {ps : List Lit} (h : Tracked s L pos r)
    (h' : Tracked s L pos r') (hL0 : L ≠ 0)
    (hps : ∀ p ∈ ps, p.neg ∈ s.trail.lits.toList.take pos)
    (hadded : ∀ p ∈ ps, s.trail.levelOf p.var = 0 ∨ r'.seen.isMarked p.var = true)
    (hmarks : ∀ v, r.seen.isMarked v = true → r'.seen.isMarked v = true)
    (hsome : r.pending ≠ 0 ∨ ∃ p ∈ ps, s.trail.levelOf p.var = L) : r'.pending ≠ 0 := by
  rcases hsome with hpending | ⟨p, hp, hL⟩
  · obtain ⟨m, hm, hmark, hmL⟩ := h.exists_pending hpending
    exact h'.pending_ne_zero hm (hmarks _ hmark) hmL
  · exact h'.pending_ne_zero (hps p hp) ((hadded p hp).resolve_left (hL ▸ hL0)) hL

variable {P : Valuation → Prop}

/-- **Where the walk stops**: the literal taken out last was the only one of the
level that was left. -/
theorem Tracked.resolved (h : Tracked s L pos (r.without (s.trail.litAt pos).var))
    (hpos : pos < s.trail.lits.size) (hL : s.trail.levelOf (s.trail.litAt pos).var = L)
    (hunique : (r.without (s.trail.litAt pos).var).pending = 0)
    (hcov : ∀ ν, P ν → (s.trail.litAt pos).holds ν = false
      ∨ (r.without (s.trail.litAt pos).var).Holds s L pos ν) :
    Resolved P s L (s.trail.litAt pos) (r.without (s.trail.litAt pos).var) where
  tracked := h.finish hunique
  mem := by
    rw [split_litAt hpos]
    exact List.mem_append_right _ List.mem_cons_self
  level := hL
  holds := fun ν hν => by
    rcases hcov ν hν with hfalse | ⟨l, hl, hlν⟩ | ⟨m, hm, hmark, hmL, -⟩
    · exact Clause.holds_iff.mpr ⟨_, List.mem_cons_self, Lit.neg_holds_of_not hfalse⟩
    · exact Clause.holds_iff.mpr ⟨l, List.mem_cons_of_mem _ hl, hlν⟩
    · exact absurd hunique (h.pending_ne_zero hm hmark hmL)

/-- **Where the walk goes on**: the literal taken out is replaced by those that
forced it, which are false below it. -/
theorem Tracked.replaced (h : Tracked s L pos (r.without (s.trail.litAt pos).var))
    (hs : Sound F s) (hP : ∀ ν, P ν → s.Heeds ν) (hL0 : L ≠ 0) (hpos : pos < s.trail.lits.size)
    (hL : s.trail.levelOf (s.trail.litAt pos).var = L)
    (hreason : s.trail.reasonOf (s.trail.litAt pos).var ≠ .decision)
    (hsome : (r.without (s.trail.litAt pos).var).pending ≠ 0
      ∨ ∃ p ∈ s.antecedents (s.trail.litAt pos).var, s.trail.levelOf p.var = L)
    (hcov : ∀ ν, P ν → (s.trail.litAt pos).holds ν = false
      ∨ (r.without (s.trail.litAt pos).var).Holds s L pos ν) :
    let r' := (s.antecedents (s.trail.litAt pos).var).foldl (Resolution.add s L)
      (r.without (s.trail.litAt pos).var)
    Tracked s L pos r' ∧ r'.pending ≠ 0 ∧ ∀ ν, P ν → r'.Holds s L pos ν := by
  have hsplit := split_litAt hpos
  have hfalse := hs.antecedents hsplit hreason
  have hmem : s.trail.litAt pos ∈ s.trail.lits.toList := by
    rw [hsplit]
    simp
  have hle : ∀ p ∈ s.antecedents (s.trail.litAt pos).var, s.trail.levelOf p.var ≤ L :=
    fun p hp => (hs.levelOf_le hsplit (by rwa [hL]) (hfalse p hp)).trans_eq hL
  obtain ⟨h', hadded, hmarks, hlower⟩ := h.addAll (s.antecedents (s.trail.litAt pos).var) hs
    fun p hp => ⟨hfalse p hp, hle p hp⟩
  refine ⟨h', h.still_pending h' hL0 hfalse hadded hmarks hsome, fun ν hν => ?_⟩
  rcases hcov ν hν with hpf | hclause
  · obtain ⟨p, hp, hpν⟩ := ((hP ν hν).forced _ hmem hreason).resolve_left (by simp [hpf])
    exact h'.holds hs (List.mem_of_mem_take (hfalse p hp)) (hadded p hp) (hP ν hν) hpν
  · exact hclause.mono hmarks hlower

/-- **Resolution**, by induction on the position: each step keeps a clause that
holds wherever `P` does, and leaves a literal of the level below the position, so the scan
ends before the start of the trail. -/
theorem exists_resolve (fixed : Option Lit) (hs : Sound F s) (hP : ∀ ν, P ν → s.Heeds ν)
    (hL0 : L ≠ 0)
    (hpos : pos ≤ s.trail.lits.size) (h : Tracked s L pos r) (hpending : r.pending ≠ 0)
    (hcov : ∀ ν, P ν → r.Holds s L pos ν) :
    ∃ uip r', s.resolve L fixed pos r = .ok (uip, r') ∧ Resolved P s L uip r' := by
  induction pos generalizing r with
  | zero => exact absurd (by simpa using h.pending) hpending
  | succ pos ih =>
    have hlt : pos < s.trail.lits.size := hpos
    unfold resolve
    simp only
    split
    · rename_i hpivot
      obtain ⟨hmark, hL⟩ := (Bool.and_eq_true _ _).mp hpivot
      have hL : s.trail.levelOf (s.trail.litAt pos).var = L := of_decide_eq_true hL
      obtain ⟨hrest, hremoved⟩ := h.remove hs hlt hmark hL
      have hcov' := fun ν hν => hremoved ν (hcov ν hν)
      split
      · rename_i hstop
        have hunique : (r.without (s.trail.litAt pos).var).pending = 0 :=
          of_decide_eq_true ((Bool.and_eq_true _ _).mp hstop).1
        exact ⟨_, _, rfl, hrest.resolved hlt hL hunique hcov'⟩
      · rename_i hgo
        have hreason : s.trail.reasonOf (s.trail.litAt pos).var ≠ .decision := by
          intro hdec
          have hunique : r.pending - 1 = 0 := hrest.pending_decision hs hL0 hlt hL hdec
          exact hgo (by simp [hunique, hdec])
        have hsome : (r.without (s.trail.litAt pos).var).pending ≠ 0
            ∨ ∃ p ∈ s.antecedents (s.trail.litAt pos).var, s.trail.levelOf p.var = L := by
          by_contra hno
          obtain ⟨hunique, hleaves⟩ := not_or.mp hno
          have hunique : r.pending - 1 = 0 := not_not.mp hunique
          exact hgo (by simpa [hunique] using Or.inr fun p hp hL => hleaves ⟨p, hp, hL⟩)
        obtain ⟨h', hpending', hholds⟩ := hrest.replaced hs hP hL0 hlt hL hreason hsome hcov'
        exact ih (Nat.le_of_lt hlt) h' hpending' hholds
    · rename_i hpivot
      have hno : ¬ (r.seen.isMarked (s.trail.litAt pos).var = true
          ∧ s.trail.levelOf (s.trail.litAt pos).var = L) := by
        simpa using hpivot
      obtain ⟨hskipped, hholds⟩ := h.skip hlt hno
      exact ih (Nat.le_of_lt hlt) hskipped hpending fun ν hν => hholds ν (hcov ν hν)

end Tracked

end Solver

end Cleave
