import Cleave.Proofs.Propagation

/-!
# Taking decisions back

Backtracking cuts the trail at a level and asserts the pending root facts
again, as far as the cut took them back. Each of them was on the trail
together with all others, so no two can be opposite and none of them raises
the conflict flag. `Solver.Cut` says what is left of the state.
-/

namespace Cleave

namespace Trail

/-- The levels that start before the cut are those that are kept. -/
theorem Wf.mem_starts_backtrackTo {t : Trail} {count k : Nat} (h : t.Wf count) (hk : k < t.level)
    {p : Nat} (hlt : p < t.levelStart (k + 1)) :
    p ∈ t.starts.toList ↔ p ∈ (t.backtrackTo k).starts.toList := by
  rw [starts_backtrackTo hk]
  refine ⟨fun hp => ?_, List.mem_of_mem_take⟩
  have hlen : t.starts.toList.length = t.level := Array.length_toList
  obtain ⟨i, hi, rfl⟩ := List.mem_iff_getElem.mp hp
  rw [levelStart_eq_getElem (by omega)] at hlt
  have hik : i < k := by
    by_contra hge
    rcases Nat.lt_or_eq_of_le (Nat.le_of_not_lt hge) with hlt' | rfl
    · have := List.pairwise_iff_getElem.mp h.startsSorted k i (by omega) hi hlt'
      omega
    · exact absurd hlt (Nat.lt_irrefl _)
  rw [List.mem_take_iff_getElem]
  exact ⟨i, by omega, rfl⟩

end Trail

namespace Consistent

variable {F : List Clause} {count : Nat} {store : ClauseStore} {membership : Membership}
  {watches : LitTable (Array ClauseId)} {t : Trail} {pending : List Lit} {conflicted : Bool}

/-- The part of the trail that is kept stays justified. -/
theorem cut (h : Consistent F count store membership watches t pending conflicted) {k : Nat}
    (hk : k < t.level) :
    Consistent F count store membership watches (t.backtrackTo k) [] conflicted where
  trail := h.trail.backtrackTo k
  store := h.store
  watches := h.watches
  listed := h.listed
  entailed := h.entailed
  justified := by
    intro pre l post hsplit
    rw [Trail.lits_backtrackTo hk] at hsplit
    have hlt : pre.length < t.levelStart (k + 1) := by
      have hlen := congrArg List.length hsplit
      simp only [List.length_take, List.length_append, List.length_cons] at hlen
      omega
    have hwhole : t.lits.toList
        = pre ++ l :: (post ++ t.lits.toList.drop (t.levelStart (k + 1))) := by
      conv_lhs => rw [← List.take_append_drop (t.levelStart (k + 1)) t.lits.toList, hsplit]
      simp
    have hl : l ∈ t.lits.toList.take (t.levelStart (k + 1)) := by
      rw [hsplit]
      simp
    exact (h.justified pre l _ hwhole).of_eq (Trail.levelOf_backtrackTo k _)
      (h.trail.reasonOf_backtrackTo hk hl) (h.trail.depth_backtrackTo hk hlt)
      (h.trail.mem_starts_backtrackTo hk hlt)
  pending := by simp
  refuted := h.refuted

end Consistent

namespace Solver

variable {F : List Clause} {s s' : Solver} {k : Nat}

/-- Asserting a root fact that is open. -/
theorem Sound.assignRootFact {l : Lit} (hs : Sound F s) (hl : l.var.index < s.varCount)
    (hopen : s.trail.isAssigned l.var = false) (hent : Entails F [l]) :
    Sound F (s.assignRootFact l) := by
  have hpush : Sound F { s with trail := s.trail.push l 0 .decision } :=
    hs.push hl hopen (Or.inl rfl) (fun _ => hent)
      (Or.inl (Trail.levelOf_push_self hs.trail.sizeLevels hl _ _))
  refine { hpush with pending := ?_ }
  intro m hm
  have hm : m ∈ s.pendingFacts ∨ m = l := by
    unfold Solver.assignRootFact at hm
    simp only at hm
    split at hm
    · exact Or.inl hm
    · simpa using hm
  rcases hm with hm | rfl
  · exact hpush.pending m hm
  · exact ⟨by simp [Solver.assignRootFact], Trail.levelOf_push_self hs.trail.sizeLevels hl _ _⟩

/-- **Restored facts**: the state with some literals behind its trail, and
with the pending facts that are kept for later. -/
structure Restored (facts : List Lit) (s s' : Solver) : Prop where
  others : { s with trail := s'.trail, pendingFacts := s'.pendingFacts } = s'
  starts : s'.trail.starts = s.trail.starts
  head : s'.trail.head = s.trail.head
  lits : ∃ more, s'.trail.lits.toList = s.trail.lits.toList ++ more
    ∧ ∀ l ∈ more, l ∈ facts ∧ l ∉ s.trail.lits.toList
  restored : ∀ l ∈ facts, l ∈ s'.trail.lits.toList
  pending : s'.pendingFacts = s.pendingFacts ++ if s.level = 0 then [] else facts
  levels : ∀ v, s'.trail.levelOf v = s.trail.levelOf v

/-- One fact, by its value after the cut. -/
theorem restoreFact_spec {l : Lit} (hs : Sound F s) (hl : l.var.index < s.varCount)
    (hent : Entails F [l]) (hlevel : s.trail.levelOf l.var = 0)
    (hno : l.neg ∉ s.trail.lits.toList) :
    Sound F (s.restoreFact l) ∧ Restored [l] s (s.restoreFact l) := by
  unfold restoreFact
  split
  · rename_i htrue
    have hmem := hs.trail.value_true.mp htrue
    split
    · rename_i h0
      refine ⟨hs, ⟨rfl, rfl, rfl, ⟨[], by simp, by simp⟩, by simpa using hmem, ?_, fun _ => rfl⟩⟩
      have h0' : s.level = 0 := h0
      simp [h0']
    · rename_i h0
      refine ⟨{ hs with pending := ?_ },
        ⟨rfl, rfl, rfl, ⟨[], by simp, by simp⟩, by simpa using hmem, ?_, fun _ => rfl⟩⟩
      · intro m hm
        rcases List.mem_append.mp hm with hm | hm
        · exact hs.pending m hm
        · rw [List.mem_singleton.mp hm]
          exact ⟨hmem, hlevel⟩
      · have h0' : s.level ≠ 0 := h0
        simp [h0']
  · rename_i hfalse
    exact absurd (hs.trail.value_false.mp hfalse) hno
  · rename_i hvalue
    have hopen := Trail.isAssigned_of_value_none hvalue
    refine ⟨hs.assignRootFact hl hopen hent,
      ⟨rfl, rfl, rfl, ⟨[l], ?_, ?_⟩, ?_, ?_, fun v => ?_⟩⟩
    · simp [assignRootFact]
    · intro m hm
      rw [List.mem_singleton.mp hm]
      exact ⟨List.mem_cons_self, hs.trail.not_mem_of_not_assigned hopen⟩
    · intro m hm
      rw [List.mem_singleton.mp hm]
      simp [assignRootFact]
    · unfold assignRootFact
      simp only
      by_cases h0 : s.trail.level = 0
      · have h0' : s.level = 0 := h0
        rw [if_pos h0, if_pos h0', List.append_nil]
      · have h0' : ¬ s.level = 0 := h0
        rw [if_neg h0, if_neg h0']
    · -- the fact had level 0 before
      show (s.trail.push l 0 .decision).levelOf v = _
      by_cases hlv : l.var = v
      · rw [← hlv, hlevel]
        exact Trail.levelOf_push_self hs.trail.sizeLevels hl _ _
      · exact Trail.levelOf_push_ne _ hlv _ _

/-- **All facts**, by induction: whatever is on the trail so far was on the
trail `old` together with the facts, so none of them is false. -/
theorem restoreFacts_spec {old : Trail} {count : Nat} (hold : old.Wf count) (facts : List Lit)
    (hs : Sound F s) (hsub : ∀ l ∈ s.trail.lits.toList, l ∈ old.lits.toList)
    (hfacts : ∀ l ∈ facts, l ∈ old.lits.toList ∧ l.var.index < s.varCount ∧ Entails F [l]
      ∧ s.trail.levelOf l.var = 0) :
    Sound F (facts.foldl restoreFact s) ∧ Restored facts s (facts.foldl restoreFact s) := by
  induction facts generalizing s with
  | nil => exact ⟨hs, ⟨rfl, rfl, rfl, ⟨[], by simp, by simp⟩, by simp, by simp, fun _ => rfl⟩⟩
  | cons l rest ih =>
    obtain ⟨hmem, hl, hent, hlevel⟩ := hfacts l List.mem_cons_self
    have hno : l.neg ∉ s.trail.lits.toList := fun hm => hold.not_mem_neg hmem (hsub _ hm)
    obtain ⟨hs₁, hr₁⟩ := restoreFact_spec hs hl hent hlevel hno
    obtain ⟨more₁, hlits₁, hmore₁⟩ := hr₁.lits
    have hcount : (s.restoreFact l).varCount = s.varCount :=
      (congrArg Solver.varCount hr₁.others).symm
    have hlevel₁ : (s.restoreFact l).level = s.level := congrArg Array.size hr₁.starts
    have hsub₁ : ∀ m ∈ (s.restoreFact l).trail.lits.toList, m ∈ old.lits.toList := by
      intro m hm
      rw [hlits₁] at hm
      rcases List.mem_append.mp hm with hm | hm
      · exact hsub m hm
      · rw [List.mem_singleton.mp (hmore₁ m hm).1]
        exact hmem
    obtain ⟨hs₂, hr₂⟩ := ih hs₁ hsub₁ fun m hm => by
      obtain ⟨hm1, hm2, hm3, hm4⟩ := hfacts m (List.mem_cons_of_mem _ hm)
      exact ⟨hm1, hcount ▸ hm2, hm3, (hr₁.levels _).trans hm4⟩
    obtain ⟨more₂, hlits₂, hmore₂⟩ := hr₂.lits
    refine ⟨hs₂, ⟨?_, hr₂.starts.trans hr₁.starts, hr₂.head.trans hr₁.head,
      ⟨more₁ ++ more₂, ?_, ?_⟩, ?_, ?_, fun v => (hr₂.levels v).trans (hr₁.levels v)⟩⟩
    · rw [List.foldl_cons, ← hr₂.others, ← hr₁.others]
    · rw [List.foldl_cons, hlits₂, hlits₁, List.append_assoc]
    · intro m hm
      rcases List.mem_append.mp hm with hm | hm
      · rw [List.mem_singleton.mp (hmore₁ m hm).1]
        exact ⟨List.mem_cons_self, List.mem_singleton.mp (hmore₁ m hm).1 ▸ (hmore₁ m hm).2⟩
      · refine ⟨List.mem_cons_of_mem _ (hmore₂ m hm).1, fun hold' => (hmore₂ m hm).2 ?_⟩
        rw [hlits₁]
        exact List.mem_append_left _ hold'
    · intro m hm
      rcases List.mem_cons.mp hm with rfl | hm
      · rw [List.foldl_cons, hlits₂]
        exact List.mem_append_left _ (hr₁.restored m List.mem_cons_self)
      · exact hr₂.restored m hm
    · rw [List.foldl_cons, hr₂.pending, hr₁.pending, hlevel₁, List.append_assoc]
      split <;> simp

/-- **What backtracking to a level below leaves**: the trail up to the cut,
behind it the facts that the cut took back, and everything else. -/
structure Cut (k : Nat) (s s' : Solver) : Prop where
  others : { s with trail := s'.trail, pendingFacts := s'.pendingFacts } = s'
  starts : s'.trail.starts.toList = s.trail.starts.toList.take k
  head : s'.trail.head = min s.trail.head (s.trail.levelStart (k + 1))
  lits : ∃ more, s'.trail.lits.toList
      = s.trail.lits.toList.take (s.trail.levelStart (k + 1)) ++ more
    ∧ ∀ l ∈ more, l ∈ s.pendingFacts
        ∧ l ∉ s.trail.lits.toList.take (s.trail.levelStart (k + 1))
  restored : ∀ l ∈ s.pendingFacts, l ∈ s'.trail.lits.toList
  pending : s'.pendingFacts = if k = 0 then [] else s.pendingFacts
  levels : ∀ v, s'.trail.levelOf v = s.trail.levelOf v

theorem backtrackTo_of_le (hk : s.level ≤ k) : s.backtrackTo k = s := by
  unfold backtrackTo
  rw [if_pos hk]

theorem backtrackTo_spec (hs : Sound F s) (hk : k < s.level) :
    Sound F (s.backtrackTo k) ∧ Cut k s (s.backtrackTo k) := by
  have hcut : Sound F { s with trail := s.trail.backtrackTo k, pendingFacts := [] } :=
    Consistent.cut hs hk
  have hlits := Trail.lits_backtrackTo (t := s.trail) hk
  obtain ⟨hs', hr⟩ := restoreFacts_spec hs.trail s.pendingFacts hcut
    (fun l hl => by
      have hl : l ∈ (s.trail.backtrackTo k).lits.toList := hl
      rw [hlits] at hl
      exact List.mem_of_mem_take hl)
    (fun l hl => by
      obtain ⟨hmem, h0⟩ := hs.pending l hl
      exact ⟨hmem, hs.trail.inRange l hmem, hs.entails_root hmem h0,
        (Trail.levelOf_backtrackTo k _).trans h0⟩)
  have hfold : s.backtrackTo k = s.pendingFacts.foldl restoreFact
      { s with trail := s.trail.backtrackTo k, pendingFacts := [] } := by
    unfold backtrackTo
    rw [if_neg (Nat.not_le_of_lt hk)]
  rw [hfold]
  refine ⟨hs', ⟨?_, ?_, ?_, ?_, hr.restored, ?_,
    fun v => (hr.levels v).trans (Trail.levelOf_backtrackTo k v)⟩⟩
  · exact hr.others
  · rw [hr.starts]
    exact Trail.starts_backtrackTo hk
  · rw [hr.head]
    exact Trail.head_backtrackTo hk
  · obtain ⟨more, hmore, hnew⟩ := hr.lits
    exact ⟨more, by rw [hmore]; exact congrArg (· ++ more) hlits,
      fun l hl => ⟨(hnew l hl).1, fun hm => (hnew l hl).2 (by rw [← hlits] at hm; exact hm)⟩⟩
  · rw [hr.pending]
    have hlevel : ({ s with trail := s.trail.backtrackTo k, pendingFacts := [] } : Solver).level
        = k := Trail.level_backtrackTo hk
    rw [hlevel, List.nil_append]

theorem Sound.backtrackTo (hs : Sound F s) (k : Nat) : Sound F (s.backtrackTo k) := by
  by_cases hk : s.level ≤ k
  · rw [backtrackTo_of_le hk]
    exact hs
  · exact (backtrackTo_spec hs (Nat.lt_of_not_le hk)).1

namespace Cut

variable (h : Cut k s s')

include h

theorem store : s'.store = s.store := (congrArg Solver.store h.others).symm

theorem varCount : s'.varCount = s.varCount := (congrArg Solver.varCount h.others).symm

theorem level (hk : k < s.level) : s'.level = k := by
  have hlen : s'.trail.starts.toList.length = s'.level := Array.length_toList
  have hlen' : s.trail.starts.toList.length = s.level := Array.length_toList
  rw [← hlen, h.starts, List.length_take, hlen']
  omega

/-- The levels that stay start where they did. -/
theorem levelStart_eq (hk : k < s.level) {j : Nat} (hjk : j ≤ k) :
    s'.trail.levelStart j = s.trail.levelStart j := by
  cases j with
  | zero => rfl
  | succ j =>
    have hlen : s.trail.starts.toList.length = s.level := Array.length_toList
    rw [Trail.levelStart_eq_getElem (t := s.trail) (by omega), Trail.levelStart_succ, h.starts,
      List.getElem?_take_of_lt hjk, List.getElem?_eq_getElem (by omega), Option.getD_some]

/-- What stood before the cut still does. -/
theorem take_eq {n : Nat} (hn : n ≤ s.trail.levelStart (k + 1))
    (hsize : n ≤ s.trail.lits.size) :
    s'.trail.lits.toList.take n = s.trail.lits.toList.take n := by
  obtain ⟨more, hlits, -⟩ := h.lits
  rw [hlits, List.take_append_of_le_length (by simp; omega), List.take_take,
    Nat.min_eq_left hn]

end Cut

/-- Whatever was true and settled before a cut is so afterwards. -/
theorem Cut.settled (h : Cut k s s') {done : List Lit} {n : Nat}
    (hn : n ≤ s.trail.levelStart (k + 1)) (hsize : n ≤ s.trail.lits.size)
    (hset : Settled done s.store (s.trail.lits.toList.take n)) :
    Settled done s'.store (s'.trail.lits.toList.take n) := by
  rw [h.store, h.take_eq hn hsize]
  exact hset

end Solver

end Cleave
