import Cleave.Proofs.Certificates
import Cleave.Proofs.Upkeep

/-!
# A reduction forgets only what it may

A reduction moves the clauses that stay together, so a clause is told from
another one by the position it had. The positions that stay, in ascending order,
describe the whole reduction: the clause at a new position is the one at the old
position listed there (`ClauseStore.kept`, `ClauseStore.kept_of_moved`). All
clauses up to the last given one stay, and so these do not move at all
(`ClauseStore.getElem?_kept`).

`Solver.Forgets` says what a reduction leaves alone and which learnt clauses it
keeps, and a reduction never fails (`Attained.reduceLearnts_forgets`): scores are
set to zero before they are raised again.
-/

namespace Cleave

/-! ## Positions that stay -/

/-- The new places do not depend on what the elements are. -/
theorem foldl_place_map {α β : Type} (f : α → β) (xs : List (α × Bool))
    (acc : Array (Option Nat) × Nat) :
    (xs.map fun x => (f x.1, x.2)).foldl place acc = xs.foldl place acc := by
  rw [List.foldl_map]
  rfl

theorem staying_map {α β : Type} (f : α → β) (xs : List (α × Bool)) :
    staying (xs.map fun x => (f x.1, x.2)) = (staying xs).map f := by
  unfold staying
  rw [List.filterMap_map, List.map_filterMap]
  refine List.filterMap_congr fun x _ => ?_
  obtain ⟨x, stays⟩ := x
  cases stays <;> rfl

theorem staying_flagged (p : Nat → Bool) (is : List Nat) :
    staying (is.map fun i => (i, p i)) = is.filter p := by
  induction is with
  | nil => rfl
  | cons i is ih =>
    have hcons : staying ((i :: is).map fun i => (i, p i))
        = if p i then i :: staying (is.map fun i => (i, p i))
          else staying (is.map fun i => (i, p i)) := by
      unfold staying
      rw [List.map_cons, List.filterMap_cons]
      cases p i <;> rfl
    rw [hcons, ih, List.filter_cons]

/-- **An initial part that stays** does not move. -/
theorem getElem?_filter_range {p : Nat → Bool} {n k : Nat} (hk : k ≤ n) (hp : ∀ i < k, p i = true)
    {i : Nat} (hi : i < k) : ((List.range n).filter p)[i]? = some i := by
  obtain ⟨m, rfl⟩ := Nat.exists_eq_add_of_le hk
  have hall : (List.range k).filter p = List.range k :=
    List.filter_eq_self.mpr fun i hi => hp i (List.mem_range.mp hi)
  rw [List.range_add, List.filter_append, hall,
    List.getElem?_append_left (by simpa using hi), List.getElem?_range hi]

namespace ClauseStore

variable {s : ClauseStore} {keep : ClauseId → LongClause → Bool} {id : ClauseId} {j k : Nat}

/-- Whether the clause at a position stays. -/
def staysAt (s : ClauseStore) (keep : ClauseId → LongClause → Bool) (id : ClauseId) : Bool :=
  !(s.clause id).learnt || keep id (s.clause id)

/-- **The positions that stay**, in ascending order. -/
def kept (s : ClauseStore) (keep : ClauseId → LongClause → Bool) : List ClauseId :=
  (List.range s.long.size).filter (s.staysAt keep)

theorem mem_kept : id ∈ s.kept keep ↔ s.Stays keep id := by
  unfold kept staysAt Stays
  rw [List.mem_filter, List.mem_range, Bool.or_eq_true, Bool.not_eq_true']

theorem pairwise_kept (s : ClauseStore) (keep : ClauseId → LongClause → Bool) :
    (s.kept keep).Pairwise (· < ·) :=
  List.pairwise_lt_range.filter _

theorem sorted_eq (s : ClauseStore) (keep : ClauseId → LongClause → Bool) :
    s.sorted keep
      = ((List.range s.long.size).map fun id => (id, s.staysAt keep id)).map
          fun x => (s.clause x.1, x.2) := by
  unfold sorted longClauses
  rw [List.map_map, List.map_map]
  rfl

/-- **The clauses left** are those at the positions that stay. -/
theorem long_retainLearnt (s : ClauseStore) (keep : ClauseId → LongClause → Bool) :
    (s.retainLearnt keep).2.long.toList = (s.kept keep).map s.clause := by
  rw [retainLearnt_eq]
  show staying (s.sorted keep) = _
  rw [sorted_eq, staying_map, staying_flagged]
  rfl

/-- A clause that stays moves to the place where its position is listed. -/
theorem kept_of_moved (h : s.Stays keep id) :
    ∃ j, (s.retainLearnt keep).1.getD id none = some j ∧ (s.kept keep)[j]? = some id := by
  have hget : ((List.range s.long.size).map fun id => (id, s.staysAt keep id))[id]?
      = some (id, true) := by
    rw [List.getElem?_map, List.getElem?_range h.1]
    have hstays : s.staysAt keep id = true := (List.mem_filter.mp (mem_kept.mpr h)).2
    rw [← hstays]
    rfl
  obtain ⟨j, hj, hx⟩ := (foldl_place _ #[] 0).2 id id hget
  rw [staying_flagged] at hx
  refine ⟨j, ?_, hx⟩
  rw [retainLearnt_eq, sorted_eq, foldl_place_map]
  simpa using hj

/-- The clause at a new position is the one at the old position listed there. -/
theorem clause_retainLearnt (h : (s.kept keep)[j]? = some id) :
    j < (s.retainLearnt keep).2.long.size ∧ (s.retainLearnt keep).2.clause j = s.clause id := by
  have hget : (s.retainLearnt keep).2.long.toList[j]? = some (s.clause id) := by
    rw [long_retainLearnt, List.getElem?_map, h]
    rfl
  rw [Array.getElem?_toList] at hget
  refine ⟨(Array.getElem?_eq_some_iff.mp hget).1, ?_⟩
  unfold clause
  rw [Array.getD_eq_getD_getElem?, hget]
  rfl

/-- **Clauses up to one behind which nothing given follows** do not move if all of
them stay. -/
theorem getElem?_kept (hk : k ≤ s.long.size) (h : ∀ id < k, s.Stays keep id) (hid : id < k) :
    (s.kept keep)[id]? = some id :=
  getElem?_filter_range hk (fun i hi => (List.mem_filter.mp (mem_kept.mpr (h i hi))).2) hid

/-- All positions, where nothing is forgotten. -/
theorem long_eq_map (s : ClauseStore) :
    s.long.toList = (List.range s.long.size).map s.clause := by
  refine List.ext_getElem (by simp) fun i h₁ h₂ => ?_
  have hi : i < s.long.size := by simpa using h₁
  simp [clause, Array.getD, hi]

/-- **The last given clause** is behind all other ones. -/
theorem le_of_getLast? {last : ClauseId × LongClause} (hlast : s.givenLong.getLast? = some last) :
    s.Gives last.1 ∧ ∀ g, s.Gives g → g ≤ last.1 := by
  have hascending : s.givenLong.Pairwise fun x y => x.1 < y.1 := by
    refine List.Pairwise.filter _ ?_
    unfold longClauses
    rw [List.pairwise_map]
    exact List.pairwise_lt_range
  refine ⟨(mem_givenLong.mp (List.mem_of_getLast? hlast)).1, fun g hg => ?_⟩
  have hin : (g, s.clause g) ∈ s.givenLong := mem_givenLong.mpr ⟨hg, rfl⟩
  obtain ⟨before, hsplit⟩ := List.getLast?_eq_some_iff.mp hlast
  rw [hsplit] at hin hascending
  rcases List.mem_append.mp hin with hin | hin
  · exact Nat.le_of_lt ((List.pairwise_append.mp hascending).2.2 _ hin last (by simp))
  · exact (congrArg Prod.fst (List.mem_singleton.mp hin)).le

end ClauseStore

/-! ## What stays -/

namespace Solver

variable {F : List Clause} {s s' : Solver} {id : ClauseId} {kept : List ClauseId}

/-- **A candidate**: a learnt clause behind all given ones. -/
def Candidate (s : Solver) (id : ClauseId) : Prop :=
  id < s.store.long.size ∧ (s.store.clause id).learnt = true ∧ ∀ g, s.store.Gives g → g < id

/-- **What a reduction may forget.** The positions of the clauses that are kept
are listed in `kept`, so the clause that is `j`-th now was at position `kept[j]`. -/
structure Forgets (s s' : Solver) (kept : List ClauseId) : Prop where
  /-- The assignment with its order and levels is what it was. -/
  trail : { s'.trail with reasons := s.trail.reasons } = s.trail
  units : s'.store.units = s.store.units
  implications : s'.store.implications = s.store.implications
  /-- Clauses are left out, but neither changed nor exchanged. -/
  long : s'.store.long.toList = kept.map s.store.clause
  ascending : kept.Pairwise (· < ·)
  mem_lt : ∀ id ∈ kept, id < s.store.long.size
  given : ∀ id, s.store.Gives id → kept[id]? = some id ∧ s'.store.clause id = s.store.clause id
  /-- A long reason is the same clause where it stands now. -/
  reason : ∀ l ∈ s.trail.lits.toList, ∀ id, s.trail.reasonOf l.var = .long id →
    ∃ j, s'.trail.reasonOf l.var = .long j ∧ kept[j]? = some id
      ∧ s'.store.clause j = s.store.clause id
  otherReason : ∀ l ∈ s.trail.lits.toList, (∀ id, s.trail.reasonOf l.var ≠ .long id) →
    s'.trail.reasonOf l.var = s.trail.reasonOf l.var
  short : ∀ id < s.store.long.size,
    (s.store.clause id).size ≤ s.options.keepLearntLength → id ∈ kept
  older : ∀ id g, s.store.Gives g → id < g → id ∈ kept
  /-- Of the candidates the newer half is kept. -/
  recent : ∀ candidates : List ClauseId, candidates.Pairwise (· < ·) →
    (∀ id, id ∈ candidates ↔ s.Candidate id) →
      ∀ id ∈ candidates.drop (candidates.length / 2), id ∈ kept
  counted : s'.store.learntLong = s'.store.long.toList.countP (·.learnt)
  /-- A clause is listed under the literals that it was listed under. -/
  watched : ∀ j id, kept[j]? = some id → ∀ l : Lit,
    j ∈ s'.watches[l].toList ↔ id ∈ s.watches[l].toList

/-- A long reason of an assigned literal is a clause of the store. -/
theorem Sound.reason_lt (hs : Sound F s) {l : Lit} (hl : l ∈ s.trail.lits.toList)
    (hr : s.trail.reasonOf l.var = .long id) : id < s.store.long.size := by
  obtain ⟨pre, post, hsplit⟩ := List.append_of_mem hl
  have hexplained := (hs.justified pre l post hsplit).explained
  rw [hr] at hexplained
  exact hexplained.1.1

/-- Nothing is forgotten. -/
theorem Forgets.refl (hs : Sound F s) (hcounted : s.store.Counted) :
    Forgets s s (List.range s.store.long.size) where
  trail := rfl
  units := rfl
  implications := rfl
  long := s.store.long_eq_map
  ascending := List.pairwise_lt_range
  mem_lt := fun _ => List.mem_range.mp
  given := fun _ hid => ⟨List.getElem?_range hid.1, rfl⟩
  reason := fun l hl id hr =>
    ⟨id, hr, List.getElem?_range (hs.reason_lt hl hr), rfl⟩
  otherReason := fun _ _ _ => rfl
  short := fun _ hid _ => List.mem_range.mpr hid
  older := fun _ _ hg hlt => List.mem_range.mpr (hlt.trans hg.1)
  recent := fun _ _ hmem id hid => List.mem_range.mpr ((hmem id).mp (List.mem_of_mem_drop hid)).1
  counted := hcounted
  watched := fun j id hj l => by
    obtain ⟨hlt, rfl⟩ := List.getElem?_eq_some_iff.mp hj
    rw [List.getElem_range]

/-! ## A reduction -/

/-- The position of the last given clause. -/
def lastGiven? (s : Solver) : Option ClauseId := s.store.givenLong.getLast?.map (·.1)

/-- The clauses that a reduction may forget, the oldest one first. -/
def forgettable (s : Solver) : List ClauseId :=
  (s.store.longClauses.filter fun (id, c) => c.learnt && s.lastGiven?.all (· < id)).map (·.1)

/-- The choice of a reduction. -/
def keeps (s : Solver) : ClauseId → LongClause → Bool :=
  s.survives s.lastGiven? s.forgettable[s.forgettable.length / 2]? s.lockedClauses

/-- **A reduction never fails**, whatever the scores were. -/
theorem reduceLearnts_eq_ok (hover : s.learntLimit < s.store.learntLong) :
    ∃ activity, s.reduceLearnts = .ok { s with
      store := (s.store.retainLearnt s.keeps).2
      trail := redirectReasons s.trail (s.store.retainLearnt s.keeps).1
      watches := watchAll (s.store.retainLearnt s.keeps).2 s.varCount
      membership := Membership.ofStore (s.store.retainLearnt s.keeps).2 s.varCount
      activity := activity
      learntLimit := s.learntLimit + max (s.learntLimit / 10) 1
      stats := { s.stats with search :=
        { s.stats.search with reductions := s.stats.search.reductions + 1 } } } := by
  obtain ⟨activity, hraise, -⟩ := (Activity.sane_reset s.activity).raiseAll
    (((s.store.retainLearnt s.keeps).2.long.toList.filter (·.learnt)).flatMap LongClause.lits)
  refine ⟨activity, ?_⟩
  unfold reduceLearnts
  rw [if_neg (Nat.not_le.mpr hover)]
  exact Except.bind_eq_ok.mpr ⟨activity, hraise, rfl⟩

/-- Nothing given stands behind the last given clause. -/
theorem lt_of_lastGiven? (hall : s.lastGiven?.all (· < id) = true) :
    ∀ g, s.store.Gives g → g < id := by
  intro g hg
  unfold lastGiven? at hall
  cases hlast : s.store.givenLong.getLast? with
  | none =>
    have hin : (g, s.store.clause g) ∈ s.store.givenLong :=
      ClauseStore.mem_givenLong.mpr ⟨hg, rfl⟩
    rw [List.getLast?_eq_none_iff.mp hlast] at hin
    cases hin
  | some last =>
    rw [hlast] at hall
    exact Nat.lt_of_le_of_lt ((ClauseStore.le_of_getLast? hlast).2 g hg) (of_decide_eq_true hall)

theorem lastGiven?_all (h : ∀ g, s.store.Gives g → g < id) :
    s.lastGiven?.all (· < id) = true := by
  unfold lastGiven?
  cases hlast : s.store.givenLong.getLast? with
  | none => rfl
  | some last => exact decide_eq_true (h _ (ClauseStore.le_of_getLast? hlast).1)

/-- A clause before a given one is before the last given one. -/
theorem lastGiven?_any {g : ClauseId} (hg : s.store.Gives g) (hlt : id < g) :
    s.lastGiven?.any (id < ·) = true := by
  unfold lastGiven?
  cases hlast : s.store.givenLong.getLast? with
  | none =>
    have hin : (g, s.store.clause g) ∈ s.store.givenLong :=
      ClauseStore.mem_givenLong.mpr ⟨hg, rfl⟩
    rw [List.getLast?_eq_none_iff.mp hlast] at hin
    cases hin
  | some last =>
    exact decide_eq_true (Nat.lt_of_lt_of_le hlt ((ClauseStore.le_of_getLast? hlast).2 g hg))

theorem mem_forgettable : id ∈ s.forgettable ↔ s.Candidate id := by
  unfold forgettable Candidate
  rw [List.mem_map]
  constructor
  · rintro ⟨⟨id, c⟩, hmem, rfl⟩
    obtain ⟨hin, hp⟩ := List.mem_filter.mp hmem
    obtain ⟨hlt, rfl⟩ := ClauseStore.mem_longClauses hin
    obtain ⟨hlearnt, hall⟩ := Bool.and_eq_true_iff.mp hp
    exact ⟨hlt, hlearnt, lt_of_lastGiven? hall⟩
  · rintro ⟨hlt, hlearnt, hbehind⟩
    refine ⟨(id, s.store.clause id), List.mem_filter.mpr ⟨?_, ?_⟩, rfl⟩
    · exact List.mem_of_getElem? (ClauseStore.getElem_longClauses hlt)
    · exact Bool.and_eq_true_iff.mpr ⟨hlearnt, lastGiven?_all hbehind⟩

theorem pairwise_forgettable (s : Solver) : s.forgettable.Pairwise (· < ·) := by
  unfold forgettable ClauseStore.longClauses
  rw [List.pairwise_map]
  refine List.Pairwise.filter _ ?_
  rw [List.pairwise_map]
  exact List.pairwise_lt_range

/-- **Why a learnt clause is kept.** -/
theorem keeps_eq_true {c : LongClause} : s.keeps id c = true ↔
    s.lastGiven?.any (id < ·) = true ∨ s.lockedClauses.getD id false = true
      ∨ c.size ≤ s.options.keepLearntLength
      ∨ s.forgettable[s.forgettable.length / 2]?.all (· ≤ id) = true := by
  unfold keeps survives
  rw [Bool.or_eq_true, Bool.or_eq_true, Bool.or_eq_true, decide_eq_true_iff, or_assoc, or_assoc]

/-- What stands in the newer half stands behind the first of it. -/
theorem all_le_of_mem_drop {cs : List Nat} (h : cs.Pairwise (· < ·)) {n id : Nat}
    (hid : id ∈ cs.drop n) : cs[n]?.all (· ≤ id) = true := by
  rw [← List.head?_drop]
  have hsorted : (cs.drop n).Pairwise (· < ·) := h.drop
  cases hdrop : cs.drop n with
  | nil => rfl
  | cons r rest =>
    rw [hdrop] at hid hsorted
    refine decide_eq_true ?_
    rcases List.mem_cons.mp hid with rfl | hin
    · exact Nat.le_refl _
    · exact Nat.le_of_lt ((List.pairwise_cons.mp hsorted).1 id hin)

/-- All clauses up to a given one stay. -/
theorem stays_of_le {g : ClauseId} (hg : s.store.Gives g) (hle : id ≤ g) :
    s.store.Stays s.keeps id := by
  rcases Nat.eq_or_lt_of_le hle with rfl | hlt
  · exact ⟨hg.1, Or.inl hg.2⟩
  · exact ⟨hlt.trans hg.1, Or.inr (keeps_eq_true.mpr (Or.inl (lastGiven?_any hg hlt)))⟩

/-- **Above the limit** a reduction forgets only what it may. -/
theorem Forgets.of_lt (hs : Sound F s) (hover : s.learntLimit < s.store.learntLong) :
    ∃ s', s.reduceLearnts = .ok s' ∧ Forgets s s' (s.store.kept s.keeps) := by
  obtain ⟨activity, hr⟩ := reduceLearnts_eq_ok hover
  refine ⟨_, hr, ?_⟩
  have hreasons := (redirectReasons_spec hs.trail (s.store.retainLearnt s.keeps).1).2
  have hwatches := watchesExactly_watchAll (hs.store.retainLearnt s.keeps)
  exact {
    trail := by simp only [redirectReasons_eq]
    units := rfl
    implications := rfl
    long := ClauseStore.long_retainLearnt _ _
    ascending := ClauseStore.pairwise_kept _ _
    mem_lt := fun id hid => (ClauseStore.mem_kept.mp hid).1
    given := fun id hg => by
      have hget : (s.store.kept s.keeps)[id]? = some id :=
        ClauseStore.getElem?_kept hg.1
          (fun i hi => stays_of_le hg (Nat.le_of_lt_succ hi)) (Nat.lt_succ_self id)
      exact ⟨hget, (ClauseStore.clause_retainLearnt hget).2⟩
    reason := fun l hl id hreason => by
      have hid := hs.reason_lt hl hreason
      have hlocked := locked_of_reason hid hl hreason
      obtain ⟨j, hj, hget⟩ := ClauseStore.kept_of_moved
        (show s.store.Stays s.keeps id from
          ⟨hid, Or.inr (keeps_eq_true.mpr (Or.inr (Or.inl hlocked)))⟩)
      refine ⟨j, ?_, hget, (ClauseStore.clause_retainLearnt hget).2⟩
      show (redirectReasons s.trail _).reasonOf l.var = _
      rw [hreasons l hl, hreason]
      show Reason.long (((s.store.retainLearnt s.keeps).1.getD id none).getD id) = _
      rw [hj]
      rfl
    otherReason := fun l hl hne => by
      show (redirectReasons s.trail _).reasonOf l.var = _
      rw [hreasons l hl]
      cases hreason : s.trail.reasonOf l.var with
      | long id => exact absurd hreason (hne id)
      | decision => rfl
      | binary other => rfl
    short := fun id hid hsize => ClauseStore.mem_kept.mpr
      ⟨hid, Or.inr (keeps_eq_true.mpr (Or.inr (Or.inr (Or.inl hsize))))⟩
    older := fun id g hg hlt => ClauseStore.mem_kept.mpr (stays_of_le hg hlt.le)
    recent := fun candidates hsorted hmem id hid => by
      -- the candidates are the list that the reduction makes
      obtain rfl : candidates = s.forgettable :=
        eq_of_sorted (fun _ _ => Nat.lt_asymm) hsorted (pairwise_forgettable s)
          fun id => (hmem id).trans mem_forgettable.symm
      have hcandidate := (hmem id).mp (List.mem_of_mem_drop hid)
      exact ClauseStore.mem_kept.mpr ⟨hcandidate.1, Or.inr (keeps_eq_true.mpr
        (Or.inr (Or.inr (Or.inr (all_le_of_mem_drop hsorted hid)))))⟩
    counted := ClauseStore.counted_retainLearnt _ _
    watched := fun j id hget l => by
      obtain ⟨hj, hclause⟩ := ClauseStore.clause_retainLearnt hget
      have hid := (ClauseStore.mem_kept.mp (List.mem_of_getElem? hget)).1
      refine (hwatches.mem_iff l j).trans (Iff.trans ?_ (hs.watches.mem_iff l id).symm)
      unfold ClauseStore.Watches
      rw [hclause]
      exact and_congr_left' (iff_of_true hj hid) }

/-- **A reduction forgets only what it may.** In every state that calls lead to
it succeeds, and there is a list of the positions it keeps: the assignment, its
levels, the units and the binary clauses are the same, given clauses keep their
positions, reasons stay the same clauses, and of the learnt ones the reasons, the
short ones, those before a given one and the newer half of the others are kept.
Up to the limit nothing happens. -/
theorem Attained.reduceLearnts_forgets (h : Attained s) :
    ∃ s' kept, s.reduceLearnts = .ok s' ∧ Forgets s s' kept
      ∧ (s.store.learntLong ≤ s.learntLimit → s' = s) := by
  rcases Nat.lt_or_ge s.learntLimit s.store.learntLong with hover | hle
  · obtain ⟨s', hr, hforgets⟩ := Forgets.of_lt h.sound hover
    exact ⟨s', _, hr, hforgets, fun hle => absurd hover (Nat.not_lt.mpr hle)⟩
  · refine ⟨s, _, ?_, .refl h.sound h.kept.counted, fun _ => rfl⟩
    unfold reduceLearnts
    rw [if_pos hle]
    rfl

/-- Two pairs of clauses, each of which refutes three variables together. -/
def crowded : Formula :=
  { clauses := [[Var.pos ⟨0⟩, Var.pos ⟨8⟩], [Var.pos ⟨1⟩, Var.pos ⟨8⟩], [Var.pos ⟨2⟩, Var.pos ⟨8⟩],
      [Var.pos ⟨3⟩, Var.pos ⟨9⟩],
      [Var.neg ⟨0⟩, Var.pos ⟨4⟩], [Var.neg ⟨1⟩, Var.pos ⟨5⟩], [Var.neg ⟨2⟩, Var.pos ⟨6⟩],
      [Var.neg ⟨3⟩, Var.pos ⟨7⟩],
      [Var.neg ⟨4⟩, Var.neg ⟨5⟩, Var.neg ⟨6⟩, Var.pos ⟨10⟩],
      [Var.neg ⟨4⟩, Var.neg ⟨5⟩, Var.neg ⟨6⟩, Var.neg ⟨10⟩],
      [Var.neg ⟨4⟩, Var.neg ⟨5⟩, Var.neg ⟨7⟩, Var.pos ⟨10⟩],
      [Var.neg ⟨4⟩, Var.neg ⟨5⟩, Var.neg ⟨7⟩, Var.neg ⟨10⟩]] }

/-- A search meets two conflicts, and of the two clauses learnt the older one is
forgotten. -/
theorem Attained.reduceLearnts_forgets_crowded : ∃ (s s' : Solver) (kept : List ClauseId),
    Attained s ∧ s.reduceLearnts = .ok s' ∧ Forgets s s' kept
      ∧ s.store.learntLong = 2 ∧ s'.store.learntLong = 1 := by
  have hrun : (do
      let searched ← (Solver.ofFormula crowded
          { branching := .static, maxLearnts := 1, keepLearntLength := 2 }).search 6
        ⟨(List.range 11).map Var.mk, [0, 1, 2, 3]⟩ (some 2)
      let reduced ← searched.2.reduceLearnts
      return searched.2.store.learntLong = 2 && reduced.store.learntLong = 1 :
      Except Fault Bool) = .ok true := by
    rw [ofFormula_of_ascending (f := crowded) (by decide) rfl]
    decide +kernel
  obtain ⟨⟨r, s⟩, hsearch, hrun⟩ := Except.bind_eq_ok.mp hrun
  obtain ⟨s', hreduce, hrun⟩ := Except.bind_eq_ok.mp hrun
  have hcounts := Except.ok.inj hrun
  simp only [Bool.and_eq_true, decide_eq_true_eq] at hcounts
  have hattained : Attained s := .call (F := []) (.ofFormula crowded _) (.search hsearch)
  obtain ⟨s'', kept, hr, hforgets, -⟩ := hattained.reduceLearnts_forgets
  obtain rfl := Except.ok.inj (hr.symm.trans hreduce)
  exact ⟨s, s'', kept, hattained, hr, hforgets, hcounts⟩

end Solver

end Cleave
