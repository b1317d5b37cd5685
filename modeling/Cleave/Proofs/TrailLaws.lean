import Cleave.Proofs.Tables
import Cleave.Trail
import Mathlib.Data.List.Nodup
import Mathlib.Data.List.Perm.Subperm
import Mathlib.Data.List.Permutation

/-!
# Laws of the trail

A trail is well formed if its list of literals and its table of values tell
the same assignment, no variable stands on it twice, and its levels start one
after the other inside it. Under this condition each operation is read off
the list: assigning appends a literal, backtracking cuts the list where a
level starts.

The position of a literal decides in whose level's part it stands: `depth`
counts the levels that start at or before a position.
-/

namespace Cleave

/-- In an ascending list, at most `k` elements are bounded by `p` exactly if
`p` lies below the element at position `k`. -/
theorem countP_le_iff_lt_getElem {xs : List Nat} (hs : xs.Pairwise (· < ·)) {k : Nat}
    (hk : k < xs.length) (p : Nat) : xs.countP (· ≤ p) ≤ k ↔ p < xs[k] := by
  have hsplit : xs = xs.take k ++ xs[k] :: xs.drop (k + 1) := by
    rw [← List.drop_eq_getElem_cons hk, List.take_append_drop]
  have hs' := hs
  rw [hsplit, List.pairwise_append] at hs'
  obtain ⟨-, hright, hcross⟩ := hs'
  have htake : (xs.take k).length = k := by simp; omega
  constructor
  · intro hle
    refine Nat.lt_of_not_le fun hxp => ?_
    have hall : (xs.take k).countP (· ≤ p) = k := by
      rw [List.countP_eq_length.mpr, htake]
      intro a ha
      have := hcross a ha xs[k] List.mem_cons_self
      simp
      omega
    rw [hsplit, List.countP_append, hall, List.countP_cons] at hle
    simp only [hxp, decide_true, if_true] at hle
    omega
  · intro hlt
    have hzero : (xs[k] :: xs.drop (k + 1)).countP (· ≤ p) = 0 := by
      rw [List.countP_eq_zero]
      intro a ha
      rcases List.mem_cons.mp ha with rfl | ha
      · simpa using hlt
      · have := (List.pairwise_cons.mp hright).1 a ha
        simp
        omega
    rw [hsplit, List.countP_append, hzero, Nat.add_zero]
    exact Nat.le_trans List.countP_le_length (Nat.le_of_eq htake)

/-- A split of a list with one more element is a split of the list, or cuts
off the new element. -/
theorem append_singleton_eq_split {α : Type} {xs pre post : List α} {x l : α}
    (h : xs ++ [x] = pre ++ l :: post) :
    (pre = xs ∧ l = x ∧ post = []) ∨ ∃ post', xs = pre ++ l :: post' ∧ post = post' ++ [x] := by
  rcases List.eq_nil_or_concat post with rfl | ⟨post', y, rfl⟩
  · left
    have := List.append_inj' h rfl
    simp_all
  · right
    have h' : xs ++ [x] = (pre ++ l :: post') ++ [y] := by simpa using h
    have hinj := List.append_inj' h' rfl
    exact ⟨post', hinj.1, by simp_all⟩

namespace Trail

variable {t : Trail} {count : Nat}

/-- The number of decision levels that start at or before a position. -/
def depth (t : Trail) (pos : Nat) : Nat := t.starts.toList.countP (· ≤ pos)

/-- The literals of level 0, which no backtracking takes back. -/
def roots (t : Trail) : List Lit := t.lits.toList.take (t.levelStart 1)

/-- **A well-formed trail** over `count` variables. -/
structure Wf (t : Trail) (count : Nat) : Prop where
  sizeValues : t.values.size = count
  sizeLevels : t.levels.size = count
  sizeReasons : t.reasons.size = count
  /-- No variable is assigned twice. -/
  nodup : (t.lits.toList.map Lit.var).Nodup
  inRange : ∀ l ∈ t.lits.toList, l.var.index < count
  /-- The table of values holds the literals of the trail. -/
  valuesIff : ∀ l : Lit, t.values[l.var] = some l.positive ↔ l ∈ t.lits.toList
  /-- Every level has a literal, its decision. -/
  startsLt : ∀ p ∈ t.starts.toList, p < t.lits.size
  startsSorted : t.starts.toList.Pairwise (· < ·)
  headLe : t.head ≤ t.lits.size

/-! ## Values -/

theorem value_eq_some (t : Trail) (l : Lit) (b : Bool) :
    t.value l = some b ↔ t.values[l.var] = some (b == l.positive) := by
  unfold value
  cases t.values[l.var] with
  | none => simp
  | some c => cases b <;> cases c <;> cases l.positive <;> simp

theorem isAssigned_of_value_none {l : Lit} (hl : t.value l = none) :
    t.isAssigned l.var = false := by
  unfold value at hl
  unfold isAssigned
  rw [Option.map_eq_none_iff] at hl
  rw [hl]
  rfl

namespace Wf

variable (h : t.Wf count)

include h

theorem value_true {l : Lit} : t.value l = some true ↔ l ∈ t.lits.toList := by
  rw [value_eq_some, ← h.valuesIff l]
  cases l.positive <;> simp

theorem value_false {l : Lit} : t.value l = some false ↔ l.neg ∈ t.lits.toList := by
  rw [value_eq_some, ← h.valuesIff l.neg]
  show t.values[l.var] = some (false == l.positive) ↔ t.values[l.var] = some (!l.positive)
  cases l.positive <;> simp

theorem isTrue_iff {l : Lit} : t.isTrue l = true ↔ l ∈ t.lits.toList := by
  rw [← h.value_true]
  simp [isTrue]

theorem isFalse_iff {l : Lit} : t.isFalse l = true ↔ l.neg ∈ t.lits.toList := by
  rw [← h.value_false]
  simp [isFalse]

theorem isAssigned_iff {v : Var} :
    t.isAssigned v = true ↔ ∃ l ∈ t.lits.toList, l.var = v := by
  unfold isAssigned
  constructor
  · intro hv
    obtain ⟨b, hb⟩ := Option.isSome_iff_exists.mp hv
    exact ⟨v.lit b, (h.valuesIff (v.lit b)).mp hb, rfl⟩
  · rintro ⟨l, hl, rfl⟩
    rw [(h.valuesIff l).mpr hl]
    rfl

/-- A variable without a value has no literal on the trail. -/
theorem not_mem_of_not_assigned {l : Lit} (hl : t.isAssigned l.var = false) :
    l ∉ t.lits.toList := by
  intro hmem
  have := h.isAssigned_iff.mpr ⟨l, hmem, rfl⟩
  rw [hl] at this
  exact absurd this (by simp)

/-- An open variable is not that of a literal on the trail. -/
theorem var_ne_of_open {v : Var} (hv : t.isAssigned v = false) :
    ∀ m ∈ t.lits.toList, v ≠ m.var := by
  intro m hm he
  exact h.not_mem_of_not_assigned (he ▸ hv) hm

theorem not_mem_neg {l : Lit} (hl : l ∈ t.lits.toList) : l.neg ∉ t.lits.toList := by
  intro hneg
  have htrue := h.value_true.mpr hl
  rw [h.value_false.mpr hneg] at htrue
  exact absurd htrue (by simp)

/-- The two literals of a variable are never both on the trail. -/
theorem eq_of_var_eq {l m : Lit} (hl : l ∈ t.lits.toList) (hm : m ∈ t.lits.toList)
    (hv : l.var = m.var) : l = m := by
  rcases Lit.eq_or_eq_neg hv with he | he
  · exact he
  · exact absurd (he ▸ hl) (h.not_mem_neg hm)

/-- A trail is no longer than there are variables. -/
theorem size_le : t.lits.size ≤ count := by
  have hsub : ((t.lits.toList.map Lit.var).map Var.index).Subset (List.range count) := by
    intro i hi
    obtain ⟨v, hv, rfl⟩ := List.mem_map.mp hi
    obtain ⟨l, hl, rfl⟩ := List.mem_map.mp hv
    exact List.mem_range.mpr (h.inRange l hl)
  have hnodup : ((t.lits.toList.map Lit.var).map Var.index).Nodup :=
    h.nodup.map fun _ _ hvw => Var.index_inj.mp hvw
  have hle := (hnodup.subperm hsub).length_le
  simpa using hle

end Wf

/-! ## Levels and positions -/

theorem levelStart_succ (t : Trail) (k : Nat) :
    t.levelStart (k + 1) = (t.starts.toList[k]?).getD t.lits.size := by
  simp [levelStart]

/-- An open level starts where it was opened. -/
theorem levelStart_eq_getElem {k : Nat} (hk : k < t.starts.toList.length) :
    t.levelStart (k + 1) = t.starts.toList[k] := by
  rw [levelStart_succ, List.getElem?_eq_getElem hk, Option.getD_some]

theorem decision?_succ (t : Trail) (k : Nat) :
    t.decision? (k + 1) = t.starts.toList[k]?.bind fun start => t.lits.toList[start]? := by
  simp [decision?]

/-- Without decisions the whole trail is of level 0. -/
theorem roots_of_level_zero (h : t.level = 0) : t.roots = t.lits.toList := by
  have hstarts : t.starts = #[] := Array.eq_empty_of_size_eq_zero h
  unfold roots levelStart
  rw [hstarts, if_neg (by simp)]
  exact List.take_of_length_le (by simp)

theorem depth_le_level (t : Trail) (pos : Nat) : t.depth pos ≤ t.level := by
  unfold depth level
  rw [← Array.length_toList]
  exact List.countP_le_length

namespace Wf

variable (h : t.Wf count)

include h

theorem levelStart_le (k : Nat) : t.levelStart k ≤ t.lits.size := by
  cases k with
  | zero => exact Nat.zero_le _
  | succ k =>
    rw [levelStart_succ]
    cases hk : t.starts.toList[k]? with
    | none => simp
    | some p => exact Nat.le_of_lt (h.startsLt p (List.mem_of_getElem? hk))

/-- **The depth of a position is the level in whose part it lies.** -/
theorem lt_levelStart_iff {p : Nat} (hp : p < t.lits.size) (k : Nat) :
    p < t.levelStart (k + 1) ↔ t.depth p ≤ k := by
  rw [levelStart_succ]
  by_cases hk : k < t.starts.toList.length
  · rw [List.getElem?_eq_getElem hk, Option.getD_some, depth,
      countP_le_iff_lt_getElem h.startsSorted hk]
  · rw [List.getElem?_eq_none (Nat.le_of_not_lt hk), Option.getD_none]
    have hlevel : t.depth p ≤ t.starts.toList.length := List.countP_le_length
    exact ⟨fun _ => by omega, fun _ => hp⟩

/-- Everything assigned next stands in the current level's part. -/
theorem depth_of_size_le {p : Nat} (hp : t.lits.size ≤ p) : t.depth p = t.level := by
  have hlen : t.starts.toList.length = t.level := Array.length_toList
  rw [← hlen]
  refine List.countP_eq_length.mpr fun q hq => ?_
  have := h.startsLt q hq
  simp
  omega

end Wf

/-! ## Assigning -/

@[simp] theorem lits_push (t : Trail) (l : Lit) (level : Nat) (reason : Reason) :
    (t.push l level reason).lits.toList = t.lits.toList ++ [l] := by
  simp [push]

@[simp] theorem starts_push (t : Trail) (l : Lit) (level : Nat) (reason : Reason) :
    (t.push l level reason).starts = t.starts := rfl

@[simp] theorem head_push (t : Trail) (l : Lit) (level : Nat) (reason : Reason) :
    (t.push l level reason).head = t.head := rfl

@[simp] theorem level_push (t : Trail) (l : Lit) (level : Nat) (reason : Reason) :
    (t.push l level reason).level = t.level := rfl

@[simp] theorem depth_push (t : Trail) (l : Lit) (level : Nat) (reason : Reason) (p : Nat) :
    (t.push l level reason).depth p = t.depth p := rfl

theorem levelOf_push_self (hsize : t.levels.size = count) {l : Lit} (hl : l.var.index < count)
    (level : Nat) (reason : Reason) : (t.push l level reason).levelOf l.var = level :=
  VarTable.get_set_self (hsize ▸ hl) level

theorem levelOf_push_ne (t : Trail) {l : Lit} {v : Var} (hv : l.var ≠ v) (level : Nat)
    (reason : Reason) : (t.push l level reason).levelOf v = t.levelOf v :=
  VarTable.get_set_ne _ hv level

theorem reasonOf_push_self (hsize : t.reasons.size = count) {l : Lit} (hl : l.var.index < count)
    (level : Nat) (reason : Reason) : (t.push l level reason).reasonOf l.var = reason :=
  VarTable.get_set_self (hsize ▸ hl) reason

theorem reasonOf_push_ne (t : Trail) {l : Lit} {v : Var} (hv : l.var ≠ v) (level : Nat)
    (reason : Reason) : (t.push l level reason).reasonOf v = t.reasonOf v :=
  VarTable.get_set_ne _ hv reason

/-- Values after an assignment to an open variable. -/
theorem Wf.valuesIff_push (h : t.Wf count) {l : Lit} (hl : l.var.index < count)
    (hopen : t.isAssigned l.var = false) (level : Nat) (reason : Reason) (m : Lit) :
    (t.push l level reason).values[m.var] = some m.positive ↔ m ∈ t.lits.toList ++ [l] := by
  show (t.values.set l.var (some l.positive))[m.var] = _ ↔ _
  rw [List.mem_append, List.mem_singleton]
  by_cases hv : l.var = m.var
  · rw [← hv, VarTable.get_set_self (h.sizeValues ▸ hl)]
    have hnot : m ∉ t.lits.toList := h.not_mem_of_not_assigned (hv ▸ hopen)
    constructor
    · intro he
      exact Or.inr (Lit.eq_of_var_eq hv.symm (by simpa using he.symm))
    · rintro (hm | rfl)
      · exact absurd hm hnot
      · rfl
  · rw [VarTable.get_set_ne _ hv, h.valuesIff m]
    exact ⟨Or.inl, fun hm => hm.resolve_right fun he => hv (he ▸ rfl)⟩

theorem Wf.push (h : t.Wf count) {l : Lit} (hl : l.var.index < count)
    (hopen : t.isAssigned l.var = false) (level : Nat) (reason : Reason) :
    (t.push l level reason).Wf count where
  sizeValues := by simpa [Trail.push] using h.sizeValues
  sizeLevels := by simpa [Trail.push] using h.sizeLevels
  sizeReasons := by simpa [Trail.push] using h.sizeReasons
  nodup := by
    rw [lits_push, List.map_append, List.nodup_append]
    refine ⟨h.nodup, by simp, fun v hv w hw hvw => ?_⟩
    obtain ⟨m, hm, rfl⟩ := List.mem_map.mp hv
    have hw' : w = l.var := by simpa using hw
    exact h.not_mem_of_not_assigned (l := m) (by rw [hvw, hw']; exact hopen) hm
  inRange := by
    intro m hm
    rw [lits_push, List.mem_append, List.mem_singleton] at hm
    rcases hm with hm | rfl
    · exact h.inRange m hm
    · exact hl
  valuesIff := by
    intro m
    rw [lits_push]
    exact h.valuesIff_push hl hopen level reason m
  startsLt := by
    intro p hp
    have := h.startsLt p hp
    simp [Trail.push]
    omega
  startsSorted := h.startsSorted
  headLe := by
    have := h.headLe
    simp [Trail.push]
    omega

/-! ## Decisions -/

/-- A trail with a new level that starts with a decision. -/
def decided (t : Trail) (l : Lit) : Trail := t.openLevel.push l t.openLevel.level .decision

@[simp] theorem lits_decided (t : Trail) (l : Lit) :
    (t.decided l).lits.toList = t.lits.toList ++ [l] := by
  simp [decided, openLevel]

@[simp] theorem starts_decided (t : Trail) (l : Lit) :
    (t.decided l).starts.toList = t.starts.toList ++ [t.lits.size] := by
  simp [decided, openLevel]

@[simp] theorem level_decided (t : Trail) (l : Lit) : (t.decided l).level = t.level + 1 := by
  simp [decided, openLevel, level]

@[simp] theorem head_decided (t : Trail) (l : Lit) : (t.decided l).head = t.head := rfl

theorem depth_decided_of_lt (t : Trail) (l : Lit) {p : Nat} (hp : p < t.lits.size) :
    (t.decided l).depth p = t.depth p := by
  unfold depth
  rw [starts_decided, List.countP_append]
  simp
  omega

theorem Wf.depth_decided_size (h : t.Wf count) (l : Lit) :
    (t.decided l).depth t.lits.size = t.level + 1 := by
  have := h.depth_of_size_le (Nat.le_refl _)
  unfold depth at *
  rw [starts_decided, List.countP_append, this]
  simp

theorem levelOf_decided_self (hsize : t.levels.size = count) {l : Lit} (hl : l.var.index < count) :
    (t.decided l).levelOf l.var = t.level + 1 := by
  have hopened : t.openLevel.levels.size = count := hsize
  rw [decided, levelOf_push_self hopened hl]
  simp [openLevel, level]

theorem levelOf_decided_ne (t : Trail) {l : Lit} {v : Var} (hv : l.var ≠ v) :
    (t.decided l).levelOf v = t.levelOf v :=
  levelOf_push_ne _ hv _ _

theorem reasonOf_decided_self (hsize : t.reasons.size = count) {l : Lit}
    (hl : l.var.index < count) : (t.decided l).reasonOf l.var = .decision := by
  have hopened : t.openLevel.reasons.size = count := hsize
  exact reasonOf_push_self hopened hl _ _

theorem reasonOf_decided_ne (t : Trail) {l : Lit} {v : Var} (hv : l.var ≠ v) :
    (t.decided l).reasonOf v = t.reasonOf v :=
  reasonOf_push_ne _ hv _ _

theorem Wf.decided (h : t.Wf count) {l : Lit} (hl : l.var.index < count)
    (hopen : t.isAssigned l.var = false) : (t.decided l).Wf count where
  __ := h.push hl hopen t.openLevel.level .decision
  startsLt := by
    intro p hp
    rw [starts_decided, List.mem_append, List.mem_singleton] at hp
    have hsize : (t.decided l).lits.size = t.lits.size + 1 := by
      simp [Trail.decided, openLevel, Trail.push]
    rw [hsize]
    rcases hp with hp | rfl
    · exact Nat.lt_succ_of_lt (h.startsLt p hp)
    · exact Nat.lt_succ_self _
  startsSorted := by
    rw [starts_decided, List.pairwise_append]
    refine ⟨h.startsSorted, by simp, fun p hp q hq => ?_⟩
    rw [List.mem_singleton.mp hq]
    exact h.startsLt p hp

/-! ## Backtracking -/

/-- What taking literals back does to the tables. -/
theorem foldl_unassign (ls : List Lit) (t : Trail) :
    (ls.foldl unassign t).lits = t.lits ∧ (ls.foldl unassign t).starts = t.starts
      ∧ (ls.foldl unassign t).head = t.head ∧ (ls.foldl unassign t).levels = t.levels
      ∧ (ls.foldl unassign t).values.size = t.values.size
      ∧ (ls.foldl unassign t).reasons.size = t.reasons.size := by
  induction ls generalizing t with
  | nil => simp
  | cons l rest ih =>
    obtain ⟨h1, h2, h3, h4, h5, h6⟩ := ih (t.unassign l)
    refine ⟨h1, h2, h3, h4, h5.trans ?_, h6.trans ?_⟩ <;> simp [unassign]

theorem foldl_unassign_untouched (ls : List Lit) (t : Trail) {v : Var}
    (hv : ∀ l ∈ ls, l.var ≠ v) :
    (ls.foldl unassign t).values[v] = t.values[v]
      ∧ (ls.foldl unassign t).reasons[v] = t.reasons[v] := by
  induction ls generalizing t with
  | nil => simp
  | cons l rest ih =>
    have hne : l.var ≠ v := hv l (by simp)
    obtain ⟨h1, h2⟩ := ih (t.unassign l) fun m hm => hv m (by simp [hm])
    exact ⟨h1.trans (VarTable.get_set_ne _ hne _), h2.trans (VarTable.get_set_ne _ hne _)⟩

theorem foldl_unassign_touched (ls : List Lit) (t : Trail) {v : Var}
    (hv : ∃ l ∈ ls, l.var = v) (hsize : v.index < t.values.size) :
    (ls.foldl unassign t).values[v] = none := by
  induction ls generalizing t with
  | nil => simp at hv
  | cons l rest ih =>
    have hsize' : v.index < (t.unassign l).values.size := by simpa [unassign] using hsize
    by_cases hrest : ∃ m ∈ rest, m.var = v
    · exact ih (t.unassign l) hrest hsize'
    · obtain ⟨m, hm, rfl⟩ := hv
      rcases List.mem_cons.mp hm with rfl | hm
      · rw [List.foldl_cons, (foldl_unassign_untouched rest (t.unassign m)
          fun x hx he => hrest ⟨x, hx, he⟩).1]
        exact VarTable.get_set_self hsize none
      · exact absurd ⟨m, hm, rfl⟩ hrest

theorem backtrackTo_of_le {k : Nat} (hk : t.level ≤ k) : t.backtrackTo k = t := by
  unfold backtrackTo
  rw [if_pos hk]

theorem lits_backtrackTo {k : Nat} (hk : k < t.level) :
    (t.backtrackTo k).lits.toList = t.lits.toList.take (t.levelStart (k + 1)) := by
  unfold backtrackTo
  rw [if_neg (Nat.not_le_of_lt hk)]
  simp [(foldl_unassign _ t).1]

theorem starts_backtrackTo {k : Nat} (hk : k < t.level) :
    (t.backtrackTo k).starts.toList = t.starts.toList.take k := by
  unfold backtrackTo
  rw [if_neg (Nat.not_le_of_lt hk)]
  simp [(foldl_unassign _ t).2.1]

theorem level_backtrackTo {k : Nat} (hk : k < t.level) : (t.backtrackTo k).level = k := by
  have hlen : t.starts.toList.length = t.level := Array.length_toList
  have hlen' : (t.backtrackTo k).starts.toList.length = (t.backtrackTo k).level :=
    Array.length_toList
  rw [← hlen', starts_backtrackTo hk, List.length_take, hlen]
  omega

theorem head_backtrackTo {k : Nat} (hk : k < t.level) :
    (t.backtrackTo k).head = min t.head (t.levelStart (k + 1)) := by
  unfold backtrackTo
  rw [if_neg (Nat.not_le_of_lt hk)]
  simp [(foldl_unassign _ t).2.2.1]

theorem values_backtrackTo {k : Nat} (hk : k < t.level) :
    (t.backtrackTo k).values
      = ((t.litsFrom (t.levelStart (k + 1))).foldl unassign t).values := by
  unfold backtrackTo
  rw [if_neg (Nat.not_le_of_lt hk)]

/-- The tables keep their sizes, and the levels stay where they are. -/
theorem tables_backtrackTo (k : Nat) : (t.backtrackTo k).values.size = t.values.size
    ∧ (t.backtrackTo k).levels = t.levels
    ∧ (t.backtrackTo k).reasons.size = t.reasons.size := by
  unfold backtrackTo
  split
  · exact ⟨rfl, rfl, rfl⟩
  · obtain ⟨-, -, -, hlevels, hvalues, hreasons⟩ := foldl_unassign (t.litsFrom _) t
    exact ⟨hvalues, hlevels, hreasons⟩

theorem levelOf_backtrackTo (k : Nat) (v : Var) : (t.backtrackTo k).levelOf v = t.levelOf v := by
  unfold levelOf
  rw [(tables_backtrackTo k).2.1]

namespace Wf

variable (h : t.Wf count)

include h

/-- The literals kept and those taken back have different variables. -/
theorem var_ne_of_split {n : Nat} {l m : Lit} (hl : l ∈ t.lits.toList.take n)
    (hm : m ∈ t.lits.toList.drop n) : m.var ≠ l.var := by
  have hnodup := h.nodup
  rw [← List.take_append_drop n t.lits.toList, List.map_append, List.nodup_append] at hnodup
  exact fun he => hnodup.2.2 l.var (List.mem_map_of_mem hl) m.var (List.mem_map_of_mem hm) he.symm

/-- A literal that is kept keeps its reason. -/
theorem reasonOf_backtrackTo {k : Nat} (hk : k < t.level) {l : Lit}
    (hl : l ∈ t.lits.toList.take (t.levelStart (k + 1))) :
    (t.backtrackTo k).reasonOf l.var = t.reasonOf l.var := by
  unfold backtrackTo reasonOf
  rw [if_neg (Nat.not_le_of_lt hk)]
  exact (foldl_unassign_untouched _ t fun m hm => h.var_ne_of_split hl hm).2

/-- Positions that are kept stay in their level's part. -/
theorem depth_backtrackTo {k : Nat} (hk : k < t.level) {p : Nat}
    (hp : p < t.levelStart (k + 1)) : (t.backtrackTo k).depth p = t.depth p := by
  have hsize : p < t.lits.size := Nat.lt_of_lt_of_le hp (h.levelStart_le _)
  have hlen : t.starts.toList.length = t.level := Array.length_toList
  unfold depth
  rw [starts_backtrackTo hk]
  conv_rhs => rw [← List.take_append_drop k t.starts.toList, List.countP_append]
  have hzero : (t.starts.toList.drop k).countP (· ≤ p) = 0 := by
    have hkl : k < t.starts.toList.length := by omega
    have hpk : p < t.starts.toList[k] := by
      rwa [levelStart_eq_getElem hkl] at hp
    have hsorted := h.startsSorted.drop (i := k)
    rw [List.drop_eq_getElem_cons hkl] at hsorted ⊢
    rw [List.countP_eq_zero]
    intro q hq
    rcases List.mem_cons.mp hq with rfl | hq
    · simpa using hpk
    · have := (List.pairwise_cons.mp hsorted).1 q hq
      simp
      omega
  rw [hzero, Nat.add_zero]

/-- A literal that is taken back loses its value, the others keep theirs. -/
theorem valuesIff_backtrackTo {k : Nat} (hk : k < t.level) (l : Lit) :
    (t.backtrackTo k).values[l.var] = some l.positive
      ↔ l ∈ t.lits.toList.take (t.levelStart (k + 1)) := by
  rw [values_backtrackTo hk]
  by_cases hdrop : ∃ m ∈ t.litsFrom (t.levelStart (k + 1)), m.var = l.var
  · obtain ⟨m, hm, hmv⟩ := hdrop
    have hlt : l.var.index < t.values.size := by
      rw [h.sizeValues, ← hmv]
      exact h.inRange m (List.mem_of_mem_drop hm)
    rw [foldl_unassign_touched _ t ⟨m, hm, hmv⟩ hlt]
    exact iff_of_false (by simp) fun hl => h.var_ne_of_split hl hm hmv
  · rw [(foldl_unassign_untouched _ t fun m hm he => hdrop ⟨m, hm, he⟩).1, h.valuesIff l]
    refine ⟨fun hl => ?_, List.mem_of_mem_take⟩
    rw [← List.take_append_drop (t.levelStart (k + 1)) t.lits.toList, List.mem_append] at hl
    exact hl.resolve_right fun hd => hdrop ⟨l, hd, rfl⟩

/-- The levels that are kept start before the next one. -/
theorem lt_levelStart_of_mem_take {k : Nat} (hk : k < t.level) {p : Nat}
    (hp : p ∈ t.starts.toList.take k) : p < t.levelStart (k + 1) := by
  have hlen : t.starts.toList.length = t.level := Array.length_toList
  obtain ⟨i, hi, rfl⟩ := List.mem_take_iff_getElem.mp hp
  rw [levelStart_eq_getElem (by omega)]
  exact List.pairwise_iff_getElem.mp h.startsSorted i k (by omega) (by omega) (by omega)

theorem backtrackTo (k : Nat) : (t.backtrackTo k).Wf count := by
  by_cases hk : t.level ≤ k
  · rw [backtrackTo_of_le hk]
    exact h
  have hk : k < t.level := Nat.lt_of_not_le hk
  obtain ⟨hvalues, hlevels, hreasons⟩ := tables_backtrackTo (t := t) k
  have hlits := lits_backtrackTo hk
  have hsize : (t.backtrackTo k).lits.size = t.levelStart (k + 1) := by
    rw [← Array.length_toList, hlits, List.length_take, Array.length_toList]
    exact Nat.min_eq_left (h.levelStart_le _)
  exact {
    sizeValues := hvalues.trans h.sizeValues
    sizeLevels := hlevels ▸ h.sizeLevels
    sizeReasons := hreasons.trans h.sizeReasons
    nodup := by
      rw [hlits]
      exact h.nodup.sublist ((List.take_sublist _ _).map _)
    inRange := fun l hl => h.inRange l (List.mem_of_mem_take (hlits ▸ hl))
    valuesIff := fun l => by
      rw [hlits]
      exact h.valuesIff_backtrackTo hk l
    startsLt := by
      intro p hp
      rw [starts_backtrackTo hk] at hp
      rw [hsize]
      exact h.lt_levelStart_of_mem_take hk hp
    startsSorted := by
      rw [starts_backtrackTo hk]
      exact h.startsSorted.take
    headLe := by
      rw [hsize, head_backtrackTo hk]
      exact Nat.min_le_right _ _ }

end Wf

/-! ## Room for more variables -/

theorem Wf.resize (h : t.Wf count) {more : Nat} (hle : count ≤ more) :
    (t.resize more).Wf more where
  sizeValues := VarTable.size_resize _ (h.sizeValues ▸ hle)
  sizeLevels := VarTable.size_resize _ (h.sizeLevels ▸ hle)
  sizeReasons := VarTable.size_resize _ (h.sizeReasons ▸ hle)
  nodup := h.nodup
  inRange := fun l hl => Nat.lt_of_lt_of_le (h.inRange l hl) hle
  valuesIff := by
    intro l
    show (t.values.resize more)[l.var] = _ ↔ _
    rw [VarTable.get_resize _ (h.sizeValues ▸ hle)]
    exact h.valuesIff l
  startsLt := h.startsLt
  startsSorted := h.startsSorted
  headLe := h.headLe

theorem Wf.levelOf_resize (h : t.Wf count) {more : Nat} (hle : count ≤ more) (v : Var) :
    (t.resize more).levelOf v = t.levelOf v :=
  VarTable.get_resize _ (h.sizeLevels ▸ hle) v

theorem Wf.reasonOf_resize (h : t.Wf count) {more : Nat} (hle : count ≤ more) (v : Var) :
    (t.resize more).reasonOf v = t.reasonOf v :=
  VarTable.get_resize _ (h.sizeReasons ▸ hle) v

end Trail

end Cleave
