import Cleave.Proofs.HeapMembers

/-!
# The order of a heap

In a heap no member has a larger key than the one above it
(`VarHeap.Ordered`), so the member at the top has the largest key of all. An
operation disturbs the order around one position only: there the member may
have a larger key than the one above it, or a smaller one than those below it,
but the ones below still fit under the one above
(`VarHeap.OrderedAround`). Sifting moves the disturbance up or down until it is
gone.

Together with the positions this is all a heap promises
(`VarHeap.Lawful`), and re-keying, inserting, removing and popping keep it for
every key type with a total order.
-/

namespace Cleave.VarHeap

variable {κ : Type} [Ord κ] [Inhabited κ] {h h' : VarHeap κ} {v w : Var} {pos a b : Nat}

/-- The position above another one. -/
def parent (pos : Nat) : Nat := (pos - 1) / 2

theorem parent_lt (hpos : 0 < pos) : parent pos < pos := by
  unfold parent
  omega

/-- Below a position stand at most two members. -/
theorem eq_or_eq_of_parent_eq (hb : 0 < b) (hp : parent b = a) : b = 2 * a + 1 ∨ b = 2 * a + 2 := by
  unfold parent at hp
  omega

/-- The member at `a` has no smaller key than the one at `b`. -/
def Dominates (h : VarHeap κ) (a b : Nat) : Prop := (compare (h.keyAt b) (h.keyAt a)).isLE = true

/-- **No member has a larger key than the one above it.** -/
def Ordered (h : VarHeap κ) : Prop :=
  ∀ q, 0 < q → q < h.heap.size → h.Dominates (parent q) q

/-- **The order holds but for one position**, and what stands below it fits under
what stands above it. -/
structure OrderedAround (h : VarHeap κ) (pos : Nat) : Prop where
  edges : ∀ q, 0 < q → q < h.heap.size → q ≠ pos → parent q ≠ pos → h.Dominates (parent q) q
  across : 0 < pos → ∀ q, 0 < q → q < h.heap.size → parent q = pos → h.Dominates (parent pos) q

/-- The member at a position has no larger key than the one above it. -/
def OrderedAbove (h : VarHeap κ) (pos : Nat) : Prop := 0 < pos → h.Dominates (parent pos) pos

/-- The member at a position has no smaller key than those below it. -/
def OrderedBelow (h : VarHeap κ) (pos : Nat) : Prop :=
  ∀ q, 0 < q → q < h.heap.size → parent q = pos → h.Dominates pos q

theorem OrderedAround.ordered (ha : h.OrderedAround pos) (habove : h.OrderedAbove pos)
    (hbelow : h.OrderedBelow pos) : h.Ordered := fun q hq hlt => by
  by_cases hself : q = pos
  · exact hself ▸ habove (hself ▸ hq)
  by_cases hunder : parent q = pos
  · exact hunder ▸ hbelow q hq hlt hunder
  exact ha.edges q hq hlt hself hunder

omit [Ord κ] in
theorem keyAt_swap (ha : a < h.heap.size) (hb : b < h.heap.size) (hpos : pos < h.heap.size) :
    (h.swap a b).keyAt pos
      = if pos = a then h.keyAt b else if pos = b then h.keyAt a else h.keyAt pos := by
  unfold keyAt
  rw [memberAt_swap ha hb hpos]
  show h.keys[_] = _
  split
  · rfl
  · split <;> rfl

@[simp] theorem size_siftUp (h : VarHeap κ) (pos : Nat) :
    (h.siftUp pos).heap.size = h.heap.size := by
  fun_induction siftUp h pos <;> simp_all

@[simp] theorem size_siftDown (h : VarHeap κ) (pos : Nat) :
    (h.siftDown pos).heap.size = h.heap.size := by
  fun_induction siftDown h pos <;> simp_all

/-- Dominance after an exchange is dominance of what was exchanged. -/
theorem dominates_swap_iff {p q x y : Nat} (ha : a < h.heap.size) (hb : b < h.heap.size)
    (hp : p < h.heap.size) (hq : q < h.heap.size)
    (hx : (if p = a then b else if p = b then a else p) = x)
    (hy : (if q = a then b else if q = b then a else q) = y) :
    (h.swap a b).Dominates p q ↔ h.Dominates x y := by
  have hkey : ∀ {p x}, p < h.heap.size → (if p = a then b else if p = b then a else p) = x →
      (h.swap a b).keyAt p = h.keyAt x := fun hp hx => by
    rw [keyAt_swap ha hb hp, ← hx]
    split
    · rfl
    · split <;> rfl
  unfold Dominates
  rw [hkey hp hx, hkey hq hy]

theorem parent_largest (hne : h.largest pos ≠ pos) : parent (h.largest pos) = pos := by
  unfold largest at *
  unfold parent
  rcases larger_eq h pos (2 * pos + 1) with h1 | ⟨h1, -⟩ <;>
    rcases larger_eq h (h.larger pos (2 * pos + 1)) (2 * pos + 2) with h2 | ⟨h2, -⟩ <;>
    omega

variable [Std.TransOrd κ]

theorem Dominates.refl (h : VarHeap κ) (a : Nat) : h.Dominates a a := by
  unfold Dominates
  rw [show compare (h.keyAt a) (h.keyAt a) = .eq from Std.ReflCmp.compare_self]
  rfl

theorem Dominates.trans {c : Nat} (hab : h.Dominates a b) (hbc : h.Dominates b c) :
    h.Dominates a c :=
  Std.TransCmp.isLE_trans hbc hab

theorem dominates_of_not_isLE (hnot : ¬ (compare (h.keyAt a) (h.keyAt b)).isLE = true) :
    h.Dominates a b := by
  have hgt : compare (h.keyAt a) (h.keyAt b) = .gt := Ordering.isLE_eq_false.mp (by simpa using hnot)
  unfold Dominates
  rw [Std.OrientedCmp.gt_iff_lt.mp hgt]
  rfl

theorem Ordered.around (ho : h.Ordered) (hpos : pos < h.heap.size) : h.OrderedAround pos where
  edges := fun q hq hlt _ _ => ho q hq hlt
  across := fun h0 q hq hlt hunder => (ho pos h0 hpos).trans (hunder ▸ ho q hq hlt)

/-- **The top of a heap** dominates all of it, by induction along the path to the
top. -/
theorem Ordered.dominates_zero (ho : h.Ordered) (hpos : pos < h.heap.size) :
    h.Dominates 0 pos := by
  induction pos using Nat.strongRecOn with
  | _ pos ih =>
    rcases Nat.eq_zero_or_pos pos with rfl | h0
    · exact .refl h 0
    · exact (ih (parent pos) (parent_lt h0) ((parent_lt h0).trans hpos)).trans (ho pos h0 hpos)

/-! ## Sifting -/

/-- **A member that goes up** leaves order below it: what stood above it is larger
than all that stood below. -/
theorem OrderedAround.swap_up (ha : h.OrderedAround pos)
    (h0 : 0 < pos) (hpos : pos < h.heap.size) (hup : h.Dominates pos (parent pos)) :
    (h.swap pos (parent pos)).OrderedAround (parent pos)
      ∧ (h.swap pos (parent pos)).OrderedBelow (parent pos) := by
  have hparent := (parent_lt h0).trans hpos
  have hlt := parent_lt h0
  have hsize := size_swap h pos (parent pos)
  -- the other member below the old parent, which is smaller than it
  have hbeside : ∀ q, 0 < q → q < h.heap.size → q ≠ pos → parent q = parent pos →
      h.Dominates (parent pos) q := fun q hq hqs hne hp =>
    hp ▸ ha.edges q hq hqs hne (by omega)
  refine ⟨⟨fun q hq hqs hne hp => ?_, fun hp0 q hq hqs hp => ?_⟩, fun q hq hqs hp => ?_⟩
  all_goals rw [hsize] at hqs
  · have hqlt := parent_lt hq
    by_cases hunder : parent q = pos
    · refine (dominates_swap_iff hpos hparent (hqlt.trans hqs) hqs (if_pos hunder)
        (by rw [if_neg (by omega), if_neg (by omega)])).mpr ?_
      exact ha.across h0 q hq hqs hunder
    · have hself : q ≠ pos := fun heq => hp (heq ▸ rfl)
      refine (dominates_swap_iff hpos hparent (hqlt.trans hqs) hqs
        (by rw [if_neg hunder, if_neg hp]) (by rw [if_neg hself, if_neg hne])).mpr ?_
      exact ha.edges q hq hqs hself hunder
  · have hpp := parent_lt hp0
    have hover : h.Dominates (parent (parent pos)) (parent pos) :=
      ha.edges (parent pos) hp0 hparent (by omega) (by omega)
    by_cases hself : q = pos
    · exact (dominates_swap_iff hpos hparent (hpp.trans hparent) hqs
        (by rw [if_neg (by omega), if_neg (by omega)]) (if_pos hself)).mpr hover
    · refine (dominates_swap_iff hpos hparent (hpp.trans hparent) hqs
        (by rw [if_neg (by omega), if_neg (by omega)])
        (by rw [if_neg hself, if_neg (by have := parent_lt hq; omega)])).mpr ?_
      exact hover.trans (hbeside q hq hqs hself hp)
  · have hx : (if parent pos = pos then parent pos else if parent pos = parent pos then pos
        else parent pos) = pos := by rw [if_neg (by omega), if_pos rfl]
    by_cases hself : q = pos
    · exact (dominates_swap_iff hpos hparent hparent hqs hx (if_pos hself)).mpr hup
    · refine (dominates_swap_iff hpos hparent hparent hqs hx
        (by rw [if_neg hself, if_neg (by have := parent_lt hq; omega)])).mpr ?_
      exact hup.trans (hbeside q hq hqs hself hp)

/-- **Sifting up** restores the order above a position. -/
theorem OrderedAround.siftUp (ha : h.OrderedAround pos) (hbelow : h.OrderedBelow pos)
    (hpos : pos < h.heap.size) : (h.siftUp pos).Ordered := by
  fun_induction VarHeap.siftUp h pos with
  | case1 h => exact ha.ordered (fun h0 => absurd h0 (lt_irrefl 0)) hbelow
  | case2 h pos hne above hle => exact ha.ordered (fun _ => hle) hbelow
  | case3 h pos hne above hle ih =>
    have h0 : 0 < pos := Nat.pos_of_ne_zero hne
    obtain ⟨haround, hunder⟩ := ha.swap_up h0 hpos (dominates_of_not_isLE hle)
    exact ih haround hunder ((size_swap h pos above).symm ▸ (parent_lt h0).trans hpos)

theorem larger_dominates (h : VarHeap κ) (a b : Nat) : h.Dominates (h.larger a b) a
    ∧ (b < h.heap.size → h.Dominates (h.larger a b) b) := by
  unfold larger
  by_cases hb : b < h.heap.size
  · by_cases hgt : (compare (h.keyAt b) (h.keyAt a)).isGT = true
    · rw [decide_eq_true hb, hgt]
      have hnot : ¬ (compare (h.keyAt b) (h.keyAt a)).isLE = true := fun hle =>
        Ordering.isLE_iff_ne_gt.mp hle (Ordering.isGT_iff_eq_gt.mp hgt)
      exact ⟨dominates_of_not_isLE hnot, fun _ => .refl h b⟩
    · rw [decide_eq_true hb, Bool.eq_false_iff.mpr hgt]
      refine ⟨.refl h a, fun _ => ?_⟩
      exact Ordering.isLE_iff_ne_gt.mpr fun heq => hgt (Ordering.isGT_iff_eq_gt.mpr heq)
  · rw [decide_eq_false hb]
    exact ⟨.refl h a, fun hc => absurd hc hb⟩

/-- **The largest** of a position and those below it dominates them. -/
theorem largest_dominates (h : VarHeap κ) (pos : Nat) : h.Dominates (h.largest pos) pos
    ∧ ∀ q, 0 < q → q < h.heap.size → parent q = pos → h.Dominates (h.largest pos) q := by
  obtain ⟨hfirst, hleft⟩ := larger_dominates h pos (2 * pos + 1)
  obtain ⟨hsecond, hright⟩ := larger_dominates h (h.larger pos (2 * pos + 1)) (2 * pos + 2)
  refine ⟨hsecond.trans hfirst, fun q hq hqs hp => ?_⟩
  rcases eq_or_eq_of_parent_eq hq hp with rfl | rfl
  · exact hsecond.trans (hleft hqs)
  · exact hright hqs

/-- **A member that goes down** leaves order above it: the largest of those below
takes its place, which still fits under what stands above. -/
theorem OrderedAround.swap_down (ha : h.OrderedAround pos) (hpos : pos < h.heap.size)
    (hne : h.largest pos ≠ pos) :
    (h.swap pos (h.largest pos)).OrderedAround (h.largest pos)
      ∧ (h.swap pos (h.largest pos)).OrderedAbove (h.largest pos) := by
  obtain ⟨hlt, hin⟩ := (largest_eq h pos).resolve_left hne
  obtain ⟨hmax, hbeside⟩ := largest_dominates h pos
  have hunder := parent_largest hne
  generalize h.largest pos = c at *
  have hsize := size_swap h pos c
  refine ⟨⟨fun q hq hqs hqc hp => ?_, fun hc0 q hq hqs hp => ?_⟩, fun hc0 => ?_⟩
  · rw [hsize] at hqs
    have hqlt := parent_lt hq
    by_cases hself : q = pos
    · refine (dominates_swap_iff hpos hin (hqlt.trans hqs) hqs
        (by rw [if_neg (by omega), if_neg hp]) (if_pos hself)).mpr ?_
      rw [hself] at hq ⊢
      exact ha.across hq c (by omega) hin hunder
    by_cases hsibling : parent q = pos
    · exact (dominates_swap_iff hpos hin (hqlt.trans hqs) hqs (if_pos hsibling)
        (by rw [if_neg hself, if_neg hqc])).mpr (hbeside q hq hqs hsibling)
    · exact (dominates_swap_iff hpos hin (hqlt.trans hqs) hqs
        (by rw [if_neg hsibling, if_neg hp]) (by rw [if_neg hself, if_neg hqc])).mpr
          (ha.edges q hq hqs hself hsibling)
  · rw [hsize] at hqs
    have hqlt := parent_lt hq
    rw [hunder]
    refine (dominates_swap_iff hpos hin hpos hqs (if_pos rfl)
      (by rw [if_neg (by omega), if_neg (by omega)])).mpr ?_
    exact hp ▸ ha.edges q hq hqs (by omega) (by omega)
  · rw [hunder]
    exact (dominates_swap_iff hpos hin hpos hin (if_pos rfl)
      (by rw [if_neg (by omega), if_pos rfl])).mpr hmax

/-- **Sifting down** restores the order below a position. -/
theorem OrderedAround.siftDown (ha : h.OrderedAround pos) (habove : h.OrderedAbove pos)
    (hpos : pos < h.heap.size) : (h.siftDown pos).Ordered := by
  fun_induction VarHeap.siftDown h pos with
  | case1 h pos heq =>
    refine ha.ordered habove ?_
    have hbelow := (largest_dominates h pos).2
    rwa [heq] at hbelow
  | case2 h pos hne ih =>
    obtain ⟨haround, hover⟩ := ha.swap_down hpos hne
    have hin := ((largest_eq h pos).resolve_left hne).2
    exact ih haround hover ((size_swap h pos _).symm ▸ hin)

/-- Sifting down restores it also where the member may be larger than the one
above it; that is then all that can be wrong. -/
theorem OrderedAround.siftDown_below (ha : h.OrderedAround pos) (hpos : pos < h.heap.size) :
    (h.siftDown pos).OrderedAround pos ∧ (h.siftDown pos).OrderedBelow pos := by
  unfold VarHeap.siftDown
  split
  · rename_i heq
    have hbelow := (largest_dominates h pos).2
    rw [heq] at hbelow
    exact ⟨ha, hbelow⟩
  · -- a member that goes down makes room for one that fits
    rename_i hne
    obtain ⟨haround, hover⟩ := ha.swap_down hpos hne
    have hin : h.largest pos < (h.swap pos (h.largest pos)).heap.size := by
      rw [size_swap]
      exact ((largest_eq h pos).resolve_left hne).2
    have hordered := haround.siftDown hover hin
    refine ⟨hordered.around ?_, fun q hq hqs hp => hp ▸ hordered q hq hqs⟩
    rw [size_siftDown, size_swap]
    exact hpos

/-! ## What a heap promises -/

/-- **A heap in order**: the table of positions is that of the members, there is
room for their keys, and no member has a larger key than the one above it. -/
structure Lawful (h : VarHeap κ) : Prop where
  indexed : h.Indexed
  keyed : h.keys.size = h.positions.size
  ordered : h.Ordered

omit [Std.TransOrd κ] in
/-- Dominance depends on the keys at the two positions. -/
theorem dominates_congr {p q : Nat} (hp : h'.keyAt p = h.keyAt p) (hq : h'.keyAt q = h.keyAt q) :
    h'.Dominates p q ↔ h.Dominates p q := by
  unfold Dominates
  rw [hp, hq]

omit [Std.TransOrd κ] in
/-- **A changed key** disturbs the order around its member only. -/
theorem Ordered.around_of_keyAt (ho : h.Ordered) (hsize : h'.heap.size = h.heap.size)
    (hkey : ∀ q, q < h.heap.size → q ≠ pos → h'.keyAt q = h.keyAt q)
    (hacross : 0 < pos → ∀ q, 0 < q → q < h.heap.size → parent q = pos →
      h.Dominates (parent pos) q) : h'.OrderedAround pos where
  edges := fun q hq hqs hself hunder => by
    rw [hsize] at hqs
    exact (dominates_congr (hkey _ ((parent_lt hq).trans hqs) hunder) (hkey q hqs hself)).mpr
      (ho q hq hqs)
  across := fun h0 q hq hqs hp => by
    rw [hsize] at hqs
    have hlt := parent_lt hq
    have hlt0 := parent_lt h0
    exact (dominates_congr (hkey _ (by omega) (by omega)) (hkey q hqs (by omega))).mpr
      (hacross h0 q hq hqs hp)

omit [Ord κ] [Std.TransOrd κ] in
/-- One key is written first, then those of others. -/
theorem get_set_of_mem_cons {t : VarTable κ} (hroom : v.index < t.size) (key : Var → κ)
    (vs : List Var) (w : Var) : (if w ∈ vs then key w else (t.set v (key v))[w])
      = if w ∈ v :: vs then key w else t[w] := by
  by_cases hw : w ∈ vs
  · rw [if_pos hw, if_pos (List.mem_cons_of_mem _ hw)]
  by_cases hvw : v = w
  · subst hvw
    rw [if_neg hw, VarTable.get_set_self hroom, if_pos List.mem_cons_self]
  · rw [if_neg hw, VarTable.get_set_ne _ hvw,
      if_neg fun hc => (List.mem_cons.mp hc).elim (fun heq => hvw heq.symm) hw]

namespace Lawful

variable (hl : h.Lawful)

include hl

omit [Std.TransOrd κ] in
theorem index_lt_keys (hv : v ∈ h.heap.toList) : v.index < h.keys.size :=
  hl.keyed.symm ▸ hl.indexed.index_lt hv

omit [Std.TransOrd κ] in
/-- The key of a member after it was given another one. -/
theorem keyAt_set (hpos : pos < h.heap.size) (key : κ) {q : Nat} (hq : q < h.heap.size) :
    ({ h with keys := h.keys.set (h.memberAt pos) key } : VarHeap κ).keyAt q
      = if q = pos then key else h.keyAt q := by
  show (h.keys.set (h.memberAt pos) key)[h.memberAt q] = _
  have hroom := hl.index_lt_keys (mem_heap_iff.mpr ⟨pos, hpos, rfl⟩)
  split
  · rename_i heq
    rw [heq, VarTable.get_set_self hroom]
  · rename_i hne
    exact VarTable.get_set_ne _ (fun heq => hne (hl.indexed.memberAt_inj hpos hq heq).symm) _

/-- **Re-keying** a member keeps the heap in order. -/
theorem rekey (hv : v ∈ h.heap.toList) (key : κ) : (h.insert v key).Lawful := by
  obtain ⟨pos, hpos, rfl⟩ := mem_heap_iff.mp hv
  have hposition := hl.indexed.position_memberAt hpos
  have hr := hl.indexed.rekey hv key
  refine ⟨hr.indexed, ?_, ?_⟩
  · rw [hr.keys, hr.size, VarTable.size_set]
    exact hl.keyed
  have hkey := fun {q} (hq : q < h.heap.size) => hl.keyAt_set hpos key hq
  unfold VarHeap.insert
  simp only [hposition]
  -- the new key goes up or down, so the order is wrong on one side at most
  generalize hchanged : ({ h with keys := h.keys.set (h.memberAt pos) key } : VarHeap κ) = h'
    at hkey ⊢
  have hsize : h'.heap.size = h.heap.size := hchanged ▸ rfl
  have hself : h'.keyAt pos = key := by rw [hkey hpos, if_pos rfl]
  have hother : ∀ q, q < h.heap.size → q ≠ pos → h'.keyAt q = h.keyAt q := fun q hq hne => by
    rw [hkey hq, if_neg hne]
  have haround := hl.ordered.around_of_keyAt hsize hother (hl.ordered.around hpos).across
  split
  · rename_i hge
    refine haround.siftUp (fun q hq hqs hp => ?_) (hsize ▸ hpos)
    rw [hsize] at hqs
    have hlt := parent_lt hq
    have hbelow : h.Dominates pos q := hp ▸ hl.ordered q hq hqs
    unfold Dominates at *
    rw [hself, hother q hqs (by omega)]
    exact Std.TransCmp.isLE_trans hbelow (Std.OrientedCmp.isLE_of_isGE hge)
  · rename_i hge
    refine haround.siftDown (fun h0 => ?_) (hsize ▸ hpos)
    have hlt := parent_lt h0
    have habove := hl.ordered pos h0 hpos
    unfold Dominates at *
    rw [hself, hother _ (by omega) (by omega)]
    refine Std.TransCmp.isLE_trans ?_ habove
    cases hcmp : compare key h.keys[h.memberAt pos] with
    | lt => show (compare key h.keys[h.memberAt pos]).isLE = true; rw [hcmp]; rfl
    | eq => exact absurd (by rw [hcmp]; rfl) hge
    | gt => exact absurd (by rw [hcmp]; rfl) hge

/-- **Inserting** a variable that is no member keeps the heap in order. -/
theorem insert_new (hv : v ∉ h.heap.toList) (hroom : v.index < h.positions.size) (key : κ) :
    (h.insert v key).Lawful := by
  have hr := hl.indexed.insert_new hv hroom key
  refine ⟨hr.indexed, ?_, ?_⟩
  · rw [hr.keys, hr.size]
    show (h.keys.set v key).size = (h.positions.set v (some h.heap.size)).size
    rw [VarTable.size_set, VarTable.size_set]
    exact hl.keyed
  have hnone : h.positions[v] = none := by
    have hcontains := mt hl.indexed.contains_iff.mp hv
    unfold contains at hcontains
    simpa using hcontains
  have hsize : (h.pushed v key).heap.size = h.heap.size + 1 := Array.size_push _
  have hother : ∀ q, q < h.heap.size → (h.pushed v key).keyAt q = h.keyAt q := fun q hq => by
    have hmember : (h.pushed v key).memberAt q = h.memberAt q := by
      show (h.heap.push v).getD q default = h.heap.getD q default
      rw [Array.getD_eq_getD_getElem?, Array.getD_eq_getD_getElem?,
        Array.getElem?_push_lt hq, Array.getElem?_eq_getElem hq]
    show (h.keys.set v key)[(h.pushed v key).memberAt q] = h.keys[h.memberAt q]
    rw [hmember]
    exact VarTable.get_set_ne _ (fun heq => hv (mem_heap_iff.mpr ⟨q, hq, heq.symm⟩)) _
  unfold VarHeap.insert
  simp only [hnone]
  -- the last position has nothing below it
  refine OrderedAround.siftUp (h := h.pushed v key) ⟨fun q hq hqs hself _ => ?_, fun _ q hq hqs hp => ?_⟩
    (fun q hq hqs hp => ?_) (hsize ▸ Nat.lt_succ_self _)
  · have hlt := parent_lt hq
    exact (dominates_congr (hother _ (by omega)) (hother q (by omega))).mpr
      (hl.ordered q hq (by omega))
  all_goals
    have hlt := parent_lt hq
    omega

/-- **Inserting or re-keying** a variable keeps the heap in order. -/
theorem insert (hroom : v.index < h.positions.size) (key : κ) : (h.insert v key).Lawful := by
  by_cases hv : v ∈ h.heap.toList
  · exact hl.rekey hv key
  · exact hl.insert_new hv hroom key

omit hl [Std.TransOrd κ] in
theorem keys_insert (hi : h.Indexed) (hroom : v.index < h.positions.size) (key : κ) :
    (h.insert v key).keys = h.keys.set v key := by
  by_cases hv : v ∈ h.heap.toList
  · exact (hi.rekey hv key).keys
  · exact (hi.insert_new hv hroom key).keys

/-- **Removing** a member keeps the heap in order: the last member, which takes its
place, may belong further down or further up. -/
theorem remove (hv : v ∈ h.heap.toList) : (h.remove v).Lawful := by
  have hremoved := hl.indexed.remove hv
  refine ⟨hremoved.indexed, by rw [hremoved.keys, hremoved.size]; exact hl.keyed, ?_⟩
  obtain ⟨pos, hpos, rfl⟩ := mem_heap_iff.mp hv
  have hposition := hl.indexed.position_memberAt hpos
  have hsize : ((h.heap.setIfInBounds pos (h.memberAt (h.heap.size - 1))).pop).size
      = h.heap.size - 1 := by
    rw [Array.size_pop, Array.size_setIfInBounds]
  have hfilled : (h.filled pos).heap.size = h.heap.size - 1 := hsize
  have hother : ∀ q, q < h.heap.size - 1 → q ≠ pos → (h.filled pos).keyAt q = h.keyAt q :=
    fun q hq hne => by
      show h.keys[(h.filled pos).memberAt q] = h.keys[h.memberAt q]
      rw [memberAt_filled hq, if_neg hne]
  unfold VarHeap.remove
  simp only [hposition, hsize]
  by_cases hlast : pos < h.heap.size - 1
  · rw [if_pos hlast]
    have hacross := (hl.ordered.around hpos).across
    have haround : (h.filled pos).OrderedAround pos := by
      refine ⟨fun q hq hqs hself hunder => ?_, fun h0 q hq hqs hp => ?_⟩
      all_goals
        rw [hfilled] at hqs
        have hlt := parent_lt hq
      · exact (dominates_congr (hother _ (by omega) hunder) (hother q hqs hself)).mpr
          (hl.ordered q hq (by omega))
      · have hlt0 := parent_lt h0
        exact (dominates_congr (hother _ (by omega) (by omega)) (hother q hqs (by omega))).mpr
          (hacross h0 q hq (by omega) hp)
    obtain ⟨hdown, hbelow⟩ := haround.siftDown_below (hfilled ▸ hlast)
    exact hdown.siftUp hbelow (by rw [size_siftDown, hfilled]; exact hlast)
  · rw [if_neg hlast]
    intro q hq hqs
    replace hqs : q < h.heap.size - 1 := hsize ▸ hqs
    have hlt := parent_lt hq
    -- the member that goes was the last one, so all others stand where they stood
    have hmember : ∀ q, q < h.heap.size - 1 →
        ((h.heap.setIfInBounds pos (h.memberAt (h.heap.size - 1))).pop).getD q default
          = h.memberAt q := fun q hq => by
      rw [Array.getD_eq_getD_getElem?, Array.getElem?_pop, Array.size_setIfInBounds, if_pos hq,
        ← Array.getD_eq_getD_getElem?, getD_setIfInBounds, if_neg fun hc => by omega]
      rfl
    refine (dominates_congr ?_ ?_).mpr (hl.ordered q hq (by omega))
    · exact congrArg (h.keys[·]) (hmember _ (by omega))
    · exact congrArg (h.keys[·]) (hmember q hqs)

/-- **Popping** takes a member with the largest key, and leaves the rest in
order. -/
theorem pop (hp : h.pop? = some (v, h')) : h'.Lawful
    ∧ ∀ w ∈ h.heap.toList, (compare h.keys[w] h.keys[v]).isLE = true := by
  obtain ⟨hv, -⟩ := hl.indexed.pop hp
  unfold pop? at hp
  split at hp
  · cases hp
  · obtain ⟨rfl, rfl⟩ := Prod.mk.inj (Option.some.inj hp)
    refine ⟨hl.remove hv, fun w hw => ?_⟩
    obtain ⟨q, hq, rfl⟩ := mem_heap_iff.mp hw
    exact hl.ordered.dominates_zero hq

/-- **Inserting variables**, one after the other, gives each the key it comes
with. -/
theorem insertAll {vs : List Var} (hroom : ∀ v ∈ vs, v.index < h.positions.size) (key : Var → κ) :
    (vs.foldl (fun h v => h.insert v (key v)) h).Lawful
      ∧ ∀ w, (vs.foldl (fun h v => h.insert v (key v)) h).keys[w]
        = if w ∈ vs then key w else h.keys[w] := by
  induction vs generalizing h with
  | nil => exact ⟨hl, fun w => (if_neg List.not_mem_nil).symm⟩
  | cons v vs ih =>
    have hv := hroom v List.mem_cons_self
    have hsame := (hl.indexed.insert hv (key v)).2.2
    obtain ⟨hlawful, hkeys⟩ := ih (hl.insert hv (key v)) fun w hw =>
      hsame ▸ hroom w (List.mem_cons_of_mem _ hw)
    refine ⟨hlawful, fun w => (hkeys w).trans ?_⟩
    rw [keys_insert hl.indexed hv]
    exact get_set_of_mem_cons (hl.keyed.symm ▸ hv) key vs w

/-- **Re-keying those variables that are members**, one after the other. -/
theorem rekeyAll (vs : List Var) (key : Var → κ) :
    (vs.foldl (fun h v => if h.contains v then h.insert v (key v) else h) h).Lawful
      ∧ ∀ w ∈ h.heap.toList,
        (vs.foldl (fun h v => if h.contains v then h.insert v (key v) else h) h).keys[w]
          = if w ∈ vs then key w else h.keys[w] := by
  induction vs generalizing h with
  | nil => exact ⟨hl, fun w _ => (if_neg List.not_mem_nil).symm⟩
  | cons v vs ih =>
    rw [List.foldl_cons]
    by_cases hv : v ∈ h.heap.toList
    · rw [if_pos (hl.indexed.contains_iff.mpr hv)]
      have hr := hl.indexed.rekey hv (key v)
      obtain ⟨hlawful, hkeys⟩ := ih (hl.rekey hv (key v))
      refine ⟨hlawful, fun w hw => (hkeys w (hr.perm.mem_iff.mpr hw)).trans ?_⟩
      rw [hr.keys]
      exact get_set_of_mem_cons (hl.index_lt_keys hv) key vs w
    · rw [if_neg (mt hl.indexed.contains_iff.mp hv)]
      obtain ⟨hlawful, hkeys⟩ := ih hl
      refine ⟨hlawful, fun w hw => (hkeys w hw).trans ?_⟩
      have hne : w ≠ v := fun heq => hv (heq ▸ hw)
      exact if_congr (List.mem_cons.trans (or_iff_right hne)).symm rfl rfl

end Lawful

omit [Std.TransOrd κ] in
theorem lawful_empty_resize (count : Nat) : ((empty : VarHeap κ).resize count).Lawful where
  indexed := indexed_empty_resize count
  keyed := (VarTable.size_resize _ (Nat.zero_le _)).trans (VarTable.size_resize _ (Nat.zero_le _)).symm
  ordered := fun _ _ hq => absurd hq (Nat.not_lt_zero _)

end Cleave.VarHeap
