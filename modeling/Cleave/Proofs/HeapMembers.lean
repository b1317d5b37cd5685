import Cleave.Proofs.Branching

/-!
# The members of a heap

The heap and its table of positions say the same: a variable has a position
exactly if it stands there (`VarHeap.Indexed`). So a variable is a member at
most once, and the table tells whether it is one. Sifting only rearranges the
members (`VarHeap.Rearranged`), inserting adds one and popping takes one away;
how the keys compare does not matter for any of this.
-/

namespace Cleave.VarHeap

variable {κ : Type} {h h' h'' : VarHeap κ} {v w : Var} {pos a b : Nat}

/-- **The positions are those of the members.** -/
def Indexed (h : VarHeap κ) : Prop :=
  ∀ v pos, h.positions[v] = some pos ↔ pos < h.heap.size ∧ h.memberAt pos = v

theorem mem_heap_iff : v ∈ h.heap.toList ↔ ∃ pos, pos < h.heap.size ∧ h.memberAt pos = v := by
  rw [List.mem_iff_getElem]
  constructor
  · rintro ⟨pos, hpos, rfl⟩
    refine ⟨pos, hpos, ?_⟩
    simp only [Array.length_toList] at hpos
    simp [memberAt, Array.getD, hpos]
  · rintro ⟨pos, hpos, rfl⟩
    refine ⟨pos, by simpa using hpos, ?_⟩
    simp [memberAt, Array.getD, hpos]

namespace Indexed

variable (hi : h.Indexed)

include hi

theorem position_memberAt (hpos : pos < h.heap.size) : h.positions[h.memberAt pos] = some pos :=
  (hi _ _).mpr ⟨hpos, rfl⟩

/-- A variable stands at one position only. -/
theorem memberAt_inj (ha : a < h.heap.size) (hb : b < h.heap.size)
    (heq : h.memberAt a = h.memberAt b) : a = b := by
  have hpos := hi.position_memberAt ha
  rw [heq, hi.position_memberAt hb] at hpos
  exact (Option.some.inj hpos).symm

/-- **A variable is a member** if it has a position. -/
theorem contains_iff : h.contains v = true ↔ v ∈ h.heap.toList := by
  unfold contains
  rw [Option.isSome_iff_exists, mem_heap_iff]
  exact exists_congr fun pos => hi v pos

theorem nodup : h.heap.toList.Nodup := by
  rw [List.nodup_iff_injective_getElem]
  intro ⟨a, ha⟩ ⟨b, hb⟩ heq
  simp only [Array.length_toList] at ha hb
  refine Fin.ext (hi.memberAt_inj ha hb ?_)
  simpa [memberAt, Array.getD, ha, hb] using heq

theorem index_lt (hv : v ∈ h.heap.toList) : v.index < h.positions.size := by
  by_contra hge
  have hnone : h.positions[v] = none := VarTable.get_of_size_le _ (not_lt.mp hge)
  have hsome := hi.contains_iff.mpr hv
  unfold contains at hsome
  rw [hnone] at hsome
  cases hsome

end Indexed

/-- **The same members**, standing elsewhere, with the same keys. -/
structure Rearranged (h h' : VarHeap κ) : Prop where
  indexed : h'.Indexed
  perm : h'.heap.toList.Perm h.heap.toList
  size : h'.positions.size = h.positions.size
  keys : h'.keys = h.keys

theorem Rearranged.refl (hi : h.Indexed) : Rearranged h h := ⟨hi, .refl _, rfl, rfl⟩

theorem Rearranged.trans (h₁ : Rearranged h h') (h₂ : Rearranged h' h'') : Rearranged h h'' :=
  ⟨h₂.indexed, h₂.perm.trans h₁.perm, h₂.size.trans h₁.size, h₂.keys.trans h₁.keys⟩

theorem Rearranged.length (hr : Rearranged h h') : h'.heap.size = h.heap.size := by
  simpa using hr.perm.length_eq

theorem memberAt_swap (ha : a < h.heap.size) (hb : b < h.heap.size) (hpos : pos < h.heap.size) :
    (h.swap a b).memberAt pos
      = if pos = a then h.memberAt b else if pos = b then h.memberAt a else h.memberAt pos := by
  unfold swap memberAt
  simp only [Array.swapIfInBounds, ha, hb, ↓reduceDIte, Array.getD_eq_getD_getElem?,
    Array.getElem?_eq_getElem (show pos < (h.heap.swap a b ha hb).size by simpa using hpos),
    Array.getElem?_eq_getElem ha, Array.getElem?_eq_getElem hb, Array.getElem?_eq_getElem hpos,
    Option.getD_some, Array.getElem_swap]

/-- **Exchanging two members** keeps the positions right. -/
theorem Indexed.swap (hi : h.Indexed) (ha : a < h.heap.size) (hb : b < h.heap.size) :
    Rearranged h (h.swap a b) := by
  have hva := hi.index_lt (mem_heap_iff.mpr ⟨a, ha, rfl⟩)
  have hvb := hi.index_lt (mem_heap_iff.mpr ⟨b, hb, rfl⟩)
  refine ⟨fun v pos => ?_, swapIfInBounds_perm h.heap.toList a b, ?_, rfl⟩
  · have hposition : (h.swap a b).positions[v]
        = if h.memberAt b = v then some a else if h.memberAt a = v then some b
          else h.positions[v] := by
      show ((h.positions.set (h.memberAt a) (some b)).set (h.memberAt b) (some a))[v] = _
      rw [VarTable.get_set, VarTable.get_set, VarTable.size_set]
      simp only [hva, hvb, and_true]
    rw [hposition, size_swap]
    by_cases hpos : pos < h.heap.size
    · -- a member stands at one position, so it is the one that was exchanged or another one
      have hinj : ∀ {x y}, x < h.heap.size → y < h.heap.size → h.memberAt x = h.memberAt y → x = y :=
        hi.memberAt_inj
      have hv := hi v pos
      rw [memberAt_swap ha hb hpos]
      grind
    · have hv := hi v pos
      grind
  · show ((h.positions.set _ _).set _ _).size = _
    rw [VarTable.size_set, VarTable.size_set]

/-- **One member fewer.** -/
structure Removed (h : VarHeap κ) (v : Var) (h' : VarHeap κ) : Prop where
  indexed : h'.Indexed
  mem : ∀ w, w ∈ h'.heap.toList ↔ w ∈ h.heap.toList ∧ w ≠ v
  size : h'.positions.size = h.positions.size
  keys : h'.keys = h.keys

theorem Removed.rearranged (hr : Removed h v h') (hr' : Rearranged h' h'') : Removed h v h'' :=
  ⟨hr'.indexed, fun w => hr'.perm.mem_iff.trans (hr.mem w), hr'.size.trans hr.size,
    hr'.keys.trans hr.keys⟩

/-- The members that are left stand in the heap. -/
theorem Removed.perm (hi : h.Indexed) (hr : Removed h v h') (hv : v ∈ h.heap.toList) :
    h.heap.toList.Perm (v :: h'.heap.toList) := by
  have hnot : v ∉ h'.heap.toList := fun hin => ((hr.mem v).mp hin).2 rfl
  refine (List.perm_ext_iff_of_nodup hi.nodup (List.nodup_cons.mpr ⟨hnot, hr.indexed.nodup⟩)).mpr
    fun w => ?_
  rw [List.mem_cons, hr.mem]
  by_cases hw : w = v
  · exact iff_of_true (hw ▸ hv) (Or.inl hw)
  · simp [hw]

/-- The heap with its last member in the place of the one at a position. -/
def filled (h : VarHeap κ) (pos : Nat) : VarHeap κ :=
  { keys := h.keys
    heap := (h.heap.setIfInBounds pos (h.memberAt (h.heap.size - 1))).pop
    positions := (h.positions.set (h.memberAt pos) none).set
      (h.memberAt (h.heap.size - 1)) (some pos) }

theorem memberAt_filled {q : Nat} (hq : q < h.heap.size - 1) :
    (h.filled pos).memberAt q
      = if q = pos then h.memberAt (h.heap.size - 1) else h.memberAt q := by
  unfold filled
  show (Array.pop _).getD q default = _
  rw [Array.getD_eq_getD_getElem?, Array.getElem?_pop, Array.size_setIfInBounds, if_pos hq,
    ← Array.getD_eq_getD_getElem?, getD_setIfInBounds]
  by_cases hqp : q = pos
  · subst hqp
    rw [if_pos ⟨rfl, by omega⟩, if_pos rfl]
  · rw [if_neg fun hc => hqp hc.1.symm, if_neg hqp]
    rfl

theorem Indexed.filled (hi : h.Indexed) (hpos : pos < h.heap.size - 1) :
    Removed h (h.memberAt pos) (h.filled pos) := by
  have hv := hi.index_lt (mem_heap_iff.mpr ⟨pos, by omega, rfl⟩)
  have hlast := hi.index_lt (mem_heap_iff.mpr ⟨h.heap.size - 1, by omega, rfl⟩)
  have hinj : ∀ {x y}, x < h.heap.size → y < h.heap.size → h.memberAt x = h.memberAt y → x = y :=
    hi.memberAt_inj
  have hsize : (h.filled pos).heap.size = h.heap.size - 1 := by
    unfold VarHeap.filled
    rw [Array.size_pop, Array.size_setIfInBounds]
  have hposition : ∀ w : Var, (h.filled pos).positions[w]
      = if h.memberAt (h.heap.size - 1) = w then some pos
        else if h.memberAt pos = w then none else h.positions[w] := fun w => by
    show ((h.positions.set (h.memberAt pos) none).set (h.memberAt (h.heap.size - 1)) (some pos))[w] = _
    rw [VarTable.get_set, VarTable.get_set, VarTable.size_set]
    simp only [hv, hlast, and_true]
  have hindexed : (h.filled pos).Indexed := fun w q => by
    have hw := hi w q
    rw [hposition, hsize]
    by_cases hq : q < h.heap.size - 1
    · rw [memberAt_filled hq]
      grind
    · grind
  refine ⟨hindexed, fun w => ?_, ?_, rfl⟩
  · rw [← hindexed.contains_iff, ← hi.contains_iff]
    unfold contains
    have hlastPosition := hi.position_memberAt (show h.heap.size - 1 < h.heap.size by omega)
    rw [hposition]
    grind
  · show ((h.positions.set _ _).set _ _).size = _
    rw [VarTable.size_set, VarTable.size_set]

/-- The heap without its last member. -/
def shortened (h : VarHeap κ) : VarHeap κ :=
  { h with
    heap := h.heap.pop
    positions := h.positions.set (h.memberAt (h.heap.size - 1)) none }

theorem Indexed.shortened (hi : h.Indexed) (hne : h.heap.size ≠ 0) :
    Removed h (h.memberAt (h.heap.size - 1)) h.shortened := by
  have hlast := hi.index_lt (mem_heap_iff.mpr ⟨h.heap.size - 1, by omega, rfl⟩)
  have hinj : ∀ {x y}, x < h.heap.size → y < h.heap.size → h.memberAt x = h.memberAt y → x = y :=
    hi.memberAt_inj
  have hposition : ∀ w : Var, h.shortened.positions[w]
      = if h.memberAt (h.heap.size - 1) = w then none else h.positions[w] := fun w => by
    show (h.positions.set (h.memberAt (h.heap.size - 1)) none)[w] = _
    rw [VarTable.get_set]
    simp only [hlast, and_true]
  have hmember : ∀ q, q < h.heap.size - 1 → h.shortened.memberAt q = h.memberAt q := fun q hq => by
    show h.heap.pop.getD q default = h.heap.getD q default
    rw [Array.getD_eq_getD_getElem?, Array.getElem?_pop, if_pos hq, ← Array.getD_eq_getD_getElem?]
  have hsize : h.shortened.heap.size = h.heap.size - 1 := Array.size_pop
  have hindexed : h.shortened.Indexed := fun w q => by
    have hw := hi w q
    rw [hposition, hsize]
    by_cases hq : q < h.heap.size - 1
    · rw [hmember q hq]
      grind
    · grind
  refine ⟨hindexed, fun w => ?_, VarTable.size_set _ _ _, rfl⟩
  rw [← hindexed.contains_iff, ← hi.contains_iff]
  unfold contains
  rw [hposition]
  grind

section Sifting

variable [Ord κ] [Inhabited κ]

theorem Indexed.siftUp (hi : h.Indexed) (hpos : pos < h.heap.size) :
    Rearranged h (h.siftUp pos) := by
  fun_induction VarHeap.siftUp h pos with
  | case1 => exact .refl hi
  | case2 => exact .refl hi
  | case3 h pos hne parent hle ih =>
    have hparent : parent < h.heap.size := by omega
    have hswap := hi.swap hpos hparent
    exact hswap.trans (ih hswap.indexed (hswap.length ▸ hparent))

theorem Indexed.siftDown (hi : h.Indexed) (hpos : pos < h.heap.size) :
    Rearranged h (h.siftDown pos) := by
  fun_induction VarHeap.siftDown h pos with
  | case1 => exact .refl hi
  | case2 h pos hne ih =>
    have hlargest : h.largest pos < h.heap.size := ((largest_eq h pos).resolve_left hne).2
    have hswap := hi.swap hpos hlargest
    exact hswap.trans (ih hswap.indexed (hswap.length ▸ hlargest))

/-- **Re-keying** a member rearranges the members. -/
theorem Indexed.rekey (hi : h.Indexed) (hv : v ∈ h.heap.toList) (key : κ) :
    Rearranged { h with keys := h.keys.set v key } (h.insert v key) := by
  obtain ⟨pos, hpos, hmember⟩ := mem_heap_iff.mp hv
  have hposition : h.positions[v] = some pos := (hi v pos).mpr ⟨hpos, hmember⟩
  have hi' : ({ h with keys := h.keys.set v key } : VarHeap κ).Indexed := hi
  unfold VarHeap.insert
  simp only [hposition]
  split
  · exact hi'.siftUp hpos
  · exact hi'.siftDown hpos

/-- The heap with a variable added at the end. -/
def pushed (h : VarHeap κ) (v : Var) (key : κ) : VarHeap κ :=
  { keys := h.keys.set v key
    heap := h.heap.push v
    positions := h.positions.set v (some h.heap.size) }

/-- **Inserting** a variable that is no member adds it. -/
theorem Indexed.insert_new (hi : h.Indexed) (hv : v ∉ h.heap.toList)
    (hsize : v.index < h.positions.size) (key : κ) :
    Rearranged (h.pushed v key) (h.insert v key) := by
  have hnone : h.positions[v] = none := by
    have hcontains := mt hi.contains_iff.mp hv
    unfold contains at hcontains
    simpa using hcontains
  have hpushed : (h.pushed v key).Indexed := fun w pos => by
    have hw := hi w pos
    have hmember : (h.heap.push v).getD pos default
        = if pos = h.heap.size then v else h.memberAt pos := by
      unfold memberAt
      rw [Array.getD_eq_getD_getElem?, Array.getD_eq_getD_getElem?, Array.getElem?_push]
      split <;> rfl
    show (h.positions.set v _)[w] = _ ↔ pos < (h.heap.push v).size ∧ (h.heap.push v).getD pos default = w
    rw [VarTable.get_set, Array.size_push, hmember]
    by_cases hvw : v = w
    · subst hvw
      have hnot : ∀ pos, pos < h.heap.size → h.memberAt pos ≠ v := fun pos hpos heq =>
        hv (mem_heap_iff.mpr ⟨pos, hpos, heq⟩)
      grind
    · grind
  unfold VarHeap.insert
  simp only [hnone]
  exact hpushed.siftUp (show h.heap.size < (h.heap.push v).size by simp)

/-- The members after inserting are those before and the inserted one. -/
theorem Indexed.insert (hi : h.Indexed) (hsize : v.index < h.positions.size) (key : κ) :
    (h.insert v key).Indexed
      ∧ (∀ w, w ∈ (h.insert v key).heap.toList ↔ w = v ∨ w ∈ h.heap.toList)
      ∧ (h.insert v key).positions.size = h.positions.size := by
  by_cases hv : v ∈ h.heap.toList
  · have hr := hi.rekey hv key
    refine ⟨hr.indexed, fun w => hr.perm.mem_iff.trans ?_, hr.size⟩
    exact ⟨Or.inr, fun hw => hw.elim (fun heq => heq ▸ hv) id⟩
  · have hr := hi.insert_new hv hsize key
    refine ⟨hr.indexed, fun w => hr.perm.mem_iff.trans ?_, hr.size.trans (VarTable.size_set _ _ _)⟩
    simp [pushed, or_comm]

/-- **Inserting variables**, one after the other. -/
theorem Indexed.insertAll (hi : h.Indexed) {vs : List Var}
    (hsize : ∀ v ∈ vs, v.index < h.positions.size) (key : Var → κ) :
    (vs.foldl (fun h v => h.insert v (key v)) h).Indexed
      ∧ ∀ w, w ∈ (vs.foldl (fun h v => h.insert v (key v)) h).heap.toList
        ↔ w ∈ vs ∨ w ∈ h.heap.toList := by
  induction vs generalizing h with
  | nil => exact ⟨hi, fun w => by simp⟩
  | cons v vs ih =>
    obtain ⟨hi', hmem, hsame⟩ := hi.insert (hsize v List.mem_cons_self) (key v)
    obtain ⟨hindexed, hall⟩ := ih hi' fun w hw => hsame ▸ hsize w (List.mem_cons_of_mem _ hw)
    refine ⟨hindexed, fun w => (hall w).trans ?_⟩
    rw [hmem, List.mem_cons, ← or_assoc, or_comm (a := w ∈ vs)]

/-- **Re-keying those variables that are members**, one after the other. -/
theorem Indexed.rekeyAll (hi : h.Indexed) (vs : List Var) (key : Var → κ) :
    (vs.foldl (fun h v => if h.contains v then h.insert v (key v) else h) h).Indexed
      ∧ (vs.foldl (fun h v => if h.contains v then h.insert v (key v) else h) h).heap.toList.Perm
        h.heap.toList := by
  induction vs generalizing h with
  | nil => exact ⟨hi, .refl _⟩
  | cons v vs ih =>
    rw [List.foldl_cons]
    split
    · rename_i hv
      have hr := hi.rekey (hi.contains_iff.mp hv) (key v)
      obtain ⟨hindexed, hperm⟩ := ih hr.indexed
      exact ⟨hindexed, hperm.trans hr.perm⟩
    · exact ih hi

/-- **Removing** a member takes it away, and no other one. -/
theorem Indexed.remove (hi : h.Indexed) (hv : v ∈ h.heap.toList) : Removed h v (h.remove v) := by
  obtain ⟨pos, hpos, rfl⟩ := mem_heap_iff.mp hv
  have hposition := hi.position_memberAt hpos
  have hsize : ((h.heap.setIfInBounds pos (h.memberAt (h.heap.size - 1))).pop).size
      = h.heap.size - 1 := by
    rw [Array.size_pop, Array.size_setIfInBounds]
  unfold VarHeap.remove
  simp only [hposition, hsize]
  by_cases hlast : pos < h.heap.size - 1
  · rw [if_pos hlast]
    have hfilled := hi.filled hlast
    have hin : pos < (h.filled pos).heap.size := hsize ▸ hlast
    have hdown := hfilled.indexed.siftDown hin
    exact (hfilled.rearranged hdown).rearranged (hdown.indexed.siftUp (hdown.length ▸ hin))
  · obtain rfl : pos = h.heap.size - 1 := by omega
    have hsame : h.heap.setIfInBounds (h.heap.size - 1) (h.memberAt (h.heap.size - 1)) = h.heap := by
      refine Array.ext Array.size_setIfInBounds fun i hi₁ hi₂ => ?_
      rw [Array.getElem_setIfInBounds]
      split
      · rename_i heq
        subst heq
        simp [memberAt, Array.getD, hpos]
      · rfl
    rw [if_neg hlast, hsame]
    exact hi.shortened (by omega)

theorem pop?_eq_none (hp : h.pop? = none) : h.heap.toList = [] := by
  unfold pop? at hp
  split at hp
  · rename_i hempty
    exact List.eq_nil_of_length_eq_zero (by simpa using hempty)
  · cases hp

/-- **Popping** takes one member away. -/
theorem Indexed.pop (hi : h.Indexed) (hp : h.pop? = some (v, h')) :
    v ∈ h.heap.toList ∧ Removed h v h' := by
  unfold pop? at hp
  split at hp
  · cases hp
  · rename_i hne
    obtain ⟨rfl, rfl⟩ := Prod.mk.inj (Option.some.inj hp)
    have hmember := memberAt_mem (Nat.pos_of_ne_zero hne)
    exact ⟨hmember, hi.remove hmember⟩

omit [Ord κ] in
theorem indexed_empty_resize (count : Nat) : ((empty : VarHeap κ).resize count).Indexed :=
  fun v pos => by
    have hnone : ((empty : VarHeap κ).resize count).positions[v] = none :=
      VarTable.get_resize _ (Nat.zero_le _) v
    rw [hnone]
    exact iff_of_false (by simp) fun hpos => absurd hpos.1 (Nat.not_lt_zero _)

end Sifting

end Cleave.VarHeap
