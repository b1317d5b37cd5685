import Cleave.Proofs.Models
import Mathlib.Data.List.Count
import Mathlib.Data.List.Dedup

/-!
# The owners of a model's buffer

Whoever holds a model has a handle to its buffer. The pool counts them
(`ModelPool.Counted`), and that is all that keeps handles apart: a buffer with one
handle is written in place, one with several is left to the others first, and one
without handles is recycled. Every change of the pool is told here for one handle and
the rest of them. The rest keeps its values.

A ledger does the same to several handles, one after the other, so its laws follow by
induction (`ModelPool.Counted.assignEach`, `ModelPool.Counted.foldl_free`).
-/

namespace Cleave

namespace ModelPool

variable {p p' : ModelPool} {hs : List Model} {m k : Model}

/-! ## Buffers and their owners -/

/-- **The owners are counted**: every buffer has as many as there are handles to it. -/
def Counted (p : ModelPool) (hs : List Model) : Prop :=
  ∀ m : Model, (p.bufferOf m).owners = hs.count m

theorem Counted.perm {hs' : List Model} (h : p.Counted hs) (hperm : hs.Perm hs') :
    p.Counted hs' :=
  fun m => (h m).trans (hperm.count_eq m)

/-- Beyond the buffers there is no owner. -/
theorem bufferOf_of_le (hm : p.buffers.size ≤ m.buffer) : p.bufferOf m = default := by
  simp [bufferOf, Array.getElem?_eq_none hm]

/-- A handle names a buffer. -/
theorem Counted.lt (h : p.Counted hs) (hm : m ∈ hs) : m.buffer < p.buffers.size := by
  by_contra hge
  have hnone : (p.bufferOf m).owners = 0 :=
    congrArg ModelBuffer.owners (bufferOf_of_le (Nat.le_of_not_lt hge))
  exact Nat.ne_of_gt (List.count_pos_iff.mpr hm) ((h m).symm.trans hnone)

theorem bufferOf_newBuffer (values : VarTable (Option Bool)) (k : Model) :
    (p.newBuffer values).2.bufferOf k
      = if k = ⟨p.buffers.size⟩ then ⟨values, 1⟩ else p.bufferOf k := by
  obtain ⟨k⟩ := k
  simp only [newBuffer, bufferOf, Array.getD_eq_getD_getElem?, Array.getElem?_push,
    Model.mk.injEq]
  split <;> rfl

/-- A buffer of a pool is set to something else. -/
theorem bufferOf_set (hm : m.buffer < p.buffers.size) (b : ModelBuffer) (k : Model) :
    ({ p with buffers := p.buffers.setIfInBounds m.buffer b } : ModelPool).bufferOf k
      = if k = m then b else p.bufferOf k := by
  refine (getD_setIfInBounds p.buffers m.buffer k.buffer b).trans ?_
  obtain ⟨m⟩ := m
  obtain ⟨k⟩ := k
  simp only [hm, and_true, Model.mk.injEq, eq_comm]
  rfl

/-- A buffer of a pool is changed. -/
theorem bufferOf_modify (hm : m.buffer < p.buffers.size) (f : ModelBuffer → ModelBuffer)
    (k : Model) :
    ({ p with buffers := p.buffers.modify m.buffer f } : ModelPool).bufferOf k
      = if k = m then f (p.bufferOf k) else p.bufferOf k := by
  refine (getD_modify p.buffers m.buffer k.buffer f).trans ?_
  obtain ⟨m⟩ := m
  obtain ⟨k⟩ := k
  simp only [hm, and_true, Model.mk.injEq, eq_comm]
  rfl

/-! ## What the pool does to handles -/

/-- **A recycled buffer is like a new one**, whatever its size was and whatever it held. -/
theorem resize_fill (values : VarTable (Option Bool)) (count : Nat) :
    (values.fill none).resize count = VarTable.sized count := by
  unfold VarTable.resize VarTable.fill VarTable.sized resized
  refine congrArg VarTable.mk ?_
  simp only [Array.size_replicate]
  split
  · rename_i hle
    refine (Array.replicate_append_replicate ..).trans ?_
    rw [Nat.add_sub_cancel' hle]
    rfl
  · rename_i hlt
    have hmin : min count values.entries.size = count :=
      Nat.min_eq_left (Nat.le_of_not_le hlt)
    simp only [Array.take_eq_extract, Array.extract_replicate, Nat.sub_zero, hmin]
    rfl

/-- What changes of a pool that recycle nothing have in common. -/
structure Grows (p p' : ModelPool) : Prop where
  size : p.buffers.size ≤ p'.buffers.size
  spare : p'.spare = p.spare
  allocated : p'.allocated = p.allocated
  recycled : p'.recycled = p.recycled

theorem Grows.refl (p : ModelPool) : p.Grows p := ⟨Nat.le_refl _, rfl, rfl, rfl⟩

theorem Grows.trans {p'' : ModelPool} (h : p.Grows p') (h' : p'.Grows p'') : p.Grows p'' :=
  ⟨Nat.le_trans h.size h'.size, h'.spare.trans h.spare, h'.allocated.trans h.allocated,
    h'.recycled.trans h.recycled⟩

/-- A new buffer has the first handle to it. -/
theorem Counted.newBuffer (h : p.Counted hs) (values : VarTable (Option Bool)) :
    (p.newBuffer values).2.Counted ((p.newBuffer values).1 :: hs)
      ∧ (p.newBuffer values).2.valuesOf (p.newBuffer values).1 = values
      ∧ ∀ k ∈ hs, (p.newBuffer values).2.valuesOf k = p.valuesOf k := by
  have hfresh : (⟨p.buffers.size⟩ : Model) ∉ hs := fun hin => Nat.lt_irrefl _ (h.lt hin)
  refine ⟨fun k => ?_, ?_, fun k hk => ?_⟩
  · rw [bufferOf_newBuffer]
    show _ = (⟨p.buffers.size⟩ :: hs : List Model).count k
    split
    · rename_i heq
      rw [heq, List.count_cons_self, List.count_eq_zero_of_not_mem hfresh]
    · rename_i hne
      rw [List.count_cons_of_ne (Ne.symm hne)]
      exact h k
  · exact congrArg ModelBuffer.values ((bufferOf_newBuffer values _).trans (if_pos rfl))
  · have hne : k ≠ ⟨p.buffers.size⟩ := fun heq => hfresh (heq ▸ hk)
    exact congrArg ModelBuffer.values ((bufferOf_newBuffer values k).trans (if_neg hne))

/-- **A new model** is a handle of its own, without values, whether its buffer is
recycled or not. -/
theorem Counted.allocate (h : p.Counted hs) (count : Nat) :
    (p.allocate count).2.Counted ((p.allocate count).1 :: hs)
      ∧ (p.allocate count).2.valuesOf (p.allocate count).1 = VarTable.sized count
      ∧ ∀ k ∈ hs, (p.allocate count).2.valuesOf k = p.valuesOf k := by
  unfold ModelPool.allocate
  cases hspare : p.spare with
  | nil => exact Counted.newBuffer (p := { p with allocated := p.allocated + 1 }) h _
  | cons values spare =>
    have hnew := Counted.newBuffer (p := { p with
      allocated := p.allocated + 1, spare := spare, recycled := p.recycled + 1 }) h
      ((values.fill none).resize count)
    rw [resize_fill] at hnew
    exact resize_fill values count ▸ hnew

/-- What an allocation counts, and which buffer it takes. -/
theorem allocate_counts (p : ModelPool) (count : Nat) :
    (p.allocate count).1 = ⟨p.buffers.size⟩
      ∧ (p.allocate count).2.buffers.size = p.buffers.size + 1
      ∧ (p.allocate count).2.allocated = p.allocated + 1
      ∧ (p.allocate count).2.spare = p.spare.tail
      ∧ (p.allocate count).2.recycled = p.recycled + (if p.spare = [] then 0 else 1) := by
  unfold ModelPool.allocate
  cases p.spare with
  | nil => exact ⟨rfl, Array.size_push _, rfl, rfl, rfl⟩
  | cons values spare => exact ⟨rfl, Array.size_push _, rfl, rfl, rfl⟩

/-- **A copy** is another handle to the same values. -/
theorem Counted.copy (h : p.Counted hs) (hm : m ∈ hs) : (p.copy m).Counted (m :: hs)
    ∧ (∀ k, (p.copy m).valuesOf k = p.valuesOf k) ∧ p.Grows (p.copy m) := by
  have hget : ∀ k, (p.copy m).bufferOf k
      = if k = m then { p.bufferOf k with owners := (p.bufferOf k).owners + 1 }
        else p.bufferOf k := bufferOf_modify (h.lt hm) _
  refine ⟨fun k => ?_, fun k => ?_, ⟨by simp [ModelPool.copy], rfl, rfl, rfl⟩⟩
  · rw [hget]
    split
    · rename_i heq
      rw [heq, List.count_cons_self]
      exact congrArg (· + 1) (h m)
    · rename_i hne
      rw [List.count_cons_of_ne (Ne.symm hne)]
      exact h k
  · unfold valuesOf
    rw [hget]
    split <;> rfl

/-- **A handle is taken away.** The others keep their values, and what the buffer held
is returned with the last one. -/
theorem Counted.disown (h : p.Counted (m :: hs)) : (p.disown m).2.Counted hs
    ∧ (∀ k ∈ hs, (p.disown m).2.valuesOf k = p.valuesOf k)
    ∧ p.Grows (p.disown m).2 ∧ (p.disown m).2.buffers.size = p.buffers.size
    ∧ (p.disown m).1 = if m ∈ hs then none else some (p.valuesOf m) := by
  have hlt := h.lt List.mem_cons_self
  have howners : (p.bufferOf m).owners = hs.count m + 1 := (h m).trans List.count_cons_self
  have hother : ∀ k, k ≠ m → (p.bufferOf k).owners = hs.count k := fun k hne =>
    (h k).trans (List.count_cons_of_ne (Ne.symm hne))
  unfold ModelPool.disown
  simp only
  by_cases hm : m ∈ hs
  · have hpos : 0 < hs.count m := List.count_pos_iff.mpr hm
    rw [if_neg (by omega), if_pos hm]
    refine ⟨fun k => ?_, fun k _ => ?_, ⟨by simp, rfl, rfl, rfl⟩, by simp, rfl⟩
    · rw [bufferOf_set hlt]
      split
      · rename_i heq
        subst heq
        show (p.bufferOf k).owners - 1 = _
        omega
      · rename_i hne
        exact hother k hne
    · unfold valuesOf
      rw [bufferOf_set hlt]
      split
      · rename_i heq
        rw [heq]
      · rfl
  · have hzero : hs.count m = 0 := List.count_eq_zero_of_not_mem hm
    rw [if_pos (by omega), if_neg hm]
    refine ⟨fun k => ?_, fun k hk => ?_, ⟨by simp, rfl, rfl, rfl⟩, by simp, rfl⟩
    · rw [bufferOf_set hlt]
      split
      · rename_i heq
        rw [heq]
        exact hzero.symm
      · rename_i hne
        exact hother k hne
    · unfold valuesOf
      rw [bufferOf_set hlt, if_neg fun heq : k = m => hm (heq ▸ hk)]

/-- **A model is given back.** Its buffer is recycled if no handle is left. -/
theorem Counted.free (h : p.Counted (m :: hs)) : (p.free m).Counted hs
    ∧ (∀ k ∈ hs, (p.free m).valuesOf k = p.valuesOf k)
    ∧ (p.free m).buffers.size = p.buffers.size
    ∧ (p.free m).spare = (if m ∈ hs then p.spare else p.valuesOf m :: p.spare)
    ∧ (p.free m).allocated = p.allocated ∧ (p.free m).recycled = p.recycled := by
  obtain ⟨hcounted, hvalues, hgrows, hsize, hreturned⟩ := h.disown
  unfold ModelPool.free
  generalize p.disown m = r at *
  obtain ⟨returned, q⟩ := r
  subst hreturned
  by_cases hm : m ∈ hs
  · simp only [if_pos hm]
    exact ⟨hcounted, hvalues, hsize, hgrows.spare, hgrows.allocated, hgrows.recycled⟩
  · simp only [if_neg hm]
    exact ⟨hcounted, hvalues, hsize, congrArg _ hgrows.spare, hgrows.allocated,
      hgrows.recycled⟩

/-- **A literal is made true** for one handle. Whether its buffer has other owners or
not, the other handles keep their values. -/
theorem Counted.assign (h : p.Counted (m :: hs)) (l : Lit) :
    (p.assign m l).2.Counted ((p.assign m l).1 :: hs)
    ∧ (p.assign m l).2.valuesOf (p.assign m l).1 = write (p.valuesOf m) l
    ∧ (∀ k ∈ hs, (p.assign m l).2.valuesOf k = p.valuesOf k)
    ∧ p.Grows (p.assign m l).2
    ∧ ((p.assign m l).1 = m ∨ (p.buffers.size ≤ (p.assign m l).1.buffer ∧ m ∈ hs)) := by
  have hlt := h.lt List.mem_cons_self
  have howners : (p.bufferOf m).owners = hs.count m + 1 := (h m).trans List.count_cons_self
  unfold ModelPool.assign
  simp only
  by_cases hm : m ∈ hs
  · have hpos : 0 < hs.count m := List.count_pos_iff.mpr hm
    obtain ⟨hcounted, hvalues, hgrows, hsize, -⟩ := h.disown
    obtain ⟨hcounted', hnew, hvalues'⟩ := Counted.newBuffer (p := p.abandon m) hcounted
      (write (p.bufferOf m).values l)
    rw [if_neg (by omega)]
    refine ⟨hcounted', hnew, fun k hk => (hvalues' k hk).trans (hvalues k hk),
      ⟨?_, hgrows.spare, hgrows.allocated, hgrows.recycled⟩, Or.inr ⟨Nat.le_of_eq hsize.symm, hm⟩⟩
    show p.buffers.size ≤ ((p.disown m).2.buffers.push _).size
    rw [Array.size_push]
    omega
  · have hzero : hs.count m = 0 := List.count_eq_zero_of_not_mem hm
    have hget := bufferOf_modify hlt fun b => { b with values := write b.values l }
    rw [if_pos (by omega)]
    refine ⟨fun k => ?_, ?_, fun k hk => ?_, ⟨by simp, rfl, rfl, rfl⟩, Or.inl rfl⟩
    · rw [hget, ← h k]
      split <;> rfl
    · exact congrArg ModelBuffer.values ((hget m).trans (if_pos rfl))
    · exact congrArg ModelBuffer.values ((hget k).trans (if_neg fun heq : k = m => hm (heq ▸ hk)))

/-- Making a literal true in several models, one after the other. -/
def assignEach (p : ModelPool) (l : Lit) : List Model → List Model × ModelPool
  | [] => ([], p)
  | m :: ms =>
    (((p.assign m l).1 :: ((p.assign m l).2.assignEach l ms).1),
      ((p.assign m l).2.assignEach l ms).2)

theorem assignEach_cons (p : ModelPool) (l : Lit) (m : Model) (ms : List Model) :
    p.assignEach l (m :: ms) = ((p.assign m l).1 :: ((p.assign m l).2.assignEach l ms).1,
      ((p.assign m l).2.assignEach l ms).2) := rfl

/-- **A literal is made true in several models**, by induction on them. No handle that
stays behind sees it, and no buffer loses its last handle. -/
theorem Counted.assignEach {ms rest : List Model} (h : p.Counted (ms ++ rest)) (l : Lit) :
    (p.assignEach l ms).2.Counted ((p.assignEach l ms).1 ++ rest)
    ∧ (p.assignEach l ms).1.map (p.assignEach l ms).2.valuesOf
      = ms.map (fun m => write (p.valuesOf m) l)
    ∧ (∀ k ∈ rest, (p.assignEach l ms).2.valuesOf k = p.valuesOf k)
    ∧ p.Grows (p.assignEach l ms).2
    ∧ (∀ k ∈ (p.assignEach l ms).1, k ∈ ms ∨ p.buffers.size ≤ k.buffer)
    ∧ ∀ k ∈ ms ++ rest, k ∈ (p.assignEach l ms).1 ++ rest := by
  induction ms generalizing p rest with
  | nil => exact ⟨h, rfl, fun _ _ => rfl, .refl p, fun _ hk => absurd hk List.not_mem_nil,
      fun _ hk => hk⟩
  | cons m ms ih =>
    have h : p.Counted (m :: (ms ++ rest)) := h
    obtain ⟨hcounted, hnew, hkeep, hgrows, hname⟩ := h.assign l
    rw [assignEach_cons]
    generalize p.assign m l = r at *
    obtain ⟨m', p'⟩ := r
    simp only at *
    have hcounted : p'.Counted (ms ++ m' :: rest) := hcounted.perm List.perm_middle.symm
    obtain ⟨hcounted', hvalues, hkeep', hgrows', hnames, hlive⟩ := ih hcounted
    generalize p'.assignEach l ms = r at *
    obtain ⟨ms', p''⟩ := r
    simp only at *
    refine ⟨hcounted'.perm List.perm_middle, ?_, fun k hk => ?_, hgrows.trans hgrows',
      fun k hk => ?_, fun k hk => ?_⟩
    · rw [List.map_cons, List.map_cons, hvalues, hkeep' m' List.mem_cons_self, hnew]
      refine congrArg _ (List.map_congr_left fun k hk => ?_)
      rw [hkeep k (List.mem_append_left _ hk)]
    · exact (hkeep' k (List.mem_cons_of_mem _ hk)).trans (hkeep k (List.mem_append_right _ hk))
    · rcases List.mem_cons.mp hk with rfl | hk
      · exact hname.imp (fun heq => List.mem_cons.mpr (Or.inl heq)) And.left
      · exact (hnames k hk).imp (List.mem_cons_of_mem _) (Nat.le_trans hgrows.size)
    · have hlater : ∀ k ∈ ms ++ rest, k ∈ m' :: (ms' ++ rest) := fun k hk =>
        List.perm_middle.mem_iff.mp (hlive k (List.perm_middle.mem_iff.mpr
          (List.mem_cons_of_mem _ hk)))
      rcases List.mem_cons.mp hk with rfl | hk
      · rcases hname with rfl | ⟨-, hm⟩
        · exact List.mem_cons_self
        · exact hlater k hm
      · exact hlater k hk

/-- **Several models are copied.** -/
theorem Counted.foldl_copy {ms : List Model} (h : p.Counted hs) (hms : ∀ m ∈ ms, m ∈ hs) :
    (ms.foldl ModelPool.copy p).Counted (ms ++ hs)
    ∧ (∀ k, (ms.foldl ModelPool.copy p).valuesOf k = p.valuesOf k)
    ∧ p.Grows (ms.foldl ModelPool.copy p) := by
  induction ms generalizing p hs with
  | nil => exact ⟨h, fun _ => rfl, .refl p⟩
  | cons m ms ih =>
    obtain ⟨hm, hms⟩ := List.forall_mem_cons.mp hms
    obtain ⟨hcounted, hvalues, hgrows⟩ := h.copy hm
    obtain ⟨hcounted', hvalues', hgrows'⟩ :=
      ih hcounted fun k hk => List.mem_cons_of_mem _ (hms k hk)
    exact ⟨hcounted'.perm List.perm_middle, fun k => (hvalues' k).trans (hvalues k),
      hgrows.trans hgrows'⟩

/-- The buffers whose last handle is gone, in the order of these. -/
def lost (hs hs' : List Model) : List Model := (hs.filter (· ∉ hs')).dedup

theorem mem_lost {hs' : List Model} : m ∈ lost hs hs' ↔ m ∈ hs ∧ m ∉ hs' := by
  unfold lost
  rw [List.mem_dedup, List.mem_filter, decide_eq_true_iff]

theorem lost_eq_nil {hs' : List Model} (h : ∀ m ∈ hs, m ∈ hs') : lost hs hs' = [] :=
  List.eq_nil_iff_forall_not_mem.mpr fun m hm => (mem_lost.mp hm).2 (h m (mem_lost.mp hm).1)

/-- Handles that stay do not matter. -/
theorem lost_append {before ms after hs' : List Model} (hbefore : ∀ m ∈ before, m ∈ hs')
    (hafter : ∀ m ∈ after, m ∈ hs') : lost (before ++ ms ++ after) hs' = lost ms hs' := by
  have hnone : ∀ {l : List Model}, (∀ m ∈ l, m ∈ hs') → l.filter (· ∉ hs') = [] := fun h =>
    List.filter_eq_nil_iff.mpr fun m hm => by simpa using h m hm
  unfold lost
  rw [List.filter_append, List.filter_append, hnone hbefore, hnone hafter, List.append_nil,
    List.nil_append]

/-- **Several models are given back.** Every buffer without a handle left is recycled
once, with what it holds. -/
theorem Counted.foldl_free {ms rest : List Model} (h : p.Counted (ms ++ rest)) :
    (ms.foldl ModelPool.free p).Counted rest
    ∧ (∀ k ∈ rest, (ms.foldl ModelPool.free p).valuesOf k = p.valuesOf k)
    ∧ (ms.foldl ModelPool.free p).buffers.size = p.buffers.size
    ∧ (ms.foldl ModelPool.free p).spare = ((lost ms rest).map p.valuesOf).reverse ++ p.spare
    ∧ (ms.foldl ModelPool.free p).allocated = p.allocated
    ∧ (ms.foldl ModelPool.free p).recycled = p.recycled := by
  induction ms generalizing p with
  | nil => exact ⟨h, fun _ _ => rfl, rfl, rfl, rfl, rfl⟩
  | cons m ms ih =>
    have h : p.Counted (m :: (ms ++ rest)) := h
    obtain ⟨hcounted, hvalues, hsize, hspare, hallocated, hrecycled⟩ := h.free
    obtain ⟨hcounted', hvalues', hsize', hspare', hallocated', hrecycled'⟩ := ih hcounted
    refine ⟨hcounted', fun k hk => (hvalues' k hk).trans (hvalues k (List.mem_append_right _ hk)),
      hsize'.trans hsize, ?_, hallocated'.trans hallocated, hrecycled'.trans hrecycled⟩
    have hlater : (lost ms rest).map (p.free m).valuesOf = (lost ms rest).map p.valuesOf :=
      List.map_congr_left fun k hk => hvalues k (List.mem_append_left _ (mem_lost.mp hk).1)
    rw [List.foldl_cons, hspare', hlater, hspare]
    unfold lost
    by_cases hrest : m ∈ rest
    · rw [if_pos (List.mem_append_right _ hrest), List.filter_cons_of_neg (by simpa using hrest)]
    · rw [List.filter_cons_of_pos (by simpa using hrest)]
      by_cases hms : m ∈ ms
      · rw [if_pos (List.mem_append_left _ hms),
          List.dedup_cons_of_mem (List.mem_filter.mpr ⟨hms, by simpa using hrest⟩)]
      · rw [if_neg fun hin => (List.mem_append.mp hin).elim hms hrest,
          List.dedup_cons_of_notMem fun hin => hms (List.mem_filter.mp hin).1, List.map_cons,
          List.reverse_cons, List.append_assoc]
        rfl

end ModelPool

namespace ModelLedger

theorem foldl_assign (lit : Lit) (ms done : List Model) (p : ModelPool) :
    ms.foldl (fun (done, p) m => let (m, p) := p.assign m lit; (m :: done, p)) (done, p)
      = ((p.assignEach lit ms).1.reverse ++ done, (p.assignEach lit ms).2) := by
  induction ms generalizing done p with
  | nil => rfl
  | cons m ms ih =>
    rw [List.foldl_cons, ih, ModelPool.assignEach_cons, List.reverse_cons, List.append_assoc]
    rfl

/-- A ledger extends its models one after the other. -/
theorem extend_eq (l : ModelLedger) (p : ModelPool) (lit : Lit) :
    l.extend p lit = (⟨(p.assignEach lit l.models).1⟩, (p.assignEach lit l.models).2) := by
  unfold extend
  rw [foldl_assign, List.append_nil]
  simp only [List.reverse_reverse]

end ModelLedger

end Cleave
