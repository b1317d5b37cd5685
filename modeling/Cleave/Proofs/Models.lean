import Cleave.Model
import Cleave.Proofs.Tables
import Mathlib.Data.List.Nodup

/-!
# Models in a pool

A model that was just made has one owner, so writing to it touches no other
buffer. A pool that grew keeps the values of the models it had
(`ModelPool.Extends`), and a model filled from a list of literals has exactly
their values (`ModelPool.fill_spec`).
-/

namespace Cleave

namespace ModelPool

variable {p p' p'' : ModelPool}

/-- A pool with the same models, and maybe more. -/
structure Extends (p p' : ModelPool) : Prop where
  size : p.buffers.size ≤ p'.buffers.size
  values : ∀ m : Model, m.buffer < p.buffers.size → p'.valuesOf m = p.valuesOf m

theorem Extends.refl (p : ModelPool) : p.Extends p := ⟨Nat.le_refl _, fun _ _ => rfl⟩

theorem Extends.trans (h : p.Extends p') (h' : p'.Extends p'') : p.Extends p'' :=
  ⟨Nat.le_trans h.size h'.size, fun m hm =>
    (h'.values m (Nat.lt_of_lt_of_le hm h.size)).trans (h.values m hm)⟩

theorem Extends.value (h : p.Extends p') {m : Model} (hm : m.buffer < p.buffers.size) (v : Var) :
    p'.value m v = p.value m v :=
  congrArg (fun t : VarTable (Option Bool) => t[v]) (h.values m hm)

/-- An array of empty entries has nothing but these. -/
theorem getD_of_forall_none (a : Array (Option Bool)) (h : ∀ x ∈ a.toList, x = none) (i : Nat) :
    a.getD i none = none := by
  rw [Array.getD_eq_getD_getElem?]
  cases hi : a[i]? with
  | none => rfl
  | some x => exact h x (Array.mem_toList_iff.mpr (Array.mem_of_getElem? hi))

/-- A new model has a buffer of its own, without values. -/
theorem allocate_spec (p : ModelPool) (count : Nat) :
    ∃ values, (p.allocate count).1 = ⟨p.buffers.size⟩
      ∧ (p.allocate count).2.buffers = p.buffers.push ⟨values, 1⟩
      ∧ ∀ v : Var, values[v] = none := by
  unfold allocate
  simp only
  split
  · exact ⟨_, rfl, rfl, fun v => VarTable.get_sized count v⟩
  · rename_i values spare _
    refine ⟨_, rfl, rfl, fun v => getD_of_forall_none _ (fun x hx => ?_) v.index⟩
    have hx : x ∈ (resized (Array.replicate values.entries.size none) count).toList := hx
    unfold resized at hx
    split at hx
    · simp only [Array.toList_append, Array.toList_replicate, List.mem_append,
        List.mem_replicate] at hx
      rcases hx with hx | hx
      · exact hx.2
      · exact hx.2
    · have hx : x ∈
          (Array.replicate values.entries.size (none : Option Bool)).toList.take count := by
        simpa using hx
      have := List.mem_of_mem_take hx
      simp only [Array.toList_replicate, List.mem_replicate] at this
      exact this.2

/-- Writing gives one variable its value. -/
theorem get_write (values : VarTable (Option Bool)) (l : Lit) (v : Var) :
    (write values l)[v] = if l.var = v then some l.positive else values[v] := by
  unfold write
  simp only
  split
  · rename_i hsize
    have hnew : (values.resize (l.var.index + 1)).size = l.var.index + 1 :=
      VarTable.size_resize _ (Nat.le_succ_of_le hsize)
    by_cases hv : l.var = v
    · rw [if_pos hv, ← hv, VarTable.get_set_self (by rw [hnew]; exact Nat.lt_succ_self _)]
    · rw [if_neg hv, VarTable.get_set_ne _ hv, VarTable.get_resize _ (Nat.le_succ_of_le hsize)]
  · rename_i hsize
    by_cases hv : l.var = v
    · rw [if_pos hv, ← hv, VarTable.get_set_self (Nat.lt_of_not_le hsize)]
    · rw [if_neg hv, VarTable.get_set_ne _ hv]

/-- **Writing to a model with one owner** changes its buffer alone. -/
theorem assign_spec {m : Model} (hm : m.buffer < p.buffers.size)
    (howner : (p.bufferOf m).owners ≤ 1) (l : Lit) :
    (p.assign m l).1 = m ∧ (p.assign m l).2.buffers.size = p.buffers.size
      ∧ (∀ k : Model, k ≠ m → (p.assign m l).2.bufferOf k = p.bufferOf k)
      ∧ ((p.assign m l).2.bufferOf m).owners ≤ 1
      ∧ ((p.assign m l).2.bufferOf m).values = write (p.bufferOf m).values l := by
  unfold assign
  simp only
  rw [if_pos howner]
  have hget : ∀ k : Model, ({ p with buffers := p.buffers.modify m.buffer fun b =>
      { b with values := write b.values l } } : ModelPool).bufferOf k
      = if m.buffer = k.buffer ∧ m.buffer < p.buffers.size
        then { p.bufferOf k with values := write (p.bufferOf k).values l } else p.bufferOf k :=
    fun k => getD_modify p.buffers m.buffer k.buffer _
  refine ⟨rfl, by simp, fun k hk => ?_, ?_, ?_⟩
  · rw [hget, if_neg]
    rintro ⟨he, -⟩
    cases k; cases m
    exact hk (congrArg Model.mk he.symm)
  · rw [hget, if_pos ⟨rfl, hm⟩]
    exact howner
  · rw [hget, if_pos ⟨rfl, hm⟩]

/-- A model with a value is one of the pool. -/
theorem buffer_lt_of_value {m : Model} {v : Var} {value : Bool} (h : p.value m v = some value) :
    m.buffer < p.buffers.size := by
  by_contra hge
  have hbuffer : p.bufferOf m = default := by
    simp [bufferOf, Array.getElem?_eq_none (Nat.le_of_not_lt hge)]
  have hvalue : p.value m v = (default : VarTable (Option Bool))[v] :=
    congrArg (fun b : ModelBuffer => b.values[v]) hbuffer
  rw [VarTable.get_of_size_le _ (Nat.zero_le _)] at hvalue
  rw [h] at hvalue
  cases hvalue

/-- **Writing to a model**, whoever else holds it, gives one variable its
value. -/
theorem value_assign {m : Model} (hm : m.buffer < p.buffers.size) (l : Lit) (v : Var) :
    (p.assign m l).2.value (p.assign m l).1 v
      = if l.var = v then some l.positive else p.value m v := by
  have hwrite := get_write (p.bufferOf m).values l v
  by_cases howner : (p.bufferOf m).owners ≤ 1
  · obtain ⟨hsame, -, -, -, hvalues⟩ := assign_spec hm howner l
    rw [← hvalues] at hwrite
    rw [hsame]
    exact hwrite
  · have hnew : p.assign m l = (p.abandon m).newBuffer (write (p.bufferOf m).values l) :=
      if_neg howner
    have hbuffer : (p.assign m l).2.bufferOf (p.assign m l).1
        = ⟨write (p.bufferOf m).values l, 1⟩ := by
      rw [hnew]
      simp [newBuffer, bufferOf]
    show ((p.assign m l).2.bufferOf (p.assign m l).1).values[v] = _
    rw [hbuffer]
    exact hwrite

/-- Writing several literals, by induction. -/
theorem assignAll_spec (ls : List Lit) {m : Model} (hm : m.buffer < p.buffers.size)
    (howner : (p.bufferOf m).owners ≤ 1) :
    (p.assignAll m ls).1 = m ∧ (p.assignAll m ls).2.buffers.size = p.buffers.size
      ∧ (∀ k : Model, k ≠ m → (p.assignAll m ls).2.bufferOf k = p.bufferOf k)
      ∧ ((p.assignAll m ls).2.bufferOf m).values = ls.foldl write (p.bufferOf m).values := by
  unfold assignAll
  induction ls generalizing p with
  | nil => exact ⟨rfl, rfl, fun _ _ => rfl, rfl⟩
  | cons l rest ih =>
    obtain ⟨h1, h2, h3, h4, h5⟩ := assign_spec hm howner l
    rw [List.foldl_cons]
    have hpair : p.assign m l = (m, (p.assign m l).2) := Prod.ext h1 rfl
    simp only
    rw [hpair]
    obtain ⟨i1, i2, i3, i4⟩ := ih (p := (p.assign m l).2) (h2 ▸ hm) h4
    refine ⟨i1, i2.trans h2, fun k hk => (i3 k hk).trans (h3 k hk), ?_⟩
    rw [i4, h5]
    rfl

/-- The values of literals over different variables. -/
theorem foldl_write (ls : List Lit) (hnodup : (ls.map Lit.var).Nodup)
    (values : VarTable (Option Bool)) (v : Var) :
    (∀ l ∈ ls, l.var = v → (ls.foldl write values)[v] = some l.positive)
      ∧ ((∀ l ∈ ls, l.var ≠ v) → (ls.foldl write values)[v] = values[v]) := by
  induction ls generalizing values with
  | nil => simp
  | cons l rest ih =>
    obtain ⟨hl, hrest⟩ := List.nodup_cons.mp hnodup
    obtain ⟨h1, h2⟩ := ih hrest (write values l)
    refine ⟨fun m hm hv => ?_, fun hno => ?_⟩
    · rcases List.mem_cons.mp hm with rfl | hm
      · rw [List.foldl_cons, h2 fun x hx he => hl (hv ▸ he ▸ List.mem_map_of_mem hx), get_write,
          if_pos hv]
      · exact h1 m hm hv
    · rw [List.foldl_cons, h2 fun x hx => hno x (List.mem_cons_of_mem _ hx), get_write,
        if_neg (hno l List.mem_cons_self)]

/-- A model filled from literals; the models of before keep their values. -/
theorem fill_extends {count : Nat} {ls : List Lit} {m m' : Model}
    (halloc : p.allocate count = (m, p')) (hfill : p'.assignAll m ls = (m', p'')) :
    p.Extends p'' ∧ m'.buffer < p''.buffers.size
      ∧ ∃ values : VarTable (Option Bool), (∀ v : Var, values[v] = none)
        ∧ ∀ v, p''.value m' v = (ls.foldl write values)[v] := by
  obtain ⟨values, hm, hbuf, hnone⟩ := allocate_spec p count
  rw [halloc] at hm hbuf
  obtain rfl : m = ⟨p.buffers.size⟩ := hm
  have hbuf : p'.buffers = p.buffers.push ⟨values, 1⟩ := hbuf
  have hsize : p'.buffers.size = p.buffers.size + 1 := by simp [hbuf]
  have hnew : p'.bufferOf ⟨p.buffers.size⟩ = ⟨values, 1⟩ := by
    simp [bufferOf, hbuf]
  have hold : ∀ k : Model, k.buffer < p.buffers.size → p'.bufferOf k = p.bufferOf k := by
    intro k hk
    simp [bufferOf, hbuf, Array.getElem?_push_lt hk, hk]
  have hspec := assignAll_spec (p := p') (m := ⟨p.buffers.size⟩) ls
    (by rw [hsize]; exact Nat.lt_succ_self _) (Nat.le_of_eq (congrArg ModelBuffer.owners hnew))
  rw [hfill] at hspec
  obtain ⟨rfl, hsize', hkeep, hvals⟩ := hspec
  have hsize' : p''.buffers.size = p'.buffers.size := hsize'
  refine ⟨⟨by omega, fun k hk => ?_⟩, ?_, values, hnone, fun v => ?_⟩
  · have hne : k ≠ ⟨p.buffers.size⟩ := by
      rintro rfl
      exact absurd hk (Nat.lt_irrefl _)
    exact congrArg ModelBuffer.values ((hkeep k hne).trans (hold k hk))
  · show p.buffers.size < p''.buffers.size
    omega
  · show (p''.bufferOf ⟨p.buffers.size⟩).values[v] = _
    rw [show (p''.bufferOf ⟨p.buffers.size⟩).values = _ from hvals, hnew]

/-- **A model filled from literals** over different variables has their values
and no others, and the models of before keep theirs. -/
theorem fill_spec {count : Nat} {ls : List Lit} (hnodup : (ls.map Lit.var).Nodup) {m m' : Model}
    (halloc : p.allocate count = (m, p')) (hfill : p'.assignAll m ls = (m', p'')) :
    p.Extends p'' ∧ m'.buffer < p''.buffers.size
      ∧ ∀ v, (∀ l ∈ ls, l.var = v → p''.value m' v = some l.positive)
        ∧ ((∀ l ∈ ls, l.var ≠ v) → p''.value m' v = none) := by
  obtain ⟨hext, hbuffer, values, hnone, hval⟩ := fill_extends halloc hfill
  refine ⟨hext, hbuffer, fun v => ?_⟩
  rw [hval]
  obtain ⟨w1, w2⟩ := foldl_write ls hnodup values v
  exact ⟨w1, fun hno => (w2 hno).trans (hnone v)⟩

end ModelPool

end Cleave
