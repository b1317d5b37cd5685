import Cleave.Marks

/-!
# Laws of tables and marks

Small laws of results and literals come first. A table is a total map: what
was written last is what is read, as long as the write lies inside the table,
and growing a table changes no entry. Marks are read through the same laws.
Nothing else about arrays is used later on.
-/

namespace Cleave

/-! ## Results that may fail -/

theorem Except.bind_eq_ok {ε α β : Type} {x : Except ε α} {f : α → Except ε β} {b : β} :
    x >>= f = .ok b ↔ ∃ a, x = .ok a ∧ f a = .ok b := by
  cases x with
  | error e => exact ⟨fun h => absurd h (by simp [bind, Except.bind]), fun ⟨a, h, _⟩ => nomatch h⟩
  | ok a => exact ⟨fun h => ⟨a, rfl, h⟩, fun ⟨_, h, h'⟩ => (Except.ok.inj h) ▸ h'⟩

theorem Except.map_eq_ok {ε α β : Type} {x : Except ε α} {f : α → β} {b : β} :
    x.map f = .ok b ↔ ∃ a, x = .ok a ∧ f a = b := by
  cases x <;> simp [Except.map]

theorem Except.bind_eq_error {ε α β : Type} {x : Except ε α} {f : α → Except ε β} {e : ε} :
    x >>= f = .error e ↔ x = .error e ∨ ∃ a, x = .ok a ∧ f a = .error e := by
  cases x <;> simp [bind, Except.bind]

theorem Except.map_eq_error {ε α β : Type} {x : Except ε α} {f : α → β} {e : ε} :
    x.map f = .error e ↔ x = .error e := by
  cases x <;> simp [Except.map]

theorem Except.toOption_eq_some {ε α : Type} {x : Except ε α} {a : α} :
    x.toOption = some a ↔ x = .ok a := by
  cases x <;> simp [Except.toOption]

/-! ## Running maxima -/

section Maximum

variable {α : Type} (f : α → Nat)

/-- **A running maximum** is bounded by what bounds its start and all values. -/
theorem foldl_max_le_iff {xs : List α} {start bound : Nat} :
    xs.foldl (fun n x => max n (f x)) start ≤ bound ↔ start ≤ bound ∧ ∀ x ∈ xs, f x ≤ bound := by
  induction xs generalizing start with
  | nil => simp
  | cons x xs ih =>
    rw [List.foldl_cons, ih, List.forall_mem_cons, ← and_assoc, Nat.max_le]

theorem start_le_foldl_max (xs : List α) (start : Nat) :
    start ≤ xs.foldl (fun n x => max n (f x)) start :=
  ((foldl_max_le_iff f).mp (Nat.le_refl _)).1

theorem le_foldl_max_of_mem {xs : List α} {x : α} (hx : x ∈ xs) (start : Nat) :
    f x ≤ xs.foldl (fun n x => max n (f x)) start :=
  ((foldl_max_le_iff f).mp (Nat.le_refl _)).2 x hx

/-- It is its start or one of the values. -/
theorem foldl_max_eq_or (xs : List α) (start : Nat) :
    xs.foldl (fun n x => max n (f x)) start = start
      ∨ ∃ x ∈ xs, f x = xs.foldl (fun n x => max n (f x)) start := by
  induction xs generalizing start with
  | nil => exact Or.inl rfl
  | cons x xs ih =>
    rcases ih (max start (f x)) with heq | ⟨y, hy, heq⟩
    · rw [List.foldl_cons, heq]
      rcases Nat.le_total start (f x) with hle | hle
      · exact Or.inr ⟨x, List.mem_cons_self, (Nat.max_eq_right hle).symm⟩
      · exact Or.inl (Nat.max_eq_left hle)
    · exact Or.inr ⟨y, List.mem_cons_of_mem _ hy, heq⟩

end Maximum

/-! ## Literals -/

namespace Lit

theorem eq_of_var_eq {l m : Lit} (hv : l.var = m.var) (hp : l.positive = m.positive) :
    l = m := by
  cases l; cases m; simp_all

/-- Two literals of one variable are equal or opposite. -/
theorem eq_or_eq_neg {l m : Lit} (h : l.var = m.var) : l = m ∨ l = m.neg := by
  obtain ⟨v, b⟩ := l
  obtain ⟨w, c⟩ := m
  cases b <;> cases c <;> simp_all [neg]

theorem neg_inj {l m : Lit} : l.neg = m.neg ↔ l = m := by
  constructor
  · intro h
    rw [← neg_neg l, h, neg_neg]
  · exact fun h => h ▸ rfl

theorem code_inj {l m : Lit} : l.code = m.code ↔ l = m := by
  constructor
  · intro h
    rw [← ofCode_code l, h, ofCode_code]
  · exact fun h => h ▸ rfl

/-- The two literals of a variable have neighbouring ranks. -/
theorem code_bounds (l : Lit) :
    2 * l.var.index ≤ l.code ∧ l.code ≤ 2 * l.var.index + 1 := by
  unfold code
  split <;> omega

/-- A literal has its rank below `2 * count` if its variable is among the
first `count` ones. -/
theorem code_lt {l : Lit} {count : Nat} : l.code < 2 * count ↔ l.var.index < count := by
  unfold code
  split <;> omega

end Lit

theorem getD_resized {α : Type} [Inhabited α] (a : Array α) {size : Nat} (h : a.size ≤ size)
    (i : Nat) : (resized a size).getD i default = a.getD i default := by
  unfold resized
  rw [if_pos h]
  simp only [Array.getD_eq_getD_getElem?, Array.getElem?_append, Array.getElem?_replicate]
  split
  · rfl
  · rename_i hi
    rw [Array.getElem?_eq_none (Nat.le_of_not_lt hi)]
    split <;> rfl

theorem size_resized {α : Type} [Inhabited α] (a : Array α) {size : Nat} (h : a.size ≤ size) :
    (resized a size).size = size := by
  unfold resized
  rw [if_pos h]
  simp
  omega

theorem getD_setIfInBounds {α : Type} [Inhabited α] (a : Array α) (i j : Nat) (x : α) :
    (a.setIfInBounds i x).getD j default
      = if i = j ∧ i < a.size then x else a.getD j default := by
  simp only [Array.getD_eq_getD_getElem?, Array.getElem?_setIfInBounds]
  by_cases hij : i = j
  · subst hij
    by_cases hlt : i < a.size
    · simp [hlt]
    · simp [hlt]
  · simp [hij]

/-- Each listed position is written, whatever the order. -/
theorem getD_foldl_setIfInBounds {α : Type} [Inhabited α] (is : List Nat) (t : Array α) (x : α)
    (i : Nat) : (is.foldl (fun t i => t.setIfInBounds i x) t).getD i default
      = if i ∈ is ∧ i < t.size then x else t.getD i default := by
  induction is generalizing t with
  | nil => simp
  | cons j rest ih =>
    rw [List.foldl_cons, ih, Array.size_setIfInBounds, getD_setIfInBounds]
    by_cases hj : j = i
    · subst hj
      by_cases hlt : j < t.size <;> simp [hlt]
    · simp [hj, Ne.symm hj]

/-- **A table of flags** is true at the listed positions it has an entry for. -/
theorem getD_flags {size i : Nat} {is : List Nat} :
    (is.foldl (fun t i => t.setIfInBounds i true) (Array.replicate size false)).getD i false = true
      ↔ i ∈ is ∧ i < size := by
  have hblank : (Array.replicate size false).getD i default = false := by
    rw [Array.getD_eq_getD_getElem?, Array.getElem?_replicate]
    split <;> rfl
  have hget : (is.foldl (fun t i => t.setIfInBounds i true) (Array.replicate size false)).getD i
      false = if i ∈ is ∧ i < (Array.replicate size false).size then true else _ :=
    getD_foldl_setIfInBounds is _ true i
  rw [hget, hblank, Array.size_replicate]
  simp

theorem getD_modify {α : Type} [Inhabited α] (a : Array α) (i j : Nat) (f : α → α) :
    (a.modify i f).getD j default
      = if i = j ∧ i < a.size then f (a.getD j default) else a.getD j default := by
  simp only [Array.getD_eq_getD_getElem?, Array.getElem?_modify]
  by_cases hij : i = j
  · subst hij
    by_cases hlt : i < a.size
    · simp [hlt]
    · simp [hlt]
  · simp [hij]

theorem Var.index_inj {v w : Var} : v.index = w.index ↔ v = w := by
  cases v; cases w; simp

theorem Var.mem_range {v : Var} {count : Nat} : v ∈ Var.range count ↔ v.index < count := by
  unfold Var.range
  rw [List.mem_map]
  refine ⟨?_, fun h => ⟨v.index, List.mem_range.mpr h, rfl⟩⟩
  rintro ⟨i, hi, rfl⟩
  exact List.mem_range.mp hi

theorem Var.nodup_range (count : Nat) : (Var.range count).Nodup :=
  List.Pairwise.map _ (fun _ _ hne heq => hne (congrArg Var.index heq)) List.nodup_range

theorem Var.le_foldl_max (vs : List Var) (start : Nat) :
    start ≤ vs.foldl (fun bound v => max bound (v.index + 1)) start :=
  start_le_foldl_max (fun v => v.index + 1) vs start

/-- Every listed variable lies below the bound. -/
theorem Var.index_lt_foldl_max {vs : List Var} {v : Var} (hv : v ∈ vs) (start : Nat) :
    v.index < vs.foldl (fun bound v => max bound (v.index + 1)) start :=
  le_foldl_max_of_mem (fun v => v.index + 1) hv start

/-- A variable has the two literals that are about it. -/
theorem Var.mem_lits {v : Var} {l : Lit} : l ∈ v.lits ↔ l.var = v := by
  unfold Var.lits
  rw [List.mem_cons, List.mem_singleton]
  constructor
  · rintro (rfl | rfl) <;> rfl
  · rintro rfl
    obtain ⟨v, positive⟩ := l
    cases positive with
    | true => exact Or.inl rfl
    | false => exact Or.inr rfl

namespace VarTable

variable {α : Type}

@[simp] theorem size_set (t : VarTable α) (v : Var) (a : α) : (t.set v a).size = t.size := by
  simp [size, set]

@[simp] theorem size_modify (t : VarTable α) (v : Var) (f : α → α) :
    (t.modify v f).size = t.size := by
  simp [size, modify]

@[simp] theorem size_sized [Inhabited α] (count : Nat) :
    (sized count : VarTable α).size = count := by
  simp [size, sized]

theorem size_resize [Inhabited α] (t : VarTable α) {count : Nat} (h : t.size ≤ count) :
    (t.resize count).size = count :=
  size_resized t.entries h

theorem size_foldl_set (f : VarTable α → Var → α) (vs : List Var) (t : VarTable α) :
    (vs.foldl (fun t v => t.set v (f t v)) t).size = t.size := by
  induction vs generalizing t with
  | nil => rfl
  | cons v vs ih => rw [List.foldl_cons, ih, size_set]

@[simp] theorem size_setAll (t : VarTable α) (vs : List Var) (a : α) :
    (t.setAll vs a).size = t.size :=
  size_foldl_set (fun _ _ => a) vs t

theorem size_foldl_modify (f : Var → α → α) (vs : List Var) (t : VarTable α) :
    (vs.foldl (fun t v => t.modify v (f v)) t).size = t.size := by
  induction vs generalizing t with
  | nil => rfl
  | cons v vs ih => rw [List.foldl_cons, ih, size_modify]

variable [Inhabited α]

/-- **A write is read back**, and disturbs no other entry. -/
theorem get_set (t : VarTable α) (v w : Var) (a : α) :
    (t.set v a)[w] = if v = w ∧ v.index < t.size then a else t[w] := by
  simp only [← Var.index_inj]
  exact getD_setIfInBounds t.entries v.index w.index a

theorem get_set_self {t : VarTable α} {v : Var} (h : v.index < t.size) (a : α) :
    (t.set v a)[v] = a := by
  rw [get_set, if_pos ⟨rfl, h⟩]

theorem get_set_ne (t : VarTable α) {v w : Var} (h : v ≠ w) (a : α) :
    (t.set v a)[w] = t[w] := by
  rw [get_set, if_neg (fun hc => h hc.1)]

theorem get_modify (t : VarTable α) (v w : Var) (f : α → α) :
    (t.modify v f)[w] = if v = w ∧ v.index < t.size then f t[w] else t[w] := by
  simp only [← Var.index_inj]
  exact getD_modify t.entries v.index w.index f

theorem get_resize (t : VarTable α) {count : Nat} (h : t.size ≤ count) (v : Var) :
    (t.resize count)[v] = t[v] :=
  getD_resized t.entries h v.index

theorem get_sized (count : Nat) (v : Var) : (sized count : VarTable α)[v] = default := by
  show (Array.replicate count default).getD v.index default = default
  simp only [Array.getD_eq_getD_getElem?, Array.getElem?_replicate]
  split <;> rfl

theorem get_fill_default (t : VarTable α) (v : Var) : (t.fill default)[v] = default :=
  get_sized t.size v

/-- Beyond the table only the default entry is read. -/
theorem get_of_size_le (t : VarTable α) {v : Var} (h : t.size ≤ v.index) : t[v] = default := by
  show t.entries.getD v.index default = default
  simp [Array.getD_eq_getD_getElem?, Array.getElem?_eq_none h]

/-- Each listed entry is written, whatever the order. -/
theorem get_foldl_set (f : Var → α) (vs : List Var) (t : VarTable α) (w : Var) :
    (vs.foldl (fun t v => t.set v (f v)) t)[w] = if w ∈ vs ∧ w.index < t.size then f w else t[w] := by
  induction vs generalizing t with
  | nil => simp
  | cons v vs ih =>
    rw [List.foldl_cons, ih, size_set, get_set]
    by_cases hvw : v = w
    · subst hvw
      by_cases hlt : v.index < t.size <;> simp [hlt]
    · simp [hvw, Ne.symm hvw]

/-- Each listed entry is changed once. -/
theorem get_foldl_modify (f : Var → α → α) {vs : List Var} (hnodup : vs.Nodup) (t : VarTable α)
    (w : Var) : (vs.foldl (fun t v => t.modify v (f v)) t)[w]
      = if w ∈ vs ∧ w.index < t.size then f w t[w] else t[w] := by
  induction vs generalizing t with
  | nil => simp
  | cons v vs ih =>
    obtain ⟨hv, hnodup⟩ := List.nodup_cons.mp hnodup
    rw [List.foldl_cons, ih hnodup, size_modify, get_modify]
    by_cases hvw : v = w
    · subst hvw
      by_cases hlt : v.index < t.size <;> simp [hv, hlt]
    · simp [hvw, Ne.symm hvw]

/-- Each position of a table is written once. -/
theorem get_foldl_zipIdx {vs : List Var} (hnodup : vs.Nodup) (start : Nat)
    {t : VarTable Nat} (hsize : ∀ v ∈ vs, v.index < t.size) (w : Var) :
    ((vs.zipIdx start).foldl (fun t (v, i) => t.set v i) t)[w]
      = if w ∈ vs then start + vs.idxOf w else t[w] := by
  induction vs generalizing start t with
  | nil => simp
  | cons v vs ih =>
    obtain ⟨hnot, hnodup⟩ := List.nodup_cons.mp hnodup
    rw [List.zipIdx_cons, List.foldl_cons, ih hnodup]
    · by_cases hw : w = v
      · subst hw
        rw [if_neg hnot, if_pos List.mem_cons_self, get_set_self
          (hsize w List.mem_cons_self), List.idxOf_cons_self, Nat.add_zero]
      · rw [get_set_ne _ (Ne.symm hw), List.idxOf_cons, beq_false_of_ne (Ne.symm hw)]
        simp only [List.mem_cons, hw, false_or, cond_false]
        split
        · omega
        · rfl
    · exact fun u hu => (size_set t v start).symm ▸ hsize u (List.mem_cons_of_mem _ hu)

/-- **A table of positions** has the position of every listed variable. -/
theorem get_positions {count : Nat} {vs : List Var} {v : Var} (hnodup : vs.Nodup)
    (hcount : ∀ v ∈ vs, v.index < count) (hv : v ∈ vs) :
    (vs.zipIdx.foldl (fun t (v, i) => t.set v i) (sized count : VarTable Nat))[v]
      = vs.idxOf v := by
  rw [get_foldl_zipIdx hnodup 0, if_pos hv, Nat.zero_add]
  intro v hv
  rw [size_sized]
  exact hcount v hv

theorem get_setAll (t : VarTable α) (vs : List Var) (a : α) (v : Var) :
    (t.setAll vs a)[v] = if v ∈ vs ∧ v.index < t.size then a else t[v] :=
  get_foldl_set (fun _ => a) vs t v

/-- **A marking** is true at the listed variables it has an entry for. -/
theorem get_marking {count : Nat} {vs : List Var} {v : Var} :
    (marking count vs)[v] = true ↔ v ∈ vs ∧ v.index < count := by
  unfold marking
  rw [get_setAll, get_sized, size_sized]
  simp

/-- Tables of one size with the same entries are equal. -/
theorem ext_get {t u : VarTable α} (hsize : t.size = u.size) (h : ∀ v : Var, t[v] = u[v]) :
    t = u := by
  refine congrArg VarTable.mk (Array.ext hsize fun i hi hi' => ?_)
  have hget := h ⟨i⟩
  change t.entries.getD i default = u.entries.getD i default at hget
  rwa [Array.getD_eq_getD_getElem?, Array.getD_eq_getD_getElem?, Array.getElem?_eq_getElem hi,
    Array.getElem?_eq_getElem hi'] at hget

end VarTable

namespace LitTable

variable {α : Type}

/-- The number of entries, two for every variable. -/
def size (t : LitTable α) : Nat := t.entries.size

@[simp] theorem size_set (t : LitTable α) (l : Lit) (a : α) : (t.set l a).size = t.size := by
  simp [size, set]

@[simp] theorem size_modify (t : LitTable α) (l : Lit) (f : α → α) :
    (t.modify l f).size = t.size := by
  simp [size, modify]

variable [Inhabited α]

@[simp] theorem size_sized (count : Nat) : (sized count : LitTable α).size = 2 * count := by
  simp [size, sized]

theorem size_resize (t : LitTable α) {count : Nat} (h : t.size ≤ 2 * count) :
    (t.resize count).size = 2 * count :=
  size_resized t.entries h

theorem get_set (t : LitTable α) (l m : Lit) (a : α) :
    (t.set l a)[m] = if l = m ∧ l.code < t.size then a else t[m] := by
  simp only [← Lit.code_inj]
  exact getD_setIfInBounds t.entries l.code m.code a

theorem get_set_self {t : LitTable α} {l : Lit} (h : l.code < t.size) (a : α) :
    (t.set l a)[l] = a := by
  rw [get_set, if_pos ⟨rfl, h⟩]

theorem get_set_ne (t : LitTable α) {l m : Lit} (h : l ≠ m) (a : α) :
    (t.set l a)[m] = t[m] := by
  rw [get_set, if_neg (fun hc => h hc.1)]

theorem get_modify (t : LitTable α) (l m : Lit) (f : α → α) :
    (t.modify l f)[m] = if l = m ∧ l.code < t.size then f t[m] else t[m] := by
  simp only [← Lit.code_inj]
  exact getD_modify t.entries l.code m.code f

theorem get_modify_self {t : LitTable α} {l : Lit} (h : l.code < t.size) (f : α → α) :
    (t.modify l f)[l] = f t[l] := by
  rw [get_modify, if_pos ⟨rfl, h⟩]

theorem get_modify_ne (t : LitTable α) {l m : Lit} (h : l ≠ m) (f : α → α) :
    (t.modify l f)[m] = t[m] := by
  rw [get_modify, if_neg (fun hc => h hc.1)]

theorem get_resize (t : LitTable α) {count : Nat} (h : t.size ≤ 2 * count) (l : Lit) :
    (t.resize count)[l] = t[l] :=
  getD_resized t.entries h l.code

theorem get_sized (count : Nat) (l : Lit) : (sized count : LitTable α)[l] = default := by
  show (Array.replicate (2 * count) default).getD l.code default = default
  simp only [Array.getD_eq_getD_getElem?, Array.getElem?_replicate]
  split <;> rfl

/-- Beyond the table only the default entry is read. -/
theorem get_of_size_le (t : LitTable α) {l : Lit} (h : t.size ≤ l.code) : t[l] = default := by
  show t.entries.getD l.code default = default
  simp [Array.getD_eq_getD_getElem?, Array.getElem?_eq_none h]

end LitTable

namespace Marks

/-- Nothing is marked at first. -/
theorem isMarked_empty_resize (count : Nat) (v : Var) :
    (empty.resize count).isMarked v = false := by
  have hget : (empty.resize count).stamps[v] = 0 := by
    show ((default : VarTable UInt32).resize count)[v] = 0
    rw [VarTable.get_resize _ (Nat.zero_le _)]
    rfl
  unfold isMarked
  rw [hget]
  rfl

/-- Marking marks the variable and no other one. -/
theorem isMarked_mark {m : Marks} {v w : Var} (h : v.index < m.stamps.size) :
    (m.mark v).2.isMarked w = (m.isMarked w || decide (w = v)) := by
  unfold mark
  split
  · rename_i hm
    by_cases hwv : w = v
    · simp [hwv, hm]
    · simp [hwv]
  · show ((m.stamps.set v m.current)[w] == m.current) = _
    by_cases hwv : w = v
    · subst hwv
      simp [VarTable.get_set_self h]
    · rw [VarTable.get_set_ne _ (fun h => hwv h.symm)]
      simp [isMarked, hwv]

theorem mark_fst (m : Marks) (v : Var) : (m.mark v).1 = !m.isMarked v := by
  unfold mark
  split <;> simp_all

@[simp] theorem size_mark (m : Marks) (v : Var) :
    (m.mark v).2.stamps.size = m.stamps.size := by
  unfold mark
  split <;> simp

@[simp] theorem size_unmark (m : Marks) (v : Var) :
    (m.unmark v).stamps.size = m.stamps.size := by
  simp [unmark]

@[simp] theorem current_mark (m : Marks) (v : Var) : (m.mark v).2.current = m.current := by
  unfold mark
  split <;> simp

@[simp] theorem current_unmark (m : Marks) (v : Var) : (m.unmark v).current = m.current := rfl

/-- Unmarking takes one mark away. -/
theorem isMarked_unmark {m : Marks} {v w : Var} (h : v.index < m.stamps.size)
    (hc : m.current ≠ 0) :
    (m.unmark v).isMarked w = (m.isMarked w && decide (w ≠ v)) := by
  show ((m.stamps.set v 0)[w] == m.current) = _
  by_cases hwv : w = v
  · subst hwv
    simp only [VarTable.get_set_self h, ne_eq, not_true, decide_false, Bool.and_false]
    simpa using fun h0 => hc h0.symm
  · rw [VarTable.get_set_ne _ (fun h => hwv h.symm)]
    simp [isMarked, hwv]

/-! ### The order of stamps -/

/-- **Stamps in order**: none is ahead of the current one, which is not the
reserved one. -/
structure Wf (m : Marks) : Prop where
  current : m.current ≠ 0
  behind : ∀ v : Var, m.stamps[v] ≤ m.current

theorem wf_empty_resize (count : Nat) : (empty.resize count).Wf where
  current := (by decide : max (0 : UInt32) 1 ≠ 0)
  behind := fun v => by
    show ((default : VarTable UInt32).resize count)[v] ≤ (1 : UInt32)
    rw [VarTable.get_resize _ (Nat.zero_le _)]
    exact (by decide : (0 : UInt32) ≤ 1)

theorem Wf.toNat_current_ne_zero {m : Marks} (h : m.Wf) : m.current.toNat ≠ 0 := fun h0 =>
  h.current (UInt32.toNat_inj.mp h0)

/-- Making room moves the current stamp only if it is the reserved one. -/
theorem Wf.current_resize {m : Marks} (h : m.Wf) (count : Nat) :
    (m.resize count).current = m.current := by
  have hcurrent := h.toNat_current_ne_zero
  show (if m.current ≤ 1 then 1 else m.current) = m.current
  split
  · rename_i hle
    have hle : m.current.toNat ≤ 1 := UInt32.le_iff_toNat_le.mp hle
    exact UInt32.toNat_inj.mp (show 1 = m.current.toNat by omega)
  · rfl

theorem Wf.resize {m : Marks} (h : m.Wf) {count : Nat} (hle : m.stamps.size ≤ count) :
    (m.resize count).Wf where
  current := h.current_resize count ▸ h.current
  behind := fun v => by
    rw [h.current_resize]
    exact VarTable.get_resize m.stamps hle v ▸ h.behind v

/-- Room for more variables marks none and unmarks none. -/
theorem Wf.isMarked_resize {m : Marks} (h : m.Wf) {count : Nat} (hle : m.stamps.size ≤ count)
    (v : Var) : (m.resize count).isMarked v = m.isMarked v := by
  unfold isMarked
  rw [h.current_resize]
  exact congrArg (· == m.current) (VarTable.get_resize m.stamps hle v)

theorem Wf.mark {m : Marks} (h : m.Wf) (v : Var) : (m.mark v).2.Wf where
  current := (current_mark m v).symm ▸ h.current
  behind := fun w => by
    rw [current_mark]
    unfold Marks.mark
    split
    · exact h.behind w
    · show (m.stamps.set v m.current)[w] ≤ m.current
      rw [VarTable.get_set]
      split
      · exact UInt32.le_refl _
      · exact h.behind w

theorem Wf.unmark {m : Marks} (h : m.Wf) (v : Var) : (m.unmark v).Wf where
  current := (current_unmark m v).symm ▸ h.current
  behind := fun w => by
    show (m.stamps.set v 0)[w] ≤ m.current
    rw [VarTable.get_set]
    split
    · exact UInt32.zero_le
    · exact h.behind w

/-! ### Clearing -/

theorem size_clear (m : Marks) : m.clear.stamps.size = m.stamps.size := by
  unfold clear
  split
  · exact VarTable.size_sized _
  · rfl

/-- **Clearing leaves every stamp behind the current one**, also where the
stamps run out. -/
theorem Wf.lt_clear {m : Marks} (h : m.Wf) (v : Var) : m.clear.stamps[v] < m.clear.current := by
  unfold clear
  split
  · show (m.stamps.fill default)[v] < (1 : UInt32)
    rw [VarTable.get_fill_default]
    decide
  · rename_i hlast
    have hbehind := UInt32.le_iff_toNat_le.mp (h.behind v)
    have hroom : m.current.toNat ≠ (0xffffffff : UInt32).toNat := fun heq =>
      hlast (UInt32.toNat_inj.mp heq)
    have hmax := m.current.toNat_lt
    show m.stamps[v] < m.current + 1
    rw [UInt32.lt_iff_toNat_lt, UInt32.toNat_add]
    simp only [UInt32.reduceToNat] at hroom ⊢
    omega

theorem Wf.clear {m : Marks} (h : m.Wf) : m.clear.Wf where
  current := fun h0 => UInt32.not_lt_zero (h0 ▸ h.lt_clear ⟨0⟩)
  behind := fun v => UInt32.le_of_lt (h.lt_clear v)

/-- **No variable is marked after clearing.** -/
theorem Wf.isMarked_clear {m : Marks} (h : m.Wf) (v : Var) : m.clear.isMarked v = false :=
  beq_eq_false_iff_ne.mpr (UInt32.ne_of_lt (h.lt_clear v))

end Marks

end Cleave
