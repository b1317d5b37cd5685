import Cleave.Proofs.Invariant

/-!
# What the membership index lists

Inserting a clause into the index lists it under each of its variables, and
under each of its literals in the table of its class; nothing else changes.
So an index that starts empty lists the clauses that were inserted and no
others. Positions that grow keep every list ascending, so that no clause stands
in a list twice. This is all that `Listed` asks for.
-/

namespace Cleave

namespace Membership

variable {m : Membership} {id : ClauseId} {lits : Clause}

/-! ## Nothing listed -/

/-- **A variable that no clause is listed under.** -/
structure Free (m : Membership) (v : Var) : Prop where
  ofVar : m.ofVar v = []
  ofLit : ∀ l : Lit, l.var = v → m.ofLit l = []

theorem table_empty (count : Nat) (w : Width) (l : Lit) :
    ((empty.resize count).table w)[l] = default := by
  have hget : ((default : LitTable (Array ClauseId)).resize count)[l] = default := by
    rw [LitTable.get_resize _ (Nat.zero_le _), LitTable.get_of_size_le _ (Nat.zero_le _)]
  cases w <;> exact hget

theorem free_empty (count : Nat) (v : Var) : (empty.resize count).Free v where
  ofVar := by
    have hget : (empty.resize count).byVar[v] = default := by
      unfold Membership.resize
      rw [VarTable.get_resize _ (Nat.zero_le _), VarTable.get_of_size_le _ (Nat.zero_le _)]
    exact congrArg Array.toList hget
  ofLit := by
    intro l _
    unfold Membership.ofLit
    rw [show (empty.resize count).ternary[l] = default from table_empty count .ternary l,
      show (empty.resize count).quaternary[l] = default from table_empty count .quaternary l,
      show (empty.resize count).wide[l] = default from table_empty count .wide l]
    rfl

/-! ## One clause -/

theorem byVar_insert (m : Membership) (id : ClauseId) (lits : Clause) :
    (m.insert id lits).byVar
      = lits.foldl (fun t (l : Lit) => t.modify l.var (·.push id)) m.byVar := by
  unfold insert
  simp only
  split <;> rfl

/-- Only the table of the clause's own class changes. -/
theorem table_insert (m : Membership) (id : ClauseId) (lits : Clause) (w : Width) :
    (m.insert id lits).table w
      = if Width.of lits.length = w then listUnder (m.table w) id lits else m.table w := by
  unfold insert
  simp only
  generalize hn : lits.length = n
  match n with
  | 0 | 1 | 2 | 3 | 4 | n + 5 => cases w <;> rfl

theorem size_foldl_modify (t : VarTable (Array ClauseId)) (id : ClauseId) (lits : Clause) :
    (lits.foldl (fun t (l : Lit) => t.modify l.var (·.push id)) t).size = t.size := by
  induction lits generalizing t with
  | nil => rfl
  | cons l rest ih => rw [List.foldl_cons, ih, VarTable.size_modify]

theorem size_listUnder (t : LitTable (Array ClauseId)) (id : ClauseId) (lits : Clause) :
    (listUnder t id lits).size = t.size := by
  unfold listUnder
  induction lits generalizing t with
  | nil => rfl
  | cons l rest ih => rw [List.foldl_cons, ih, LitTable.size_modify]

/-- **A clause is put behind the list of a variable** as often as it mentions
it. -/
theorem toList_foldl_modify (t : VarTable (Array ClauseId)) (id : ClauseId) (lits : Clause)
    (v : Var) : (lits.foldl (fun t (l : Lit) => t.modify l.var (·.push id)) t)[v].toList
      = t[v].toList
        ++ List.replicate (if v.index < t.size then (lits.map Lit.var).count v else 0) id := by
  induction lits generalizing t with
  | nil => simp
  | cons l rest ih =>
    rw [List.foldl_cons, ih, VarTable.size_modify, VarTable.get_modify, List.map_cons,
      List.count_cons]
    by_cases hv : l.var = v
    · subst hv
      by_cases hlt : l.var.index < t.size <;> simp [hlt, List.replicate_succ]
    · simp [hv]

/-- **A clause is put behind the list of a literal** as often as it holds it. -/
theorem toList_listUnder (t : LitTable (Array ClauseId)) (id : ClauseId) (lits : Clause)
    (l : Lit) : (listUnder t id lits)[l].toList
      = t[l].toList ++ List.replicate (if l.code < t.size then lits.count l else 0) id := by
  unfold listUnder
  induction lits generalizing t with
  | nil => simp
  | cons m rest ih =>
    rw [List.foldl_cons, ih, LitTable.size_modify, LitTable.get_modify, List.count_cons]
    by_cases hl : m = l
    · subst hl
      by_cases hlt : m.code < t.size <;> simp [hlt, List.replicate_succ]
    · simp [hl]

section Occurrences

variable {α : Type} [DecidableEq α] {xs : List α} {x : α} {p : Prop} [Decidable p]

theorem count_ne_zero_iff (h : x ∈ xs → p) : (if p then xs.count x else 0) ≠ 0 ↔ x ∈ xs := by
  split
  · rw [Nat.ne_zero_iff_zero_lt, List.count_pos_iff]
  · rename_i hp
    exact iff_of_false (fun hne => hne rfl) fun hx => hp (h hx)

theorem count_eq_zero (h : x ∉ xs) : (if p then xs.count x else 0) = 0 := by
  rw [List.count_eq_zero.mpr h, ite_self]

theorem count_le_one (h : xs.Nodup) : (if p then xs.count x else 0) ≤ 1 := by
  split
  · exact List.nodup_iff_count_le_one.mp h x
  · exact Nat.zero_le 1

end Occurrences

theorem size_insert (m : Membership) (id : ClauseId) (lits : Clause) :
    (m.insert id lits).byVar.size = m.byVar.size := by
  rw [byVar_insert]
  exact size_foldl_modify m.byVar id lits

theorem size_table_insert (m : Membership) (id : ClauseId) (lits : Clause) (w : Width) :
    ((m.insert id lits).table w).size = (m.table w).size := by
  rw [table_insert]
  split
  · exact size_listUnder _ id lits
  · rfl

theorem mem_ofVar_insert (hlits : ∀ l ∈ lits, l.var.index < m.byVar.size) (v : Var)
    (j : ClauseId) :
    j ∈ (m.insert id lits).ofVar v ↔ j ∈ m.ofVar v ∨ (j = id ∧ ∃ l ∈ lits, l.var = v) := by
  unfold ofVar
  rw [byVar_insert, toList_foldl_modify, List.mem_append, List.mem_replicate,
    count_ne_zero_iff fun hv => ?_, List.mem_map, and_comm]
  obtain ⟨l, hl, rfl⟩ := List.mem_map.mp hv
  exact hlits l hl

theorem mem_table_insert {w : Width} (hlits : ∀ l ∈ lits, l.code < (m.table w).size) (l : Lit)
    (j : ClauseId) :
    j ∈ ((m.insert id lits).table w)[l].toList
      ↔ j ∈ (m.table w)[l].toList ∨ (j = id ∧ l ∈ lits ∧ Width.of lits.length = w) := by
  rw [table_insert]
  split
  · rename_i hw
    rw [toList_listUnder, List.mem_append, List.mem_replicate, count_ne_zero_iff (hlits l)]
    simp [hw, and_comm]
  · rename_i hw
    simp [hw]

/-- A clause is listed under its own variables only. -/
theorem foldl_modify_of_not_mem {t : VarTable (Array ClauseId)} {v : Var}
    (hv : ∀ l ∈ lits, l.var ≠ v) :
    (lits.foldl (fun t (l : Lit) => t.modify l.var (·.push id)) t)[v] = t[v] := by
  refine Array.toList_inj.mp ?_
  rw [toList_foldl_modify, count_eq_zero fun hmem => ?_, List.replicate_zero, List.append_nil]
  obtain ⟨l, hl, he⟩ := List.mem_map.mp hmem
  exact hv l hl he

/-- A clause is listed under its own literals only. -/
theorem listUnder_of_not_mem {t : LitTable (Array ClauseId)} {l : Lit} (hl : l ∉ lits) :
    (listUnder t id lits)[l] = t[l] := by
  refine Array.toList_inj.mp ?_
  rw [toList_listUnder, count_eq_zero hl, List.replicate_zero, List.append_nil]

theorem Free.insert {v : Var} (h : m.Free v) (id : ClauseId) {lits : Clause}
    (hlits : ∀ l ∈ lits, l.var ≠ v) : (m.insert id lits).Free v where
  ofVar := by
    unfold Membership.ofVar
    rw [byVar_insert, foldl_modify_of_not_mem hlits]
    exact h.ofVar
  ofLit := by
    intro l hl
    have hnot : l ∉ lits := fun hm => hlits l hm hl
    have hold := h.ofLit l hl
    unfold Membership.ofLit Membership.insert at *
    simp only
    split
    · simpa [listUnder_of_not_mem hnot] using hold
    · simpa [listUnder_of_not_mem hnot] using hold
    · simpa [listUnder_of_not_mem hnot] using hold

/-! ## Ascending lists -/

/-- A list stays ascending if a larger position is put behind once. -/
theorem ascending_append_replicate {ids : List ClauseId} {n : Nat} (hn : n ≤ 1)
    (hids : ids.Pairwise (· < ·)) (hlast : ∀ j ∈ ids, j < id) :
    (ids ++ List.replicate n id).Pairwise (· < ·) := by
  refine List.pairwise_append.mpr ⟨hids, ?_, fun j hj k hk => ?_⟩
  · rcases Nat.le_one_iff_eq_zero_or_eq_one.mp hn with rfl | rfl
    · exact List.Pairwise.nil
    · exact List.pairwise_singleton _ _
  · rw [List.eq_of_mem_replicate hk]
    exact hlast j hj

theorem ascending_ofVar_insert {v : Var} (hnodup : (lits.map Lit.var).Nodup)
    (h : (m.ofVar v).Pairwise (· < ·)) (hlast : ∀ j ∈ m.ofVar v, j < id) :
    ((m.insert id lits).ofVar v).Pairwise (· < ·) := by
  unfold ofVar
  rw [byVar_insert, toList_foldl_modify]
  exact ascending_append_replicate (count_le_one hnodup) h hlast

theorem ascending_table_insert {w : Width} {l : Lit} (hnodup : lits.Nodup)
    (h : (m.table w)[l].toList.Pairwise (· < ·)) (hlast : ∀ j ∈ (m.table w)[l].toList, j < id) :
    ((m.insert id lits).table w)[l].toList.Pairwise (· < ·) := by
  rw [table_insert]
  split
  · rw [toList_listUnder]
    exact ascending_append_replicate (count_le_one hnodup) h hlast
  · exact h

theorem indexed_insert (m : Membership) (id : ClauseId) (lits : Clause) :
    (m.insert id lits).indexed = m.indexed + 1 := by
  unfold insert
  simp only
  split <;> rfl

/-! ## More variables -/

theorem ofVar_resize {count : Nat} (h : m.byVar.size ≤ count) (v : Var) :
    (m.resize count).ofVar v = m.ofVar v :=
  congrArg Array.toList (VarTable.get_resize _ h v)

theorem size_table_resize {count : Nat} {w : Width} (h : (m.table w).size ≤ 2 * count) :
    ((m.resize count).table w).size = 2 * count := by
  cases w <;> exact LitTable.size_resize _ h

theorem table_resize {count : Nat} {w : Width} (h : (m.table w).size ≤ 2 * count) (l : Lit) :
    ((m.resize count).table w)[l] = (m.table w)[l] := by
  cases w <;> exact LitTable.get_resize _ h l

end Membership

end Cleave
