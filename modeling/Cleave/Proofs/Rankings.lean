import Cleave.Graph.VarOrder
import Cleave.Proofs.Meaning
import Mathlib

/-!
# Rankings of the variables

A static order is a ranking if it gives the variables the numbers from zero on, each
once (`VarOrder.Ranks`). The order that lists all variables in some way is one, and
its branching order is that list (`VarOrder.vars_ofList`); variables that come later
are ranked behind (`VarOrder.Ranks.resize`).

An order made of an elimination lists what was not eliminated by weight, with a sort
that is stable. Weights are floats, so they are ordered only as far as they are
defined (`Float.le_iff_placeOf`), and an undefined one counts as zero.
-/

namespace List

variable {α : Type} {l : List α} {R : α → α → Prop}

/-- **A stable sort** leaves equal elements in the order they were in, by induction
on the list: the first element comes before all that it may come before. -/
theorem Pairwise.mergeSort_stable (le : α → α → Bool) (hR : l.Pairwise R)
    (htrans : ∀ a b c, le a b → le b c → le a c) (htotal : ∀ a b, le a b || le b a) :
    (l.mergeSort le).Pairwise fun a b => le a b ∧ (le b a → R a b) := by
  induction l with
  | nil => simp
  | cons a l ih =>
    obtain ⟨ha, hR⟩ := pairwise_cons.mp hR
    obtain ⟨before, after, hwhole, hrest, hbefore⟩ := mergeSort_cons htrans htotal a l
    have hin : ∀ b ∈ after, b ∈ l := fun b hb =>
      mem_mergeSort.mp (hrest ▸ mem_append_right before hb)
    have hsorted : (before ++ a :: after).Pairwise fun a b => le a b = true :=
      hwhole ▸ pairwise_mergeSort htrans htotal (a :: l)
    have hfirst := (pairwise_cons.mp (pairwise_append.mp hsorted).2.1).1
    obtain ⟨hpre, hpost, hcross⟩ := pairwise_append.mp (hrest ▸ ih hR)
    rw [hwhole]
    refine pairwise_append.mpr ⟨hpre, pairwise_cons.mpr ⟨fun b hb => ?_, hpost⟩, fun b hb c hc => ?_⟩
    · exact ⟨hfirst b hb, fun _ => ha b (hin b hb)⟩
    · rcases mem_cons.mp hc with rfl | hc
      · have hnot : le c b = false := by simpa using hbefore b hb
        have hle := htotal b c
        rw [hnot, Bool.or_false] at hle
        exact ⟨hle, fun h => Bool.noConfusion (hnot.symm.trans h)⟩
      · exact hcross b hb c hc

end List

namespace Cleave

/-! ## Comparing weights -/

section Weights

open Float.Model Float.Model.UnpackedFloat

/-- Where a value that is defined stands among the others: by its sign and
kind first, then by its exponent and mantissa. -/
def placeOf : UnpackedFloat → ℤ ×ₗ ℤ ×ₗ ℤ
  | .notANumber => toLex (0, toLex (0, 0))
  | .infinity .negative => toLex (-2, toLex (0, 0))
  | .finite .negative m e _ => toLex (-1, toLex (-e, -(m : ℤ)))
  | .zero _ => toLex (0, toLex (0, 0))
  | .finite .positive m e _ => toLex (1, toLex (e, (m : ℤ)))
  | .infinity .positive => toLex (2, toLex (0, 0))

theorem toLex_le_iff {a b c a' b' c' : ℤ} : toLex (a, toLex (b, c)) ≤ toLex (a', toLex (b', c'))
    ↔ a < a' ∨ (a = a' ∧ (b < b' ∨ (b = b' ∧ c ≤ c'))) := by
  rw [Prod.Lex.toLex_le_toLex, Prod.Lex.toLex_le_toLex]

/-- Positive values are compared by exponent and mantissa. -/
theorem isLE_then_compare_iff {e e' : ℤ} {m m' : ℕ} :
    ((compare e e').then (compare m m')).isLE = true ↔ e < e' ∨ (e = e' ∧ m ≤ m') := by
  rw [Ordering.isLE_then_iff_or, compare_lt_iff_lt, compare_eq_iff_eq, Nat.isLE_compare]

/-- Negative ones the other way round. -/
theorem isGE_then_compare_iff {e e' : ℤ} {m m' : ℕ} :
    ((compare e e').then (compare m m')).isGE = true ↔ e' < e ∨ (e = e' ∧ m' ≤ m) := by
  rw [← Ordering.isLE_swap, Ordering.swap_then, Int.compare_swap, Nat.compare_swap,
    isLE_then_compare_iff, eq_comm]

/-- **Defined values are compared by their places.** -/
theorem le_iff_placeOf {x y : UnpackedFloat} (hx : x.isNaN = false) (hy : y.isNaN = false) :
    x.le y = true ↔ placeOf x ≤ placeOf y := by
  unfold UnpackedFloat.le
  cases x with
  | notANumber => cases hx
  | infinity s =>
    cases y with
    | notANumber => cases hy
    | infinity s' => cases s <;> cases s' <;> decide
    | zero s' => cases s <;> simp [UnpackedFloat.compare, placeOf, toLex_le_iff]
    | finite s' m e hm => cases s <;> cases s' <;> simp [UnpackedFloat.compare, placeOf, toLex_le_iff]
  | zero s =>
    cases y with
    | notANumber => cases hy
    | infinity s' => cases s' <;> simp [UnpackedFloat.compare, placeOf, toLex_le_iff]
    | zero s' => simp [UnpackedFloat.compare, placeOf]
    | finite s' m e hm => cases s' <;> simp [UnpackedFloat.compare, placeOf, toLex_le_iff]
  | finite s m e hm =>
    cases y with
    | notANumber => cases hy
    | infinity s' => cases s <;> cases s' <;> simp [UnpackedFloat.compare, placeOf, toLex_le_iff]
    | zero s' => cases s <;> simp [UnpackedFloat.compare, placeOf, toLex_le_iff]
    | finite s' m' e' hm' =>
      cases s <;> cases s' <;>
        simp [UnpackedFloat.compare, placeOf, toLex_le_iff, isLE_then_compare_iff, isGE_then_compare_iff]

/-- **Floats that are defined are in a linear order.** -/
theorem float_le_iff {x y : Float} (hx : x.isNaN = false) (hy : y.isNaN = false) :
    x ≤ y ↔ placeOf x.toModel.unpack ≤ placeOf y.toModel.unpack := by
  refine Iff.trans ?_ (le_iff_placeOf hx hy)
  constructor
  · intro h
    exact of_decide_eq_true (h : decide (x.toModel ≤ y.toModel) = true)
  · intro h
    exact decide_eq_true (h : x.toModel ≤ y.toModel)

end Weights

namespace VarOrder

variable {o : VarOrder} {count m n : Nat} {order elimination : List Var} {v : Var}

/-! ## Rankings -/

/-- **A ranking** of the first `count` variables: every one has a rank below `count`
of its own. -/
structure Ranks (o : VarOrder) (count : Nat) : Prop where
  size : o.ranks.size = count
  bijOn : Set.BijOn (fun v : Var => o.ranks[v]) {v | v.index < count} {n | n < count}

theorem ranks_empty : empty.Ranks 0 :=
  ⟨rfl, fun _ h => absurd h (Nat.not_lt_zero _), fun _ h => absurd h (Nat.not_lt_zero _),
    fun _ h => absurd h (Nat.not_lt_zero _)⟩

/-- New variables are ranked by their index. -/
theorem get_resize (h : o.ranks.size ≤ n) (v : Var) : (o.resize n).ranks[v]
    = if o.ranks.size ≤ v.index ∧ v.index < n then v.index else o.ranks[v] := by
  have hin : v ∈ (Var.range n).drop o.ranks.size ↔ o.ranks.size ≤ v.index ∧ v.index < n := by
    rw [List.mem_drop_iff_getElem]
    constructor
    · rintro ⟨i, hi, rfl⟩
      simp only [Var.range, List.length_map, List.length_range] at hi
      simp only [Var.range, List.getElem_map, List.getElem_range]
      omega
    · rintro ⟨hle, hlt⟩
      refine ⟨v.index - o.ranks.size, ?_, ?_⟩
      · simp only [Var.range, List.length_map, List.length_range]
        omega
      · simp only [Var.range, List.getElem_map, List.getElem_range]
        exact Var.index_inj.mp (Nat.add_sub_of_le hle)
  unfold resize
  simp only [VarTable.get_foldl_set, hin, VarTable.size_resize _ h, VarTable.get_resize _ h]
  simp only [and_assoc, and_self]

theorem size_resize (h : o.ranks.size ≤ n) : (o.resize n).ranks.size = n := by
  unfold resize
  simp only [VarTable.size_foldl_set, VarTable.size_resize _ h]

/-- **New variables come last**, so the ranks stay a ranking. -/
theorem Ranks.resize (h : o.Ranks m) (hn : m ≤ n) : (o.resize n).Ranks n := by
  have hsize : o.ranks.size ≤ n := h.size.trans_le hn
  have hold : ∀ v : Var, v.index < m → (o.resize n).ranks[v] = o.ranks[v] := fun v hv => by
    rw [get_resize hsize, h.size, if_neg fun hc => absurd hv (Nat.not_lt.mpr hc.1)]
  have hnew : ∀ v : Var, m ≤ v.index → v.index < n → (o.resize n).ranks[v] = v.index :=
    fun v hv hlt => by rw [get_resize hsize, h.size, if_pos ⟨hv, hlt⟩]
  have hlt : ∀ v : Var, v.index < m → o.ranks[v] < m := fun v hv => h.bijOn.mapsTo hv
  refine ⟨size_resize hsize, fun v hv => ?_, fun v hv w hw heq => ?_, fun r hr => ?_⟩
  all_goals simp only [Set.mem_ofPred_eq] at *
  · rcases Nat.lt_or_ge v.index m with hvm | hvm
    · rw [hold v hvm]
      exact (hlt v hvm).trans_le hn
    · rwa [hnew v hvm hv]
  · rcases Nat.lt_or_ge v.index m with hvm | hvm <;> rcases Nat.lt_or_ge w.index m with hwm | hwm
    · rw [hold v hvm, hold w hwm] at heq
      exact h.bijOn.injOn hvm hwm heq
    · rw [hold v hvm, hnew w hwm hw] at heq
      have := hlt v hvm
      omega
    · rw [hnew v hvm hv, hold w hwm] at heq
      have := hlt w hwm
      omega
    · rw [hnew v hvm hv, hnew w hwm hw] at heq
      exact Var.index_inj.mp heq
  · rcases Nat.lt_or_ge r m with hrm | hrm
    · obtain ⟨v, hv, hvr⟩ := h.bijOn.surjOn hrm
      have hv : v.index < m := hv
      exact ⟨v, hv.trans_le hn, (hold v hv).trans hvr⟩
    · exact ⟨⟨r⟩, hr, hnew ⟨r⟩ hrm hr⟩

/-- The order that lists the variables as they are. -/
def ofList (order : List Var) (count : Nat) : VarOrder :=
  ⟨order.zipIdx.foldl (fun t (v, rank) => t.set v rank) (VarTable.sized count)⟩

theorem size_ofList : (ofList order count).ranks.size = count := by
  refine List.foldlRecOn order.zipIdx _ (motive := fun t : VarTable Nat => t.size = count)
    (VarTable.size_sized _) fun t ht x _ => (VarTable.size_set _ _ _).trans ht

/-- A variable is ranked by its place in the list. -/
theorem get_ofList (h : order.Perm (Var.range count)) (hv : v ∈ order) :
    (ofList order count).ranks[v] = order.idxOf v :=
  VarTable.get_positions (h.nodup_iff.mpr (Var.nodup_range count))
    (fun _ hv => Var.mem_range.mp (h.mem_iff.mp hv)) hv

/-- **A list of all variables** ranks them. -/
theorem ranks_ofList (h : order.Perm (Var.range count)) : (ofList order count).Ranks count := by
  have hin : ∀ {v : Var}, v.index < count → v ∈ order := fun hv =>
    h.mem_iff.mpr (Var.mem_range.mpr hv)
  have hlength : order.length = count := by simpa [Var.range] using h.length_eq
  have hnodup : order.Nodup := h.nodup_iff.mpr (Var.nodup_range count)
  refine ⟨size_ofList, fun v hv => ?_, fun v hv w hw heq => ?_, fun r hr => ?_⟩
  · show (ofList order count).ranks[v] < count
    rw [get_ofList h (hin hv)]
    exact (List.idxOf_lt_length_of_mem (hin hv)).trans_eq hlength
  · have heq : (ofList order count).ranks[v] = (ofList order count).ranks[w] := heq
    rw [get_ofList h (hin hv), get_ofList h (hin hw)] at heq
    exact (List.idxOf_inj (hin hv)).mp heq
  · have hr : r < order.length := Nat.lt_of_lt_of_eq hr hlength.symm
    have hmem : order[r] ∈ order := List.getElem_mem hr
    exact ⟨order[r], Var.mem_range.mp (h.mem_iff.mp hmem),
      (get_ofList h hmem).trans (hnodup.idxOf_getElem r hr)⟩

/-- **The list is the branching order.** -/
theorem vars_ofList (h : order.Perm (Var.range count)) : (ofList order count).vars = order := by
  have hnodup : order.Nodup := h.nodup_iff.mpr (Var.nodup_range count)
  have hperm : (ofList order count).vars.Perm order := by
    unfold vars
    rw [size_ofList]
    exact (List.mergeSort_perm _ _).trans h.symm
  have hsorted : (ofList order count).vars.Pairwise fun v w =>
      (ofList order count).ranks[v] ≤ (ofList order count).ranks[w] :=
    pairwise_mergeSort_key (fun v => (ofList order count).ranks[v]) _
  have hplaces : order.Pairwise fun v w =>
      (ofList order count).ranks[v] ≤ (ofList order count).ranks[w] := by
    refine List.pairwise_iff_getElem.mpr fun i j hi hj hij => ?_
    rw [get_ofList h (List.getElem_mem hi), get_ofList h (List.getElem_mem hj),
      hnodup.idxOf_getElem i hi, hnodup.idxOf_getElem j hj]
    exact hij.le
  refine hperm.eq_of_pairwise (fun v w hv hw hle hge => ?_) hsorted hplaces
  have hv := hperm.mem_iff.mp hv
  have heq := Nat.le_antisymm hle hge
  rw [get_ofList h hv, get_ofList h hw] at heq
  exact (List.idxOf_inj hv).mp heq

/-! ## Orders made of eliminations -/

/-- The weight a variable is ordered by. -/
def weightOf (weights : VarTable Float) (v : Var) : Float :=
  let w := weights[v]
  if w.isNaN then 0.0 else w

/-- **An earlier variable** is at least as heavy as a later one, and of two that are
equally heavy the one with the smaller index is earlier. -/
def Precedes (weights : VarTable Float) (v w : Var) : Prop :=
  weightOf weights w ≤ weightOf weights v
    ∧ (weightOf weights v ≤ weightOf weights w → v.index < w.index)

/-- The variables that were not eliminated, by decreasing weight. -/
def remaining (elimination : List Var) (weights : VarTable Float) (count : Nat) : List Var :=
  ((Var.range count).filter fun v => !(VarTable.marking count elimination)[v]).mergeSort
    fun v w => weightOf weights w ≤ weightOf weights v

theorem ofElimination_eq (elimination : List Var) (weights : VarTable Float) (count : Nat) :
    ofElimination elimination weights count
      = ofList (elimination.reverse ++ remaining elimination weights count) count := rfl

theorem isNaN_weightOf (weights : VarTable Float) (v : Var) :
    (weightOf weights v).isNaN = false := by
  unfold weightOf
  simp only
  split
  · rfl
  · rename_i hdefined
    exact Bool.eq_false_iff.mpr hdefined

theorem weightOf_le_iff {weights : VarTable Float} {v w : Var} :
    weightOf weights v ≤ weightOf weights w
      ↔ placeOf (weightOf weights v).toModel.unpack ≤ placeOf (weightOf weights w).toModel.unpack :=
  float_le_iff (isNaN_weightOf weights v) (isNaN_weightOf weights w)

theorem mem_remaining {weights : VarTable Float} :
    v ∈ remaining elimination weights count ↔ v.index < count ∧ v ∉ elimination := by
  unfold remaining
  rw [List.mem_mergeSort, List.mem_filter, Var.mem_range, Bool.not_eq_true', Bool.eq_false_iff,
    ne_eq, VarTable.get_marking]
  exact and_congr_right fun hv => not_congr (and_iff_left hv)

/-- **What was not eliminated follows by weight**, and by index where weights are
equal. -/
theorem pairwise_remaining (elimination : List Var) (weights : VarTable Float) (count : Nat) :
    (remaining elimination weights count).Pairwise (Precedes weights) := by
  have hrange : (Var.range count).Pairwise fun v w => v.index < w.index :=
    List.pairwise_map.mpr List.pairwise_lt_range
  have hrest := hrange.filter fun v => !(VarTable.marking count elimination)[v]
  have hstable := hrest.mergeSort_stable (fun v w => weightOf weights w ≤ weightOf weights v)
    (fun u v w huv hvw => by
      simp only [decide_eq_true_eq, weightOf_le_iff] at *
      exact hvw.trans huv)
    (fun v w => by
      simp only [Bool.or_eq_true, decide_eq_true_eq, weightOf_le_iff]
      exact le_total _ _)
  exact hstable.imp fun ⟨hle, hequal⟩ =>
    ⟨of_decide_eq_true hle, fun h => hequal (decide_eq_true h)⟩

/-- **Every variable is listed once**, if the elimination lists some variables once. -/
theorem perm_elimination_remaining (hnodup : elimination.Nodup)
    (hlt : ∀ v ∈ elimination, v.index < count) (weights : VarTable Float) :
    (elimination.reverse ++ remaining elimination weights count).Perm (Var.range count) := by
  have hrest : (remaining elimination weights count).Nodup :=
    (List.mergeSort_perm _ _).nodup_iff.mpr ((Var.nodup_range count).filter _)
  have happart : elimination.reverse.Disjoint (remaining elimination weights count) :=
    fun v hv hin => (mem_remaining.mp hin).2 (List.mem_reverse.mp hv)
  refine (List.perm_ext_iff_of_nodup ((List.nodup_reverse.mpr hnodup).append hrest happart)
    (Var.nodup_range count)).mpr fun v => ?_
  rw [List.mem_append, List.mem_reverse, mem_remaining, Var.mem_range]
  constructor
  · rintro (hv | hv)
    · exact hlt v hv
    · exact hv.1
  · intro hv
    by_cases hin : v ∈ elimination
    · exact Or.inl hin
    · exact Or.inr ⟨hv, hin⟩

end VarOrder

end Cleave
