import Cleave.Clause
import Cleave.Proofs.Tables
import Mathlib.Data.List.Nodup

/-!
# Entailment and normal forms

Small laws of `Satisfiable` and `Entails`, and what `Clause.normalize` means:
the normal form of a clause holds exactly where the clause does, mentions
each of its variables once, and is missing only for tautologies.
-/

namespace Cleave

theorem Clause.holds_iff {ν : Valuation} {c : Clause} :
    c.holds ν = true ↔ ∃ l ∈ c, l.holds ν = true := by
  simp [Clause.holds]

theorem allHold_iff {ν : Valuation} {cs : List Clause} :
    allHold ν cs = true ↔ ∀ c ∈ cs, c.holds ν = true := by
  simp [allHold]

theorem Lit.holds_iff {ν : Valuation} {l : Lit} : l.holds ν = true ↔ ν l.var = l.positive := by
  simp [Lit.holds]

theorem Lit.holds_congr {ν ν' : Valuation} {l : Lit} (h : ν l.var = ν' l.var) :
    l.holds ν = l.holds ν' := by
  unfold Lit.holds
  rw [h]

/-- Only the variables of a clause matter to it. -/
theorem Clause.holds_congr {ν ν' : Valuation} {c : Clause} (h : ∀ l ∈ c, ν l.var = ν' l.var) :
    c.holds ν = c.holds ν' := by
  rw [Bool.eq_iff_iff, Clause.holds_iff, Clause.holds_iff]
  refine exists_congr fun l => and_congr_right fun hl => ?_
  rw [Lit.holds_congr (h l hl)]

/-- Two true literals of one variable are the same. -/
theorem Lit.eq_of_holds {ν : Valuation} {l m : Lit} (hv : l.var = m.var)
    (hl : l.holds ν = true) (hm : m.holds ν = true) : l = m :=
  Lit.eq_of_var_eq hv (by rw [← Lit.holds_iff.mp hl, ← Lit.holds_iff.mp hm, hv])

theorem Lit.not_holds_of_neg {ν : Valuation} {l : Lit} (h : l.neg.holds ν = true) :
    l.holds ν = false := by
  simpa using h

theorem Lit.neg_holds_of_not {ν : Valuation} {l : Lit} (h : l.holds ν = false) :
    l.neg.holds ν = true := by
  simpa using h

theorem Clause.holds_singleton {ν : Valuation} {l : Lit} :
    Clause.holds ν [l] = true ↔ l.holds ν = true := by
  simp [Clause.holds]

theorem Clause.holds_pair {ν : Valuation} {a b : Lit} :
    Clause.holds ν [a, b] = true ↔ a.holds ν = true ∨ b.holds ν = true := by
  simp [Clause.holds]

/-- Which literals hold in a clause does not depend on their order. -/
theorem Clause.holds_mono {ν : Valuation} {c d : Clause} (h : ∀ l ∈ c, l ∈ d)
    (hc : c.holds ν = true) : d.holds ν = true := by
  obtain ⟨l, hl, hlν⟩ := Clause.holds_iff.mp hc
  exact Clause.holds_iff.mpr ⟨l, h l hl, hlν⟩

theorem Clause.holds_perm {ν : Valuation} {c d : Clause} (h : c.Perm d) :
    c.holds ν = d.holds ν :=
  Bool.eq_iff_iff.mpr
    ⟨Clause.holds_mono fun _ hl => h.mem_iff.mp hl, Clause.holds_mono fun _ hl => h.mem_iff.mpr hl⟩

/-- A clause that holds has a true literal besides the false ones. -/
theorem Clause.holds_of_others_false {ν : Valuation} {c : Clause} {l : Lit}
    (hc : c.holds ν = true) (h : ∀ m ∈ c, m ≠ l → m.holds ν = false) : l.holds ν = true := by
  obtain ⟨m, hm, hmν⟩ := Clause.holds_iff.mp hc
  by_cases hml : m = l
  · exact hml ▸ hmν
  · rw [h m hm hml] at hmν
    exact absurd hmν (by simp)

namespace Entails

variable {cs ds : List Clause} {c d : Clause}

theorem of_mem (h : c ∈ cs) : Entails cs c := fun _ hν => allHold_iff.mp hν c h

/-- More premises entail as much. -/
theorem mono (h : Entails cs c) (hsub : ∀ d ∈ cs, d ∈ ds) : Entails ds c :=
  fun ν hν => h ν (allHold_iff.mpr fun d hd => allHold_iff.mp hν d (hsub d hd))

/-- More literals are entailed as well. -/
theorem weaken (h : Entails cs c) (hsub : ∀ l ∈ c, l ∈ d) : Entails cs d :=
  fun ν hν => Clause.holds_mono hsub (h ν hν)

theorem perm (h : Entails cs c) (hp : c.Perm d) : Entails cs d :=
  h.weaken fun _ hl => hp.mem_iff.mp hl

theorem lit {l : Lit} (h : Entails cs [l]) {ν : Valuation} (hν : allHold ν cs = true) :
    l.holds ν = true :=
  Clause.holds_singleton.mp (h ν hν)

/-- Entailed clauses that no valuation satisfies leave no model. -/
theorem not_satisfiable (h : ∀ ν, allHold ν cs = true → False) : ¬ Satisfiable cs :=
  fun ⟨ν, hν⟩ => h ν hν

/-- Clauses without a model entail everything. -/
theorem of_not_satisfiable (h : ¬ Satisfiable cs) (c : Clause) : Entails cs c :=
  fun ν hν => absurd ⟨ν, hν⟩ h

end Entails

/-! ## Normal forms -/

theorem mem_squeeze {α : Type} [DecidableEq α] {a : α} (xs : List α) :
    a ∈ squeeze xs ↔ a ∈ xs := by
  fun_induction squeeze xs with
  | case1 b rest ih => simp_all
  | case2 b c rest h ih => simp_all
  | case3 => rfl

/-- Sorting by a number puts the elements in its order. -/
theorem pairwise_mergeSort_key {α : Type} (key : α → Nat) (xs : List α) :
    (xs.mergeSort fun a b => key a ≤ key b).Pairwise fun a b => key a ≤ key b := by
  have h : (xs.mergeSort fun a b => decide (key a ≤ key b)).Pairwise
      fun a b => decide (key a ≤ key b) = true :=
    List.pairwise_mergeSort (fun a b c hab hbc => by simp at *; omega)
      (fun a b => by simp; omega) xs
  exact h.imp fun hab => by simpa using hab

/-- Sorting by a number of its own for each element forgets the order. -/
theorem mergeSort_key_perm {α : Type} (key : α → Nat) (hkey : ∀ a b, key a = key b → a = b)
    {xs ys : List α} (h : xs.Perm ys) :
    (xs.mergeSort fun a b => key a ≤ key b) = ys.mergeSort fun a b => key a ≤ key b := by
  refine List.Perm.eq_of_pairwise (fun a b _ _ hab hba => hkey a b (Nat.le_antisymm hab hba))
    (pairwise_mergeSort_key key xs) (pairwise_mergeSort_key key ys) ?_
  exact (List.mergeSort_perm _ _).trans (h.trans (List.mergeSort_perm _ _).symm)

/-- Squeezing a list that is sorted by any order leaves it strictly sorted. -/
theorem pairwise_squeeze_of_order {α : Type} [DecidableEq α] {le lt : α → α → Prop}
    (hlt : ∀ a b, le a b → a ≠ b → lt a b) (htrans : ∀ a b c, lt a b → le b c → lt a c)
    (xs : List α) (h : xs.Pairwise le) : (squeeze xs).Pairwise lt := by
  fun_induction squeeze xs with
  | case1 b rest ih => exact ih h.of_cons
  | case2 b c rest hne ih =>
    refine List.Pairwise.cons (fun x hx => ?_) (ih h.of_cons)
    have hx' := (mem_squeeze (c :: rest)).mp hx
    have hbc : lt b c := hlt b c ((List.pairwise_cons.mp h).1 c (by simp)) hne
    rcases List.mem_cons.mp hx' with hxc | hxr
    · exact hxc ▸ hbc
    · exact htrans b c x hbc ((List.pairwise_cons.mp h.of_cons).1 x hxr)
  | case3 xs hshort =>
    match xs, hshort with
    | [], _ => simp
    | [a], _ => simp
    | a :: b :: rest, hshort => exact absurd rfl (hshort a b rest)

/-- Squeezing a sorted list leaves it strictly sorted. -/
theorem pairwise_squeeze {α : Type} [DecidableEq α] {key : α → Nat}
    (hkey : ∀ a b, key a = key b → a = b) (xs : List α)
    (h : xs.Pairwise fun a b => key a ≤ key b) :
    (squeeze xs).Pairwise fun a b => key a < key b :=
  pairwise_squeeze_of_order
    (fun a b hle hne => Nat.lt_of_le_of_ne hle fun heq => hne (hkey a b heq))
    (fun _ _ _ => Nat.lt_of_lt_of_le) xs h

/-- A strictly sorted list is known by its members. -/
theorem eq_of_sorted {α : Type} {lt : α → α → Prop} (hasymm : ∀ a b, lt a b → ¬ lt b a)
    {xs ys : List α} (hxs : xs.Pairwise lt) (hys : ys.Pairwise lt) (h : ∀ a, a ∈ xs ↔ a ∈ ys) :
    xs = ys := by
  have hne : ∀ {a b}, lt a b → a ≠ b := by
    rintro a b hlt rfl
    exact hasymm a a hlt hlt
  have hperm : xs.Perm ys := (List.perm_ext_iff_of_nodup (hxs.imp hne) (hys.imp hne)).mpr h
  exact hperm.eq_of_pairwise (fun a b _ _ hab hba => absurd hba (hasymm a b hab)) hxs hys

namespace Clause

/-- **A tautology** has some literal together with its opposite. -/
def Tautology (c : Clause) : Prop := ∃ l ∈ c, l.neg ∈ c

theorem Tautology.holds {c : Clause} (h : c.Tautology) (ν : Valuation) : c.holds ν = true := by
  obtain ⟨l, hl, hneg⟩ := h
  cases hν : l.holds ν with
  | true => exact holds_iff.mpr ⟨l, hl, hν⟩
  | false => exact holds_iff.mpr ⟨l.neg, hneg, Lit.neg_holds_of_not hν⟩

theorem Tautology.mono {c d : Clause} (h : c.Tautology) (hsub : ∀ l ∈ c, l ∈ d) : d.Tautology :=
  h.imp fun _ hl => ⟨hsub _ hl.1, hsub _ hl.2⟩

/-- A clause that mentions every variable once is none. -/
theorem not_tautology_of_nodup_vars {c : Clause} (h : (c.map Lit.var).Nodup) :
    ¬ c.Tautology := by
  rintro ⟨l, hl, hneg⟩
  have he : l = l.neg := List.inj_on_of_nodup_map h hl hneg rfl
  simpa [Lit.neg] using congrArg Lit.positive he

/-- A clause with two opposite neighbours is a tautology. -/
theorem tautology_of_hasOpposite {c : Clause} (h : c.hasOpposite = true) : c.Tautology := by
  fun_induction hasOpposite c with
  | case1 a b rest ih =>
    simp only [Bool.or_eq_true, decide_eq_true_eq] at h
    rcases h with rfl | hrest
    · exact ⟨b, by simp, by simp⟩
    · exact (ih hrest).mono fun l hl => List.mem_cons_of_mem a hl
  | case2 => simp at h

/-- A strictly sorted clause without opposite neighbours mentions every
variable once. -/
theorem nodup_vars_of_sorted {c : Clause} (hs : c.Pairwise fun a b => a.code < b.code)
    (ho : c.hasOpposite = false) : (c.map Lit.var).Nodup := by
  fun_induction hasOpposite c with
  | case1 a b rest ih =>
    simp only [Bool.or_eq_false_iff, decide_eq_false_iff_not] at ho
    refine List.nodup_cons.mpr ⟨fun hmem => ?_, ih hs.of_cons ho.2⟩
    obtain ⟨x, hx, hxv⟩ := List.mem_map.mp hmem
    have hax : a.code < x.code := (List.pairwise_cons.mp hs).1 x hx
    have hab : a.code < b.code := (List.pairwise_cons.mp hs).1 b (by simp)
    -- between the two literals of a variable there is no other rank
    have hbx : b.code ≤ x.code := by
      rcases List.mem_cons.mp hx with rfl | hxr
      · exact Nat.le_refl _
      · exact Nat.le_of_lt ((List.pairwise_cons.mp hs.of_cons).1 x hxr)
    have hcode : b.code = x.code := by
      have ha := a.code_bounds
      have hx := x.code_bounds
      rw [hxv] at hx
      omega
    have hbx' : b = x := Lit.code_inj.mp hcode
    subst hbx'
    rcases Lit.eq_or_eq_neg hxv.symm with he | he
    · exact absurd (he ▸ hab) (Nat.lt_irrefl _)
    · exact ho.1 he
  | case2 c hshort =>
    match c, hshort with
    | [], _ => simp
    | [a], _ => simp
    | a :: b :: rest, hshort => exact absurd rfl (hshort a b rest)

/-- **The normal form has the literals of the clause.** -/
theorem mem_of_normalize {c d : Clause} (h : c.normalize = some d) (l : Lit) :
    l ∈ d ↔ l ∈ c := by
  unfold normalize at h
  simp only at h
  split at h
  · exact absurd h (by simp)
  · cases h
    rw [mem_squeeze, List.mem_mergeSort]

/-- **The normal form is sorted**, and has no opposite literals. -/
theorem sorted_of_normalize {c d : Clause} (h : c.normalize = some d) :
    (d.Pairwise fun a b => a.code < b.code) ∧ d.hasOpposite = false := by
  unfold normalize at h
  simp only at h
  split at h
  · exact absurd h (by simp)
  · rename_i ho
    cases h
    exact ⟨pairwise_squeeze (fun _ _ => Lit.code_inj.mp) _ (pairwise_mergeSort_key Lit.code c),
      by simpa using ho⟩

/-- **The normal form mentions every variable once.** -/
theorem nodup_vars_of_normalize {c d : Clause} (h : c.normalize = some d) :
    (d.map Lit.var).Nodup :=
  have hsorted := sorted_of_normalize h
  nodup_vars_of_sorted hsorted.1 hsorted.2

theorem holds_of_normalize {c d : Clause} (h : c.normalize = some d) (ν : Valuation) :
    d.holds ν = c.holds ν :=
  Bool.eq_iff_iff.mpr
    ⟨holds_mono fun l hl => (mem_of_normalize h l).mp hl,
      holds_mono fun l hl => (mem_of_normalize h l).mpr hl⟩

/-- **Only tautologies have no normal form.** -/
theorem tautology_of_normalize_none {c : Clause} (h : c.normalize = none) : c.Tautology := by
  unfold normalize at h
  simp only at h
  split at h
  · rename_i ho
    refine (tautology_of_hasOpposite ho).mono fun l hl => ?_
    rwa [mem_squeeze, List.mem_mergeSort] at hl
  · exact absurd h (by simp)

/-- **A clause with its variables in ascending order.** -/
def Ascending (c : Clause) : Prop := c.Pairwise fun l m => l.var.index < m.var.index

instance (c : Clause) : Decidable c.Ascending :=
  inferInstanceAs (Decidable (c.Pairwise fun l m => l.var.index < m.var.index))

/-- Such a clause is its own normal form. -/
theorem normalize_of_ascending {c : Clause} (h : c.Ascending) : c.normalize = some c := by
  cases hn : c.normalize with
  | none =>
    have hvars : (c.map Lit.var).Nodup :=
      List.pairwise_map.mpr (h.imp fun hlt he => Nat.ne_of_lt hlt (congrArg Var.index he))
    exact absurd (tautology_of_normalize_none hn) (not_tautology_of_nodup_vars hvars)
  | some d =>
    have hsorted : c.Pairwise fun a b => a.code < b.code := h.imp fun {a b} hlt => by
      have ha := a.code_bounds
      have hb := b.code_bounds
      omega
    exact congrArg some (eq_of_sorted (fun a b => Nat.lt_asymm) (sorted_of_normalize hn).1 hsorted
      (mem_of_normalize hn))

/-- Every variable of a clause lies below its bound. -/
theorem index_lt_varBound {c : Clause} {l : Lit} (h : l ∈ c) : l.var.index < c.varBound :=
  le_foldl_max_of_mem (fun l : Lit => l.var.index + 1) h 0

end Clause

end Cleave
