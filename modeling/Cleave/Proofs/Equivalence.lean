import Cleave.Equivalence
import Cleave.Proofs.Meaning

/-!
# Classes of equivalent literals

`Equivalences.root` is what the classes mean: the literal that the pointers
lead to. It commutes with negation (`root_flipUnless`), looking a literal up
does not change it (`find_spec`), and uniting two literals replaces the root
with the larger variable by the other one, everywhere and nowhere else
(`union?_spec`).

A valuation that respects the classes gives a literal and its root the same
value (`Respects`). Uniting literals to which it gives one value never fails.
-/

namespace Cleave

namespace Lit

variable (l : Lit) (a b : Bool)

@[simp] theorem flipUnless_true : l.flipUnless true = l := rfl

@[simp] theorem var_flipUnless : (l.flipUnless a).var = l.var := by
  cases a <;> rfl

theorem positive_flipUnless : (l.flipUnless a).positive = (l.positive == a) := by
  cases a <;> cases h : l.positive <;> simp [flipUnless, neg, h]

/-- Flipping twice is flipping back. -/
@[simp] theorem flipUnless_flipUnless : (l.flipUnless a).flipUnless a = l := by
  cases a
  · exact neg_neg l
  · rfl

/-- A literal is its variable, flipped unless it is positive. -/
theorem pos_flipUnless : l.var.pos.flipUnless l.positive = l := by
  obtain ⟨v, p⟩ := l
  cases p <;> rfl

theorem flipUnless_positive : l.flipUnless l.positive = l.var.pos := by
  obtain ⟨v, p⟩ := l
  cases p <;> rfl

theorem holds_flipUnless (ν : Valuation) : (l.flipUnless a).holds ν = (l.holds ν == a) := by
  cases a <;> simp [flipUnless]

end Lit

namespace Equivalences

variable {e e' : Equivalences}

/-! ## Roots -/

/-- The pointer of a variable is followed if it leads to a smaller one. -/
theorem root_of_lt {l : Lit} (h : (e.parent[l.var]).var.index < l.var.index) :
    e.root l = e.root ((e.parent[l.var]).flipUnless l.positive) := by
  rw [root, if_pos h]

theorem root_of_not_lt {l : Lit} (h : ¬ (e.parent[l.var]).var.index < l.var.index) :
    e.root l = l := by
  rw [root, if_neg h]

/-- The root is never of a larger variable. -/
theorem index_root_le (e : Equivalences) (l : Lit) : (e.root l).var.index ≤ l.var.index := by
  fun_induction root e l with
  | case1 l next h ih =>
    rw [Lit.var_flipUnless] at ih
    exact Nat.le_trans ih (Nat.le_of_lt h)
  | case2 l next h => exact Nat.le_refl _

/-- **The classes are closed under negation.** -/
theorem root_flipUnless (e : Equivalences) (l : Lit) (a : Bool) :
    e.root (l.flipUnless a) = (e.root l).flipUnless a := by
  fun_induction root e l generalizing a with
  | case1 l next h ih =>
    have hstep : (e.parent[(l.flipUnless a).var]).var.index < (l.flipUnless a).var.index := by
      rw [Lit.var_flipUnless]
      exact h
    rw [root_of_lt hstep, ← ih a]
    congr 1
    rw [Lit.var_flipUnless, Lit.positive_flipUnless]
    cases a <;> cases l.positive <;> simp [Lit.flipUnless, next]
  | case2 l next h => exact root_of_not_lt (by rw [Lit.var_flipUnless]; exact h)

/-- A literal has the root of its variable, flipped as it is. -/
theorem root_eq_flipUnless (e : Equivalences) (l : Lit) :
    e.root l = (e.root l.var.pos).flipUnless l.positive := by
  rw [← root_flipUnless, Lit.pos_flipUnless]

/-- A root is its own root. -/
theorem root_root (e : Equivalences) (l : Lit) : e.root (e.root l) = e.root l := by
  fun_induction root e l with
  | case1 l next h ih => exact ih
  | case2 l next h => exact root_of_not_lt h

/-- Both literals of a root's variable are roots. -/
theorem root_of_root_var {l m : Lit} (hm : e.root m = m) (hv : l.var = m.var) : e.root l = l := by
  rw [root_eq_flipUnless, hv, ← Lit.flipUnless_positive m, root_flipUnless, hm,
    Lit.flipUnless_positive, ← hv, Lit.pos_flipUnless]

/-- Without pointers every known literal is its own root. -/
theorem root_discrete {count : Nat} {l : Lit} (hl : l.var.index < count) :
    (discrete count).root l = l := by
  refine root_of_not_lt ?_
  have hget : (discrete count).parent[l.var] = l.var.pos := by
    show ((Var.range count).map Var.pos).toArray.getD l.var.index default = _
    simp [Var.range, Array.getD, hl]
  rw [hget]
  exact Nat.lt_irrefl _

/-- Following pointers is the only function that takes the same steps. -/
theorem root_unique {f : Lit → Lit}
    (hstep : ∀ l, (e.parent[l.var]).var.index < l.var.index →
      f l = f ((e.parent[l.var]).flipUnless l.positive))
    (hstop : ∀ l, ¬ (e.parent[l.var]).var.index < l.var.index → f l = l) (l : Lit) :
    e.root l = f l := by
  fun_induction root e l with
  | case1 l next h ih => rw [ih, hstep l h]
  | case2 l next h => exact (hstop l h).symm

/-! ## Looking up -/

/-- A shorter way to the root leads to the same roots. -/
theorem root_shortcut {v : Var} (hlt : (e.root v.pos).var.index < v.index)
    (hsize : v.index < e.parent.size) (l : Lit) :
    (⟨e.parent.set v (e.root v.pos)⟩ : Equivalences).root l = e.root l := by
  have hget : ∀ w, (⟨e.parent.set v (e.root v.pos)⟩ : Equivalences).parent[w]
      = if v = w then e.root v.pos else e.parent[w] := by
    intro w
    show (e.parent.set v (e.root v.pos))[w] = _
    rw [VarTable.get_set]
    simp [hsize]
  refine root_unique (fun m hm => ?_) (fun m hm => ?_) l
  · rw [hget] at hm ⊢
    by_cases hv : v = m.var
    · rw [if_pos hv, root_flipUnless, root_root, hv, ← root_eq_flipUnless]
    · rw [if_neg hv] at hm ⊢
      exact root_of_lt hm
  · rw [hget] at hm
    by_cases hv : v = m.var
    · rw [if_pos hv, ← hv] at hm
      exact absurd hlt hm
    · rw [if_neg hv] at hm
      exact root_of_not_lt hm

/-- **What a shorter way to a root keeps**, shortening all pointers on the way
keeps. -/
theorem compress_keeps {P : Equivalences → Prop}
    (hstep : ∀ {e : Equivalences} {v : Var}, P e → v.index < e.parent.size →
      (e.root v.pos).var.index < v.index → P ⟨e.parent.set v (e.root v.pos)⟩)
    {v : Var} {target : Lit} (htarget : target = e.root v.pos) (hsize : v.index < e.parent.size)
    (he : P e) : P (e.compress v target) := by
  fun_induction compress e v target with
  | case1 e v target next h ih =>
    have hnext : e.root v.pos = e.root next := root_of_lt h
    have hlt : (e.root v.pos).var.index < v.index :=
      hnext ▸ Nat.lt_of_le_of_lt (e.index_root_le next) h
    have hsame := root_shortcut hlt hsize
    rw [← htarget] at hsame
    refine ih ?_ (by rw [VarTable.size_set]; exact Nat.lt_trans h hsize)
      (htarget ▸ hstep he hsize hlt)
    rw [hsame, htarget, hnext, root_eq_flipUnless e next, Lit.flipUnless_flipUnless]
  | case2 e v target next h => exact he

/-- Shortening the pointers on the way keeps all roots. -/
theorem root_compress {v : Var} {target : Lit} (htarget : target = e.root v.pos)
    (hsize : v.index < e.parent.size) :
    (e.compress v target).parent.size = e.parent.size
      ∧ ∀ l, (e.compress v target).root l = e.root l := by
  refine compress_keeps (P := fun e' => e'.parent.size = e.parent.size ∧ ∀ l, e'.root l = e.root l)
    (fun {e' w} h hw hlt => ?_) htarget hsize ⟨rfl, fun _ => rfl⟩
  exact ⟨(VarTable.size_set _ _ _).trans h.1, fun l => (root_shortcut hlt hw l).trans (h.2 l)⟩

/-- **Looking up gives the root** and changes none. -/
theorem find_spec {l : Lit} (hl : l.var.index < e.parent.size) :
    (e.find l).1 = e.root l ∧ (e.find l).2.parent.size = e.parent.size
      ∧ ∀ m, (e.find l).2.root m = e.root m :=
  ⟨(e.root_eq_flipUnless l).symm, root_compress rfl hl⟩

/-- Looking up several literals gives their roots. -/
theorem findAll_spec (ls : List Lit) {e : Equivalences}
    (hls : ∀ l ∈ ls, l.var.index < e.parent.size) :
    (e.findAll ls).1 = ls.map e.root ∧ (e.findAll ls).2.parent.size = e.parent.size
      ∧ ∀ m, (e.findAll ls).2.root m = e.root m := by
  induction ls generalizing e with
  | nil => exact ⟨rfl, rfl, fun _ => rfl⟩
  | cons l rest ih =>
    obtain ⟨hl, hsize, hroot⟩ := find_spec (hls l List.mem_cons_self)
    obtain ⟨hrest, hsize', hroot'⟩ := ih (e := (e.find l).2) fun m hm =>
      hsize ▸ hls m (List.mem_cons_of_mem _ hm)
    refine ⟨?_, hsize'.trans hsize, fun m => (hroot' m).trans (hroot m)⟩
    show (e.find l).1 :: ((e.find l).2.findAll rest).1 = _
    rw [hl, hrest, List.map_cons, List.map_congr_left fun m _ => hroot m]

/-! ## Uniting -/

/-- A literal with `other` replaced by `keep`. -/
def replace (keep other l : Lit) : Lit :=
  if l.var = other.var then (keep.flipUnless other.positive).flipUnless l.positive else l

/-- **Redirecting a root**: all that led to `other` leads to `keep` then. -/
theorem root_redirect {keep other : Lit} (hkeep : e.root keep = keep)
    (hother : e.root other = other) (hlt : keep.var.index < other.var.index)
    (hsize : other.var.index < e.parent.size) (l : Lit) :
    (⟨e.parent.set other.var (keep.flipUnless other.positive)⟩ : Equivalences).root l
      = replace keep other (e.root l) := by
  have hget : ∀ w, (⟨e.parent.set other.var (keep.flipUnless other.positive)⟩ :
      Equivalences).parent[w]
        = if other.var = w then keep.flipUnless other.positive else e.parent[w] := by
    intro w
    show (e.parent.set other.var (keep.flipUnless other.positive))[w] = _
    rw [VarTable.get_set]
    simp [hsize]
  refine root_unique (f := fun l => replace keep other (e.root l)) (fun m hm => ?_)
    (fun m hm => ?_) l
  · rw [hget] at hm ⊢
    by_cases hv : other.var = m.var
    · have hne : keep.var ≠ other.var := fun h => Nat.lt_irrefl _ (h ▸ hlt)
      rw [if_pos hv, root_of_root_var hother hv.symm, root_flipUnless, root_flipUnless, hkeep]
      simp [replace, hv.symm, hne]
    · rw [if_neg hv] at hm ⊢
      rw [root_of_lt hm]
  · rw [hget] at hm
    by_cases hv : other.var = m.var
    · rw [if_pos hv, Lit.var_flipUnless, ← hv] at hm
      exact absurd hlt hm
    · rw [if_neg hv] at hm
      rw [root_of_not_lt hm]
      exact if_neg fun h => hv h.symm

theorem replace_self (keep l : Lit) : replace keep keep l = l := by
  unfold replace
  split
  · rename_i hv
    rw [Lit.flipUnless_positive, ← hv, Lit.pos_flipUnless]
  · rfl

theorem replace_other (keep other : Lit) : replace keep other other = keep := by
  unfold replace
  rw [if_pos rfl, Lit.flipUnless_flipUnless]

theorem replace_of_var_ne {keep other l : Lit} (h : l.var ≠ other.var) :
    replace keep other l = l :=
  if_neg h

theorem replace_neg (keep other l : Lit) :
    replace keep other l.neg = (replace keep other l).neg := by
  unfold replace
  rw [Lit.var_neg]
  split
  · obtain ⟨v, p⟩ := l
    cases p
    · exact (Lit.neg_neg _).symm
    · rfl
  · rfl

/-- A literal is replaced with its sign, or not at all. -/
theorem replace_cases (keep other l : Lit) :
    replace keep other l = l ∨ (l = other ∧ replace keep other l = keep)
      ∨ (l = other.neg ∧ replace keep other l = keep.neg) := by
  by_cases hv : l.var = other.var
  · rcases Lit.eq_or_eq_neg hv with rfl | rfl
    · exact Or.inr (Or.inl ⟨rfl, replace_other keep _⟩)
    · exact Or.inr (Or.inr ⟨rfl, by rw [replace_neg, replace_other]⟩)
  · exact Or.inl (replace_of_var_ne hv)

/-- **Uniting two literals**: it fails if their roots are opposite, and else
replaces one root by the other, so that the literals have one root then. -/
theorem union?_spec {a b : Lit} (ha : a.var.index < e.parent.size)
    (hb : b.var.index < e.parent.size) :
    (e.union? a b = none ∧ e.root a = (e.root b).neg)
      ∨ ∃ e' keep other, e.union? a b = some e' ∧ e'.parent.size = e.parent.size
        ∧ ((keep = e.root a ∧ other = e.root b) ∨ (keep = e.root b ∧ other = e.root a))
        ∧ (∀ l, e'.root l = replace keep other (e.root l)) ∧ e'.root a = e'.root b := by
  obtain ⟨hra, hsize₁, hroot₁⟩ := find_spec ha
  obtain ⟨hrb, hsize₂, hroot₂⟩ := find_spec (e := (e.find a).2) (hsize₁ ▸ hb)
  have hsize : ((e.find a).2.find b).2.parent.size = e.parent.size := hsize₂.trans hsize₁
  have hroot : ∀ l, ((e.find a).2.find b).2.root l = e.root l := fun l =>
    (hroot₂ l).trans (hroot₁ l)
  rw [hroot₁] at hrb
  unfold union?
  simp only
  rw [hra, hrb]
  split
  · rename_i heq
    refine Or.inr ⟨_, e.root a, e.root b, rfl, hsize, Or.inl ⟨rfl, rfl⟩, fun l => ?_, ?_⟩
    · rw [hroot, heq, replace_self]
    · rw [hroot, hroot, heq]
  · rename_i hne
    split
    · rename_i hopp
      exact Or.inl ⟨rfl, hopp⟩
    · rename_i hnopp
      have hvar : (e.root a).var.index ≠ (e.root b).var.index := fun h =>
        (Lit.eq_or_eq_neg (Var.index_inj.mp h)).elim hne hnopp
      have hla := e.index_root_le a
      have hlb := e.index_root_le b
      -- the smaller variable stays
      have hredirect : ∀ keep other, e.root keep = keep → e.root other = other →
          keep.var.index < other.var.index → other.var.index < e.parent.size → ∀ l,
          (⟨((e.find a).2.find b).2.parent.set other.var (keep.flipUnless other.positive)⟩ :
            Equivalences).root l = replace keep other (e.root l) := by
        intro keep other hkeep hother hlt hin l
        rw [root_redirect (by rw [hroot, hkeep]) (by rw [hroot, hother]) hlt (hsize ▸ hin), hroot]
      have hne' : (e.root a).var ≠ (e.root b).var := fun h => hvar (congrArg Var.index h)
      by_cases hlt : (e.root a).var.index < (e.root b).var.index
      · rw [if_pos hlt]
        have hall := hredirect (e.root a) (e.root b) (e.root_root a) (e.root_root b) hlt (by omega)
        refine Or.inr ⟨_, e.root a, e.root b, rfl, (VarTable.size_set _ _ _).trans hsize,
          Or.inl ⟨rfl, rfl⟩, hall, ?_⟩
        rw [hall, hall, replace_other, replace_of_var_ne hne']
      · rw [if_neg hlt]
        have hall := hredirect (e.root b) (e.root a) (e.root_root b) (e.root_root a)
          (by omega) (by omega)
        refine Or.inr ⟨_, e.root b, e.root a, rfl, (VarTable.size_set _ _ _).trans hsize,
          Or.inr ⟨rfl, rfl⟩, hall, ?_⟩
        rw [hall, hall, replace_other, replace_of_var_ne hne'.symm]

/-! ## Valuations -/

/-- **A valuation respects the classes** if it gives every known literal the
value of its root. -/
def Respects (e : Equivalences) (ν : Valuation) : Prop :=
  ∀ l : Lit, l.var.index < e.parent.size → (e.root l).holds ν = l.holds ν

/-- Uniting literals of one value never fails. -/
theorem Respects.union?_ne_none {ν : Valuation} (h : e.Respects ν) {a b : Lit}
    (ha : a.var.index < e.parent.size) (hb : b.var.index < e.parent.size)
    (hab : a.holds ν = b.holds ν) : e.union? a b ≠ none := by
  intro hnone
  rcases union?_spec ha hb with ⟨-, hopp⟩ | ⟨e', keep, other, he', -⟩
  · have hval := h a ha
    rw [hopp, Lit.holds_neg, h b hb, hab] at hval
    exact absurd hval (by simp)
  · rw [hnone] at he'
    cases he'

end Equivalences

end Cleave
