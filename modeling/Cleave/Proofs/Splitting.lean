import Cleave.Proofs.Decomposition
import Mathlib.SetTheory.Cardinal.Finite

/-!
# Splitting multiplies the numbers of models

The components that a closed component falls into are independent of each
other: an assignment of its open variables satisfies the active clauses exactly
if the restriction to every component satisfies the clauses of that one. So the
number of models is the product of the numbers for the components, with a
factor of two for every free variable (`Solver.Attained.count_split`).

There are two parts to it. Assignments of disjoint lists of variables can be put
together, whatever they have to satisfy (`Assignment.card_parts`). And a clause
is only about the open variables of the component it is in, because the trail
has falsified its other literals (`Solver.holds_restrict`).
-/

namespace Cleave

/-! ## Assignments of lists of variables -/

/-- An assignment of some variables. -/
abbrev Assignment (vs : List Var) : Type := {v // v ∈ vs} → Bool

namespace Assignment

variable {vs ws xs ys : List Var}

/-- The same values for fewer variables. -/
def restrict (a : Assignment vs) (h : ws ⊆ vs) : Assignment ws := fun v => a ⟨v, h v.2⟩

/-- **An assignment of two disjoint lists** is an assignment of each. -/
def splitEquiv (hmem : ∀ v, v ∈ vs ↔ v ∈ xs ∨ v ∈ ys) (hdisjoint : xs.Disjoint ys) :
    Assignment vs ≃ Assignment xs × Assignment ys where
  toFun a := (a.restrict fun v hv => (hmem v).mpr (Or.inl hv),
    a.restrict fun v hv => (hmem v).mpr (Or.inr hv))
  invFun p v :=
    if hx : v.1 ∈ xs then p.1 ⟨v, hx⟩ else p.2 ⟨v, ((hmem v).mp v.2).resolve_left hx⟩
  left_inv a := by
    funext v
    dsimp only
    split <;> rfl
  right_inv p :=
    Prod.ext (funext fun v => dif_pos v.2) (funext fun v => dif_neg fun hx => hdisjoint hx v.2)

/-- Conditions on disjoint lists are met independently. -/
theorem card_split (hmem : ∀ v, v ∈ vs ↔ v ∈ xs ∨ v ∈ ys) (hdisjoint : xs.Disjoint ys)
    (P : Assignment xs → Prop) (Q : Assignment ys → Prop) :
    Nat.card {a : Assignment vs // P (a.restrict fun v hv => (hmem v).mpr (Or.inl hv))
        ∧ Q (a.restrict fun v hv => (hmem v).mpr (Or.inr hv))}
      = Nat.card {a // P a} * Nat.card {a // Q a} := by
  rw [← Nat.card_prod]
  exact Nat.card_congr (((splitEquiv hmem hdisjoint).subtypeEquiv fun _ => Iff.rfl).trans
    Equiv.subtypeProdEquivProd)

/-- There are two values for each variable. -/
theorem card_eq_two_pow (h : vs.Nodup) : Nat.card (Assignment vs) = 2 ^ vs.length := by
  have hcard : Nat.card {v // v ∈ vs} = vs.length := by
    rw [← Nat.card_congr (h.getEquiv vs), Nat.card_fin]
  rw [Nat.card_fun, hcard]
  simp

/-- **Conditions on disjoint components** are met independently of each other,
by induction on the components. -/
theorem card_parts (ks : List Component) {free : List Var}
    (P : ∀ k : Component, Assignment k.vars → Prop)
    (hmem : ∀ v, v ∈ vs ↔ v ∈ ks.flatMap Component.vars ++ free)
    (hnodup : (ks.flatMap Component.vars ++ free).Nodup) (hsub : ∀ k ∈ ks, k.vars ⊆ vs) :
    Nat.card {a : Assignment vs // ∀ k (hk : k ∈ ks), P k (a.restrict (hsub k hk))}
      = (ks.map fun k => Nat.card {a : Assignment k.vars // P k a}).prod * 2 ^ free.length := by
  induction ks generalizing vs with
  | nil =>
    have hall : ∀ a : Assignment vs, ∀ k (hk : k ∈ []), P k (a.restrict (hsub k hk)) :=
      fun a k hk => absurd hk List.not_mem_nil
    have hvs : Assignment vs ≃ Assignment free :=
      (Equiv.subtypeEquivRight hmem).arrowCongr (Equiv.refl Bool)
    have hfree : free.Nodup := hnodup
    rw [Nat.card_congr ((Equiv.subtypeUnivEquiv hall).trans hvs), card_eq_two_pow hfree]
    simp
  | cons k ks ih =>
    rw [List.flatMap_cons, List.append_assoc] at hmem hnodup
    obtain ⟨-, hrest, hapart⟩ := List.nodup_append.mp hnodup
    have hmem : ∀ v, v ∈ vs ↔ v ∈ k.vars ∨ v ∈ ks.flatMap Component.vars ++ free := fun v =>
      (hmem v).trans List.mem_append
    have hsubRest : ∀ k' ∈ ks, k'.vars ⊆ ks.flatMap Component.vars ++ free := fun k' hk' v hv =>
      List.mem_append_left _ (List.mem_flatMap.mpr ⟨k', hk', hv⟩)
    -- the first component, and all the others on what is left
    have hcons : ∀ a : Assignment vs,
        (∀ k' (hk' : k' ∈ k :: ks), P k' (a.restrict (hsub k' hk')))
          ↔ P k (a.restrict fun v hv => (hmem v).mpr (Or.inl hv))
            ∧ ∀ k' (hk' : k' ∈ ks), P k' ((a.restrict fun v hv => (hmem v).mpr (Or.inr hv)).restrict
              (hsubRest k' hk')) := by
      intro a
      refine ⟨fun h => ⟨h k List.mem_cons_self, fun k' hk' => h k' (List.mem_cons_of_mem _ hk')⟩,
        fun ⟨hfirst, hothers⟩ k' hk' => ?_⟩
      rcases List.mem_cons.mp hk' with rfl | hk'
      · exact hfirst
      · exact hothers k' hk'
    rw [Nat.card_congr (Equiv.subtypeEquivRight hcons),
      card_split hmem (fun v hv hv' => hapart v hv v hv' rfl) (P k)
        (fun b => ∀ k' (hk' : k' ∈ ks), P k' (b.restrict (hsubRest k' hk'))),
      ih (fun _ => Iff.rfl) hrest hsubRest, List.map_cons, List.prod_cons, Nat.mul_assoc]

end Assignment

/-! ## Models of components -/

namespace Solver

variable {F : List Clause} {s s' : Solver} {c k : Component} {d : Decomposition}
  {vs ws : List Var}

/-- **The trail, completed** by an assignment of open variables. -/
def completed (s : Solver) (a : Assignment vs) : Valuation := fun v =>
  if h : v ∈ vs then a ⟨v, h⟩ else s.trail.isTrue v.pos

/-- **A model of a component**: an assignment of its open variables that, with
the trail, satisfies the active clauses. -/
def ModelOf (s : Solver) (c : Component) (a : Assignment (s.openVars c)) : Prop :=
  ∀ clause, s.Active c clause → clause.holds (s.completed a) = true

/-- **A model of a piece**: an assignment that, with the trail, satisfies the
long clauses listed and the given binary clauses between the variables. -/
structure PieceModel (s : Solver) (k : Component) (a : Assignment k.vars) : Prop where
  long : ∀ id ∈ k.clauses, (s.store.lits id).holds (s.completed a) = true
  binary : ∀ l m, m ∈ s.store.partners l → l.var ∈ k.vars → m.var ∈ k.vars →
    Clause.holds (s.completed a) [l, m] = true

/-- **No clause is unit or false**: every given clause without a true literal
has two open ones at least. -/
def Unforced (s : Solver) : Prop :=
  ∀ clause, s.store.Given clause → (∀ l ∈ clause, l ∉ s.trail.lits.toList) →
    2 ≤ (clause.filter fun l => !s.trail.isAssigned l.var).length

/-- A clause is only about its open variables. -/
theorem holds_restrict {clause : Clause} (a : Assignment vs) (hsub : ws ⊆ vs)
    (hopen : ∀ v ∈ vs, s.trail.isAssigned v = false)
    (hclause : ∀ l ∈ clause, s.trail.isAssigned l.var = false → l.var ∈ ws) :
    clause.holds (s.completed (a.restrict hsub)) = clause.holds (s.completed a) := by
  refine Clause.holds_congr fun l hl => ?_
  unfold completed
  by_cases hws : l.var ∈ ws
  · rw [dif_pos hws, dif_pos (hsub hws)]
    rfl
  · have hvs : l.var ∉ vs := fun hv => hws (hclause l hl (hopen _ hv))
    rw [dif_neg hws, dif_neg hvs]

theorem isOpen_of_two {l m : Lit}
    (htwo : 2 ≤ ([l, m].filter fun x => !s.trail.isAssigned x.var).length) :
    s.trail.isAssigned l.var = false ∧ s.trail.isAssigned m.var = false := by
  have hall : ([l, m].filter fun x => !s.trail.isAssigned x.var) = [l, m] :=
    List.Sublist.eq_of_length_le List.filter_sublist htwo
  have hopen := List.filter_eq_self.mp hall
  exact ⟨by simpa using hopen l (by simp), by simpa using hopen m (by simp)⟩

/-- Both literals of an active pair are open. -/
theorem Unforced.pair (h : s.Unforced) {l m : Lit} (hpair : m ∈ s.store.partners l)
    (hactive : ∀ x ∈ [l, m], x ∉ s.trail.lits.toList) :
    s.trail.isAssigned l.var = false ∧ s.trail.isAssigned m.var = false :=
  isOpen_of_two (h [l, m] (Or.inr ⟨l, m, hpair, rfl⟩) hactive)

/-! ## Independent components -/

namespace Partitions

variable (hd : s.Partitions c d)

include hd

theorem vars_subset (hk : k ∈ d.components) : k.vars ⊆ s.openVars c := fun v hv =>
  mem_openVars.mpr ((hd.mem_vars v).mp
    (List.mem_append_left _ (List.mem_flatMap.mpr ⟨k, hk, hv⟩)))

/-- The clauses of a component are active, and about its variables. -/
theorem active (hs : Sound F s) (hids : ∀ id ∈ c.clauses, s.store.Gives id)
    (hclosed : s.Closed c) (hk : k ∈ d.components) {id : ClauseId} (hid : id ∈ k.clauses) :
    s.Active c (s.store.lits id)
      ∧ ∀ l ∈ s.store.lits id, s.trail.isAssigned l.var = false → l.var ∈ k.vars := by
  obtain ⟨hactive, v, hv, l, hl, rfl⟩ :=
    (hd.mem_clauses id).mp (List.mem_flatMap.mpr ⟨k, hk, hid⟩)
  have hgives := hids id hactive.1
  have hclause : s.Active c (s.store.lits id) := by
    refine ⟨Or.inl ⟨id, hgives.1, hgives.2, rfl⟩, fun m hm htrue => ?_, l, hl, hv⟩
    have hsat := (hs.isSatisfied_iff id).mpr ⟨m, hm, htrue⟩
    rw [hactive.2] at hsat
    cases hsat
  exact ⟨hclause, fun m hm hopen =>
    hd.whole k hk id hid m.var ⟨hclosed.vars _ hclause m hm hopen, hopen⟩ ⟨m, hm, rfl⟩⟩

/-- An active long clause is in some component. -/
theorem exists_of_long (hs : Sound F s) (hclosed : s.Closed c) {id : ClauseId}
    (hgives : s.store.Gives id) (hactive : s.Active c (s.store.lits id)) :
    ∃ k ∈ d.components, id ∈ k.clauses := by
  obtain ⟨l, hl, hv, hopen⟩ := hactive.2.2
  have hunsat : s.isSatisfied id = false := by
    rw [Bool.eq_false_iff]
    intro hsat
    obtain ⟨m, hm, htrue⟩ := (hs.isSatisfied_iff id).mp hsat
    exact hactive.2.1 m hm htrue
  exact List.mem_flatMap.mp ((hd.mem_clauses id).mpr
    ⟨⟨hclosed.clauses id hgives.1 hgives.2 hactive, hunsat⟩, l.var, ⟨hv, hopen⟩, l, hl, rfl⟩)

/-- An active pair is inside some component. -/
theorem exists_of_pair (hs : Sound F s) (hunforced : s.Unforced) (hclosed : s.Closed c) {l m : Lit}
    (hpair : m ∈ s.store.partners l) (hactive : s.Active c [l, m]) :
    ∃ k ∈ d.components, l.var ∈ k.vars ∧ m.var ∈ k.vars := by
  obtain ⟨hl, hm⟩ := hunforced.pair hpair hactive.2.1
  have hlc : s.OpenIn c l.var := ⟨hclosed.vars _ hactive l (by simp) hl, hl⟩
  have hmc : s.OpenIn c m.var := ⟨hclosed.vars _ hactive m (by simp) hm, hm⟩
  have hne : m.var ≠ l.var := hs.store.distinct l.neg m (ClauseStore.mem_implied_of_partner hpair)
  exact (hd.together l.var m.var hlc hmc hne.symm).mpr (.single (.binary hlc hmc rfl rfl hpair))

/-- **Components are independent**: an assignment is a model exactly if its
restrictions are. -/
theorem modelOf_iff (hs : Sound F s) (hunforced : s.Unforced) (hclosed : s.Closed c)
    (hids : ∀ id ∈ c.clauses, s.store.Gives id) (a : Assignment (s.openVars c)) :
    s.ModelOf c a
      ↔ ∀ k (hk : k ∈ d.components), s.PieceModel k (a.restrict (hd.vars_subset hk)) := by
  have hopen : ∀ v ∈ s.openVars c, s.trail.isAssigned v = false := fun v hv =>
    (mem_openVars.mp hv).2
  have hsame : ∀ {k : Component} (hk : k ∈ d.components) {clause : Clause},
      (∀ l ∈ clause, s.trail.isAssigned l.var = false → l.var ∈ k.vars) →
      clause.holds (s.completed (a.restrict (hd.vars_subset hk))) = clause.holds (s.completed a) :=
    fun hk _ => holds_restrict a (hd.vars_subset hk) hopen
  constructor
  · intro ha k hk
    refine ⟨fun id hid => ?_, fun l m hpair hl hm => ?_⟩
    · obtain ⟨hactive, hvars⟩ := hd.active hs hids hclosed hk hid
      rw [hsame hk hvars]
      exact ha _ hactive
    · have hall : ∀ x ∈ [l, m], x.var ∈ k.vars := by simp [hl, hm]
      have hopens : ∀ x ∈ [l, m], s.OpenIn c x.var := fun x hx =>
        mem_openVars.mp (hd.vars_subset hk (hall x hx))
      rw [hsame hk fun x hx _ => hall x hx]
      exact ha _ ⟨Or.inr ⟨l, m, hpair, rfl⟩,
        fun x hx => hs.trail.not_mem_of_not_assigned (hopens x hx).2, l, List.mem_cons_self,
        hopens l List.mem_cons_self⟩
  · intro hmodels clause hactive
    rcases hactive.1 with ⟨id, hid, hgiven, rfl⟩ | ⟨l, m, hpair, rfl⟩
    · obtain ⟨k, hk, hin⟩ := hd.exists_of_long hs hclosed ⟨hid, hgiven⟩ hactive
      rw [← hsame hk (hd.active hs hids hclosed hk hin).2]
      exact (hmodels k hk).long id hin
    · obtain ⟨k, hk, hl, hm⟩ := hd.exists_of_pair hs hunforced hclosed hpair hactive
      have hall : ∀ x ∈ [l, m], x.var ∈ k.vars := by simp [hl, hm]
      rw [← hsame hk fun x hx _ => hall x hx]
      exact (hmodels k hk).binary l m hpair hl hm

/-- **The numbers of models multiply.** -/
theorem card_models (hs : Sound F s) (hunforced : s.Unforced) (hclosed : s.Closed c)
    (hids : ∀ id ∈ c.clauses, s.store.Gives id) :
    Nat.card {a : Assignment (s.openVars c) // s.ModelOf c a}
      = (d.components.map fun k => Nat.card {a : Assignment k.vars // s.PieceModel k a}).prod
        * 2 ^ d.free.length := by
  rw [Nat.card_congr (Equiv.subtypeEquivRight (hd.modelOf_iff hs hunforced hclosed hids))]
  exact Assignment.card_parts d.components (fun k a => s.PieceModel k a)
    (fun v => mem_openVars.trans (hd.mem_vars v).symm) hd.varsNodup fun k hk => hd.vars_subset hk

end Partitions

/-- **Splitting multiplies the numbers of models.** Where no clause is unit or
false, a closed component can be taken apart, its models are the assignments
whose restrictions are models of all its components, and there are as many as
the product of theirs, times two for every free variable. -/
theorem Attained.count_split (h : Attained s) (hunforced : s.Unforced)
    (hvars : ∀ v ∈ c.vars, v.index < s.varCount) (hids : ∀ id ∈ c.clauses, s.store.Gives id)
    (hclosed : s.Closed c) :
    ∃ d s', s.decompose c = .ok (d, s')
      ∧ (∃ hsub : ∀ k ∈ d.components, k.vars ⊆ s.openVars c, ∀ a : Assignment (s.openVars c),
          s.ModelOf c a ↔ ∀ k (hk : k ∈ d.components), s.PieceModel k (a.restrict (hsub k hk)))
      ∧ Nat.card {a : Assignment (s.openVars c) // s.ModelOf c a}
          = (d.components.map fun k => Nat.card {a : Assignment k.vars // s.PieceModel k a}).prod
            * 2 ^ d.free.length := by
  have hs := h.sound
  obtain ⟨d, hsplit, hd⟩ := partitions_split hs hvars hids
  obtain ⟨s', hs'⟩ := decompose_ok hvars hids hsplit
  exact ⟨d, s', hs',
    ⟨fun k hk => hd.vars_subset hk, hd.modelOf_iff hs hunforced hclosed hids⟩,
    hd.card_models hs hunforced hclosed hids⟩

/-- What holds of the long clauses and the pairs that are listed holds of all
given clauses. -/
theorem Sound.forall_given {P : Clause → Prop} (hs : Sound F s)
    (hlong : ∀ id < s.store.long.size, (s.store.clause id).learnt = false → P (s.store.lits id))
    (hpair : ∀ v ∈ Var.range s.varCount, ∀ l ∈ v.lits, ∀ m ∈ s.store.partners l, P [l, m]) :
    ∀ clause, s.store.Given clause → P clause := by
  rintro clause (⟨id, hid, hgiven, rfl⟩ | ⟨l, m, hm, rfl⟩)
  · exact hlong id hid hgiven
  · have hl := hs.store.impliedInRange m.neg l
      (ClauseStore.mem_implied_of_partner (hs.store.symmetric l m hm))
    exact hpair l.var (Var.mem_range.mpr hl) l (Var.mem_lits.mpr rfl) m hm

theorem Attained.count_split_sparse : sparseDecided.Unforced ∧ sparseDecided.Closed sparseSource
    ∧ ∃ d s', sparseDecided.decompose sparseSource = .ok (d, s')
      ∧ Nat.card {a : Assignment (sparseDecided.openVars sparseSource) //
          sparseDecided.ModelOf sparseSource a}
        = (d.components.map fun k =>
            Nat.card {a : Assignment k.vars // sparseDecided.PieceModel k a}).prod
          * 2 ^ d.free.length := by
  have hs := attained_sparseDecided.sound
  obtain ⟨hcount, hsize, -⟩ := sparseDecided_size
  have hunforced : sparseDecided.Unforced := by
    refine hs.forall_given ?_ ?_
    all_goals
      unfold sparseDecided
      rw [ofFormula_sparse]
      decide +kernel
  have hclosed : sparseDecided.Closed sparseSource := by
    refine ⟨fun clause hactive l hl _ => ?_, fun id hid _ _ => ?_⟩
    · exact Var.mem_range.mpr (hcount ▸ (hs.occurs_of_given hactive.1 hl).1)
    · have hzero : id = 0 := by omega
      exact List.mem_singleton.mpr hzero
  obtain ⟨d, s', hd, -, hcard⟩ := attained_sparseDecided.count_split hunforced
    sparseSource_known sparseSource_given hclosed
  exact ⟨hunforced, hclosed, d, s', hd, hcard⟩

end Solver

end Cleave
