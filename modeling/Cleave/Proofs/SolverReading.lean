import Cleave.Component.Decompose
import Cleave.Proofs.Inserting
import Cleave.Proofs.Rankings
import Cleave.Proofs.RoundTrip

/-!
# Reading a solver

A solver is read item by item and grows as it goes, while the solver for a
formula has room for all variables from the start. Growing and adding commute
(`Solver.addItem_growTo`), so both come to the same once they have the same
variables (`Solver.read_matches`): all their tables, which hold one entry per
variable, are of the right size all the way (`Solver.Sized`).
-/

namespace Cleave

/-! ## Growing tables -/

section Resized

variable {α : Type} [Inhabited α] {a b : Array α} {m n : Nat}

/-- Arrays of one size are equal if the same is read from them. -/
theorem array_ext (hsize : a.size = b.size)
    (hget : ∀ i, a.getD i default = b.getD i default) : a = b :=
  Array.ext hsize fun i hi hj => by
    have hi' := hget i
    rwa [Array.getD_eq_getD_getElem?, Array.getD_eq_getD_getElem?, Array.getElem?_eq_getElem hi,
      Array.getElem?_eq_getElem hj, Option.getD_some, Option.getD_some] at hi'

theorem resized_resized (hm : a.size ≤ m) (hn : m ≤ n) :
    resized (resized a m) n = resized a n := by
  have hsize := size_resized a hm
  refine array_ext ?_ fun i => ?_
  · rw [size_resized _ (hsize.trans_le hn), size_resized a (Nat.le_trans hm hn)]
  · rw [getD_resized _ (hsize.trans_le hn), getD_resized a hm, getD_resized a (Nat.le_trans hm hn)]

theorem resized_setIfInBounds {i : Nat} (hi : i < a.size) (hn : a.size ≤ n) (x : α) :
    resized (a.setIfInBounds i x) n = (resized a n).setIfInBounds i x := by
  have hsize : (a.setIfInBounds i x).size = a.size := Array.size_setIfInBounds
  refine array_ext ?_ fun j => ?_
  · rw [size_resized _ (hsize.trans_le hn), Array.size_setIfInBounds, size_resized a hn]
  · rw [getD_resized _ (hsize.trans_le hn), getD_setIfInBounds, getD_setIfInBounds,
      getD_resized a hn, size_resized a hn]
    simp only [hi, Nat.lt_of_lt_of_le hi hn]

theorem resized_modify {i : Nat} (hi : i < a.size) (hn : a.size ≤ n) (f : α → α) :
    resized (a.modify i f) n = (resized a n).modify i f := by
  have hsize : (a.modify i f).size = a.size := Array.size_modify
  refine array_ext ?_ fun j => ?_
  · rw [size_resized _ (hsize.trans_le hn), Array.size_modify, size_resized a hn]
  · rw [getD_resized _ (hsize.trans_le hn), getD_modify, getD_modify, getD_resized a hn,
      size_resized a hn]
    simp only [hi, Nat.lt_of_lt_of_le hi hn]

end Resized

namespace VarTable

variable {α : Type} [Inhabited α] {t : VarTable α} {m n : Nat}

theorem resize_resize (hm : t.size ≤ m) (hn : m ≤ n) : (t.resize m).resize n = t.resize n :=
  congrArg mk (resized_resized hm hn)

theorem resize_set {v : Var} (hv : v.index < t.size) (hn : t.size ≤ n) (a : α) :
    (t.set v a).resize n = (t.resize n).set v a :=
  congrArg mk (resized_setIfInBounds hv hn a)

theorem resize_modify {v : Var} (hv : v.index < t.size) (hn : t.size ≤ n) (f : α → α) :
    (t.modify v f).resize n = (t.resize n).modify v f :=
  congrArg mk (resized_modify hv hn f)

theorem table_ext {u : VarTable α} (hsize : t.size = u.size) (hget : ∀ v : Var, t[v] = u[v]) :
    t = u := by
  obtain ⟨a⟩ := t
  obtain ⟨b⟩ := u
  exact congrArg mk (array_ext hsize fun i => hget ⟨i⟩)

end VarTable

namespace LitTable

variable {α : Type} [Inhabited α] {t : LitTable α} {m n : Nat}

theorem resize_resize (hm : t.size ≤ 2 * m) (hn : m ≤ n) : (t.resize m).resize n = t.resize n :=
  congrArg mk (resized_resized hm (Nat.mul_le_mul_left 2 hn))

theorem resize_modify {l : Lit} (hl : l.code < t.size) (hn : t.size ≤ 2 * n) (f : α → α) :
    (t.modify l f).resize n = (t.resize n).modify l f :=
  congrArg mk (resized_modify hl hn f)

end LitTable

namespace VarOrder

variable {o : VarOrder} {m n : Nat}

theorem resize_resize (hm : o.ranks.size ≤ m) (hn : m ≤ n) :
    (o.resize m).resize n = o.resize n := by
  have hle : (o.resize m).ranks.size ≤ n := (size_resize hm).trans_le hn
  have hranks : ((o.resize m).resize n).ranks = (o.resize n).ranks := by
    refine VarTable.table_ext ?_ fun v => ?_
    · rw [size_resize hle, size_resize (Nat.le_trans hm hn)]
    · rw [get_resize hle, get_resize hm, get_resize (Nat.le_trans hm hn), size_resize hm]
      split_ifs <;> omega
  exact congrArg VarOrder.mk hranks

end VarOrder

namespace ClauseStore

variable {s : ClauseStore} {n : Nat}

theorem resize_imply {l : Lit} (hl : l.code < s.implications.size)
    (hn : s.implications.size ≤ 2 * n) (other : Lit) (learnt : Bool) :
    (s.imply l other learnt).resize n = (s.resize n).imply l other learnt := by
  unfold imply resize
  rw [LitTable.resize_modify hl hn]

end ClauseStore

namespace Membership

variable {m : Membership} {n : Nat}

theorem resize_listUnder {t : LitTable (Array ClauseId)} {lits : Clause} (id : ClauseId)
    (hlits : ∀ l ∈ lits, l.code < t.size) (hn : t.size ≤ 2 * n) :
    (listUnder t id lits).resize n = listUnder (t.resize n) id lits := by
  induction lits generalizing t with
  | nil => rfl
  | cons l lits ih =>
    unfold listUnder at ih ⊢
    rw [List.foldl_cons, List.foldl_cons, ih, LitTable.resize_modify (hlits l List.mem_cons_self) hn]
    · exact fun m hm => (LitTable.size_modify t l _).symm ▸ hlits m (List.mem_cons_of_mem _ hm)
    · rwa [LitTable.size_modify]

theorem resize_foldl_modify {t : VarTable (Array ClauseId)} {lits : Clause} (id : ClauseId)
    (hlits : ∀ l ∈ lits, l.var.index < t.size) (hn : t.size ≤ n) :
    (lits.foldl (fun t (l : Lit) => t.modify l.var (·.push id)) t).resize n
      = lits.foldl (fun t (l : Lit) => t.modify l.var (·.push id)) (t.resize n) := by
  induction lits generalizing t with
  | nil => rfl
  | cons l lits ih =>
    rw [List.foldl_cons, List.foldl_cons, ih, VarTable.resize_modify (hlits l List.mem_cons_self) hn]
    · exact fun m hm => (VarTable.size_modify t l.var _).symm ▸ hlits m (List.mem_cons_of_mem _ hm)
    · rwa [VarTable.size_modify]

end Membership

/-! ## Solvers of the right size -/

namespace Solver

variable {s : Solver} {n : Nat}

/-- **Every table has the size of the solver.** -/
structure Sized (s : Solver) : Prop where
  implications : s.store.implications.size = 2 * s.varCount
  ternary : s.membership.ternary.size = 2 * s.varCount
  quaternary : s.membership.quaternary.size = 2 * s.varCount
  wide : s.membership.wide.size = 2 * s.varCount
  byVar : s.membership.byVar.size = s.varCount
  watches : s.watches.size = 2 * s.varCount
  values : s.trail.values.size = s.varCount
  levels : s.trail.levels.size = s.varCount
  reasons : s.trail.reasons.size = s.varCount
  scores : s.activity.scores.size = 2 * s.varCount
  ranks : s.order.ranks.size = s.varCount
  flags : s.scope.flags.size = s.varCount
  projection : s.projection.size = s.varCount

theorem sized_blank (options : Options) (limit : Nat) : (blank options limit).Sized :=
  ⟨rfl, rfl, rfl, rfl, rfl, rfl, rfl, rfl, rfl, rfl, rfl, rfl, rfl⟩

/-- The solver with tables for `n` variables. -/
def resizedTo (s : Solver) (n : Nat) : Solver :=
  { s with
    varCount := n
    store := s.store.resize n
    membership := s.membership.resize n
    watches := s.watches.resize n
    trail := s.trail.resize n
    activity := s.activity.resize n
    order := s.order.resize n
    scope := s.scope.resize n
    projection := s.projection.resize n }

theorem growTo_of_le (h : n ≤ s.varCount) : s.growTo n = s := if_pos h

theorem growTo_of_lt (h : s.varCount < n) : s.growTo n = s.resizedTo n := if_neg (Nat.not_le.mpr h)

theorem varCount_growTo (s : Solver) (n : Nat) : (s.growTo n).varCount = max s.varCount n := by
  rcases le_or_gt n s.varCount with hle | hlt
  · rw [growTo_of_le hle, Nat.max_eq_left hle]
  · rw [growTo_of_lt hlt, Nat.max_eq_right hlt.le]
    rfl

theorem Sized.resizedTo (hs : s.Sized) (h : s.varCount ≤ n) : (s.resizedTo n).Sized where
  implications := LitTable.size_resize _ (hs.implications.trans_le (Nat.mul_le_mul_left 2 h))
  ternary := LitTable.size_resize _ (hs.ternary.trans_le (Nat.mul_le_mul_left 2 h))
  quaternary := LitTable.size_resize _ (hs.quaternary.trans_le (Nat.mul_le_mul_left 2 h))
  wide := LitTable.size_resize _ (hs.wide.trans_le (Nat.mul_le_mul_left 2 h))
  byVar := VarTable.size_resize _ (hs.byVar.trans_le h)
  watches := LitTable.size_resize _ (hs.watches.trans_le (Nat.mul_le_mul_left 2 h))
  values := VarTable.size_resize _ (hs.values.trans_le h)
  levels := VarTable.size_resize _ (hs.levels.trans_le h)
  reasons := VarTable.size_resize _ (hs.reasons.trans_le h)
  scores := LitTable.size_resize _ (hs.scores.trans_le (Nat.mul_le_mul_left 2 h))
  ranks := VarOrder.size_resize (hs.ranks.trans_le h)
  flags := VarTable.size_resize _ (hs.flags.trans_le h)
  projection := VarTable.size_resize _ (hs.projection.trans_le h)

theorem Sized.growTo (hs : s.Sized) (n : Nat) : (s.growTo n).Sized := by
  rcases le_or_gt n s.varCount with hle | hlt
  · rwa [growTo_of_le hle]
  · rw [growTo_of_lt hlt]
    exact hs.resizedTo hlt.le

/-- **Growing twice** is growing once. -/
theorem Sized.growTo_growTo {m : Nat} (hs : s.Sized) (hm : m ≤ n) :
    (s.growTo m).growTo n = s.growTo n := by
  rcases le_or_gt m s.varCount with hle | hlt
  · rw [growTo_of_le hle]
  rcases Nat.eq_or_lt_of_le hm with rfl | hmn
  · exact growTo_of_le ((varCount_growTo s m).symm ▸ Nat.le_max_right _ _)
  have hlit : ∀ {size : Nat}, size = 2 * s.varCount → size ≤ 2 * m := fun h => by omega
  have hvar : ∀ {size : Nat}, size = s.varCount → size ≤ m := fun h => by omega
  rw [growTo_of_lt hlt, growTo_of_lt (show (s.resizedTo m).varCount < n from hmn),
    growTo_of_lt (Nat.lt_trans hlt hmn)]
  simp only [Solver.resizedTo, ClauseStore.resize, Membership.resize, Trail.resize,
    Activity.resize, ScopeTable.resize, LitTable.resize_resize (hlit hs.implications) hm,
    LitTable.resize_resize (hlit hs.ternary) hm, LitTable.resize_resize (hlit hs.quaternary) hm,
    LitTable.resize_resize (hlit hs.wide) hm, VarTable.resize_resize (hvar hs.byVar) hm,
    LitTable.resize_resize (hlit hs.watches) hm, VarTable.resize_resize (hvar hs.values) hm,
    VarTable.resize_resize (hvar hs.levels) hm, VarTable.resize_resize (hvar hs.reasons) hm,
    LitTable.resize_resize (hlit hs.scores) hm, VarOrder.resize_resize (hvar hs.ranks) hm,
    VarTable.resize_resize (hvar hs.flags) hm, VarTable.resize_resize (hvar hs.projection) hm]

/-! ## Adding clauses to a grown solver -/

/-- A literal has a value of its own in a solver that has its variable. -/
theorem isFalse_resizedTo (hs : s.Sized) (h : s.varCount ≤ n) (l : Lit) :
    (s.resizedTo n).trail.isFalse l = s.trail.isFalse l := by
  have hget : (s.trail.resize n).values[l.var] = s.trail.values[l.var] :=
    VarTable.get_resize _ (hs.values.trans_le h) l.var
  show (((s.trail.resize n).values[l.var]).map (· == l.positive) == some false)
    = ((s.trail.values[l.var]).map (· == l.positive) == some false)
  rw [hget]

theorem isAssigned_resizedTo (hs : s.Sized) (h : s.varCount ≤ n) (v : Var) :
    (s.resizedTo n).trail.isAssigned v = s.trail.isAssigned v := by
  have hget : (s.trail.resize n).values[v] = s.trail.values[v] :=
    VarTable.get_resize _ (hs.values.trans_le h) v
  show ((s.trail.resize n).values[v]).isSome = (s.trail.values[v]).isSome
  rw [hget]

/-- A literal of the solver has entries of its own. -/
theorem code_lt_size {l : Lit} (hl : l.var.index < s.varCount) {size : Nat}
    (hsize : size = 2 * s.varCount) : l.code < size :=
  hsize ▸ Lit.code_lt.mpr hl

theorem resize_insert (hs : s.Sized) (h : s.varCount ≤ n) {lits : Clause}
    (hlits : ∀ l ∈ lits, l.var.index < s.varCount) (id : ClauseId) :
    (s.membership.insert id lits).resize n = (s.membership.resize n).insert id lits := by
  have hlit : ∀ {size : Nat}, size = 2 * s.varCount → size ≤ 2 * n := fun h => by omega
  have hvars : ∀ l ∈ lits, l.var.index < s.membership.byVar.size := hs.byVar ▸ hlits
  have hcodes : ∀ {size : Nat}, size = 2 * s.varCount → ∀ l ∈ lits, l.code < size :=
    fun hsize l hl => code_lt_size (hlits l hl) hsize
  unfold Membership.insert Membership.resize
  simp only
  split <;> simp only [Membership.resize_foldl_modify id hvars (hs.byVar.trans_le h),
    Membership.resize_listUnder id (hcodes hs.ternary) (hlit hs.ternary),
    Membership.resize_listUnder id (hcodes hs.quaternary) (hlit hs.quaternary),
    Membership.resize_listUnder id (hcodes hs.wide) (hlit hs.wide)]

theorem resize_push (hs : s.Sized) (h : s.varCount ≤ n) {l : Lit} (hl : l.var.index < s.varCount)
    (level : Nat) (reason : Reason) :
    (s.trail.push l level reason).resize n = (s.trail.resize n).push l level reason := by
  unfold Trail.push Trail.resize
  simp only [VarTable.resize_set (hs.values ▸ hl) (hs.values.trans_le h),
    VarTable.resize_set (hs.levels ▸ hl) (hs.levels.trans_le h),
    VarTable.resize_set (hs.reasons ▸ hl) (hs.reasons.trans_le h)]

/-- What adding a clause leaves when its first literal is not false. -/
def placed (s : Solver) (first : Lit) (rest : List Lit) (learnt : Bool) : Solver :=
  match rest with
  | [] =>
    { s with
      store := { s.store with units := s.store.units.push first }
      trail := (if s.trail.isAssigned first.var then s.trail
        else s.trail.push first s.trail.level .decision).rewind 0 }
  | [b] =>
    { s with
      store := (s.store.imply first.neg b learnt).imply b.neg first learnt
      trail := s.trail.rewind 0 }
  | b :: c :: more =>
    { s with
      store := { s.store with
        long := s.store.long.push ⟨first, b, c :: more, learnt⟩
        learntLong := if learnt then s.store.learntLong + 1 else s.store.learntLong }
      watches := watch s.watches s.store.long.size first b
      membership := if learnt then s.membership
        else s.membership.insert s.store.long.size (first :: b :: c :: more)
      trail := s.trail.rewind 0 }

/-- The literals of a clause, those that are not false first. -/
def openFirst (s : Solver) (c : Clause) : Clause :=
  c.filter (fun l => !s.trail.isFalse l) ++ c.filter (fun l => !!s.trail.isFalse l)

theorem mem_openFirst {c : Clause} {l : Lit} (hl : l ∈ s.openFirst c) : l ∈ c :=
  (List.mem_append.mp hl).elim List.mem_of_mem_filter List.mem_of_mem_filter

theorem insertClause_eq (s : Solver) (c : Clause) (learnt : Bool) : s.insertClause c learnt
    = match s.openFirst c with
      | [] => s.setConflicted
      | first :: rest => if s.trail.isFalse first then s.setConflicted else s.placed first rest learnt := by
  unfold insertClause
  simp only
  rw [show c.filter (fun l => !s.trail.isFalse l) ++ c.filter (fun l => !!s.trail.isFalse l)
    = s.openFirst c from rfl]
  cases s.openFirst c with
  | nil => rfl
  | cons first rest =>
    simp only
    split
    · rfl
    · match rest with
      | [] =>
        rw [storeClause_unit]
        unfold placed
        by_cases hassigned : s.trail.isAssigned first.var = true
        · simp only [hassigned, if_true]
        · simp only [if_neg hassigned]
          rfl
      | [b] => rfl
      | b :: c :: more => cases learnt <;> rfl

theorem placed_resizedTo (hs : s.Sized) (h : s.varCount ≤ n) {first : Lit} {rest : List Lit}
    (hlits : ∀ l ∈ first :: rest, l.var.index < s.varCount) (learnt : Bool) :
    (s.resizedTo n).placed first rest learnt = (s.placed first rest learnt).resizedTo n := by
  have hlit : ∀ {size : Nat}, size = 2 * s.varCount → size ≤ 2 * n := fun h => by omega
  have hfirst := hlits first List.mem_cons_self
  match rest with
  | [] =>
    have hassigned := isAssigned_resizedTo hs h first.var
    unfold placed
    by_cases hvalue : s.trail.isAssigned first.var = true
    · rw [hvalue] at hassigned
      simp only [hvalue, hassigned, if_true]
      rfl
    · rw [Bool.eq_false_iff.mpr hvalue] at hassigned
      simp only [hassigned, if_neg hvalue, Bool.false_eq_true, if_false]
      unfold Solver.resizedTo
      simp only [← resize_push hs h hfirst]
      rfl
  | [b] =>
    have hb := hlits b (List.mem_cons_of_mem _ List.mem_cons_self)
    have hstore : ((s.store.imply first.neg b learnt).imply b.neg first learnt).resize n
        = ((s.store.resize n).imply first.neg b learnt).imply b.neg first learnt := by
      rw [ClauseStore.resize_imply, ClauseStore.resize_imply (code_lt_size (l := first.neg) hfirst
        hs.implications) (hlit hs.implications)]
      · exact code_lt_size (l := b.neg) hb ((LitTable.size_modify _ _ _).trans hs.implications)
      · exact hlit ((LitTable.size_modify _ _ _).trans hs.implications)
    unfold placed Solver.resizedTo
    simp only [hstore]
    rfl
  | b :: c :: more =>
    have hb := hlits b (List.mem_cons_of_mem _ List.mem_cons_self)
    have hwatches : (watch s.watches s.store.long.size first b).resize n
        = watch (s.watches.resize n) s.store.long.size first b := by
      unfold watch
      rw [LitTable.resize_modify, LitTable.resize_modify (code_lt_size hfirst hs.watches)
        (hlit hs.watches)]
      · exact code_lt_size hb ((LitTable.size_modify _ _ _).trans hs.watches)
      · exact hlit ((LitTable.size_modify _ _ _).trans hs.watches)
    have hmembership := resize_insert hs h hlits s.store.long.size
    unfold placed Solver.resizedTo
    simp only [hwatches]
    cases learnt
    · simp only [Bool.false_eq_true, if_false, hmembership]
      rfl
    · rfl

/-- **Adding a clause commutes with growing.** -/
theorem insertClause_resizedTo (hs : s.Sized) (h : s.varCount ≤ n) {c : Clause}
    (hc : ∀ l ∈ c, l.var.index < s.varCount) (learnt : Bool) :
    (s.resizedTo n).insertClause c learnt = (s.insertClause c learnt).resizedTo n := by
  have hsorted : (s.resizedTo n).openFirst c = s.openFirst c := by
    unfold openFirst
    simp only [isFalse_resizedTo hs h]
  rw [insertClause_eq, insertClause_eq, hsorted]
  split
  · rfl
  · rename_i first rest heq
    rw [isFalse_resizedTo hs h]
    split
    · rfl
    · exact placed_resizedTo hs h (fun l hl => hc l (mem_openFirst (heq ▸ hl))) learnt

theorem Sized.placed (hs : s.Sized) (first : Lit) (rest : List Lit) (learnt : Bool) :
    (s.placed first rest learnt).Sized := by
  match rest with
  | [] =>
    by_cases hvalue : s.trail.isAssigned first.var = true
    · unfold Solver.placed
      simp only [hvalue, if_true]
      exact { hs with }
    · unfold Solver.placed
      simp only [if_neg hvalue]
      exact { hs with
        values := (VarTable.size_set _ _ _).trans hs.values
        levels := (VarTable.size_set _ _ _).trans hs.levels
        reasons := (VarTable.size_set _ _ _).trans hs.reasons }
  | [b] =>
    exact { hs with
      implications := (LitTable.size_modify _ _ _).trans
        ((LitTable.size_modify _ _ _).trans hs.implications) }
  | b :: c :: more =>
    have hwatches : (watch s.watches s.store.long.size first b).size = 2 * s.varCount :=
      (LitTable.size_modify _ _ _).trans ((LitTable.size_modify _ _ _).trans hs.watches)
    cases learnt with
    | true => exact { hs with watches := hwatches }
    | false =>
      have hsizes := Membership.size_table_insert s.membership s.store.long.size
        (first :: b :: c :: more)
      exact { hs with
        watches := hwatches
        ternary := (hsizes .ternary).trans hs.ternary
        quaternary := (hsizes .quaternary).trans hs.quaternary
        wide := (hsizes .wide).trans hs.wide
        byVar := (Membership.size_insert _ _ _).trans hs.byVar }

theorem Sized.insertClause (hs : s.Sized) (c : Clause) (learnt : Bool) :
    (s.insertClause c learnt).Sized := by
  rw [insertClause_eq]
  split
  · exact { hs with }
  · split
    · exact { hs with }
    · exact hs.placed _ _ _

theorem varCount_insertClause (s : Solver) (c : Clause) (learnt : Bool) :
    (s.insertClause c learnt).varCount = s.varCount := by
  rw [insertClause_eq]
  split
  · rfl
  · rename_i first rest _
    split
    · rfl
    · match rest with
      | [] => rfl
      | [b] => rfl
      | b :: c :: more => rfl

/-- The projection and the limit on learnt clauses mean nothing to a clause. -/
theorem insertClause_with (s : Solver) (c : Clause) (learnt : Bool) (projection : VarTable Bool)
    (limit : Nat) :
    ({ s with projection := projection, learntLimit := limit } : Solver).insertClause c learnt
      = { s.insertClause c learnt with projection := projection, learntLimit := limit } := by
  rw [insertClause_eq, insertClause_eq]
  show (match s.openFirst c with | [] => _ | first :: rest => _) = _
  cases s.openFirst c with
  | nil => rfl
  | cons first rest =>
    simp only
    by_cases hfalse : s.trail.isFalse first = true
    · simp only [hfalse, if_true]
      rfl
    · simp only [hfalse]
      match rest with
      | [] => rfl
      | [b] => rfl
      | b :: c :: more => rfl

end Solver

/-! ## Items -/

/-- The number of variables an item needs room for. -/
def Item.needs : Item → Nat
  | .varCount count => count
  | .clause lits => lits.varBound
  | .projection vars => vars.foldl (fun bound v => max bound (v.index + 1)) 0
  | .weight _ _ => 0

namespace Solver

variable {s : Solver} {n : Nat}

/-- What a clause adds where there is room for its variables. -/
def placeClause (s : Solver) (c : Clause) : Solver :=
  match c.normalize with
  | none => s
  | some c => s.insertClause c false

/-- What an item adds where there is room for its variables. -/
def placeItem (s : Solver) : Item → Solver
  | .clause lits => s.placeClause lits
  | .projection vars =>
    { s with projection := vars.foldl (fun t v => t.set v true) s.projection }
  | _ => s

theorem addItem_eq (s : Solver) (item : Item) :
    s.addItem item = (s.growTo item.needs).placeItem item := by
  cases item with
  | varCount count => rfl
  | clause lits => rfl
  | projection vars => rfl
  | weight l value => exact (growTo_of_le (Nat.zero_le _)).symm

theorem resize_foldl_set {vars : List Var} {t : VarTable Bool}
    (hvars : ∀ v ∈ vars, v.index < t.size) (hn : t.size ≤ n) :
    (vars.foldl (fun t v => t.set v true) t).resize n
      = vars.foldl (fun t v => t.set v true) (t.resize n) := by
  induction vars generalizing t with
  | nil => rfl
  | cons v vars ih =>
    rw [List.foldl_cons, List.foldl_cons, ih, VarTable.resize_set (hvars v List.mem_cons_self) hn]
    · exact fun w hw => (VarTable.size_set t v true).symm ▸ hvars w (List.mem_cons_of_mem _ hw)
    · rwa [VarTable.size_set]

theorem Sized.placeItem (hs : s.Sized) (item : Item) : (s.placeItem item).Sized := by
  cases item with
  | varCount count => exact hs
  | clause lits =>
    show (s.placeClause lits).Sized
    unfold placeClause
    split
    · exact hs
    · exact hs.insertClause _ _
  | projection vars => exact { hs with projection := (VarTable.size_foldl_set _ _ _).trans hs.projection }
  | weight l value => exact hs

theorem varCount_placeItem (s : Solver) (item : Item) :
    (s.placeItem item).varCount = s.varCount := by
  cases item with
  | varCount count => rfl
  | clause lits =>
    show (s.placeClause lits).varCount = s.varCount
    unfold placeClause
    split
    · rfl
    · exact varCount_insertClause _ _ _
  | projection vars => rfl
  | weight l value => rfl

theorem placeItem_growTo (hs : s.Sized) {item : Item} (hneeds : item.needs ≤ s.varCount) :
    (s.growTo n).placeItem item = (s.placeItem item).growTo n := by
  rcases le_or_gt n s.varCount with hle | hlt
  · rw [growTo_of_le hle, growTo_of_le (hle.trans_eq (varCount_placeItem s item).symm)]
  rw [growTo_of_lt hlt, growTo_of_lt ((varCount_placeItem s item).trans_lt hlt)]
  cases item with
  | varCount count => rfl
  | clause lits =>
    show (s.resizedTo n).placeClause lits = (s.placeClause lits).resizedTo n
    unfold placeClause
    split
    · rfl
    · rename_i c hc
      refine insertClause_resizedTo hs hlt.le (fun l hl => ?_) false
      exact Nat.lt_of_lt_of_le
        (Clause.index_lt_varBound ((Clause.mem_of_normalize hc l).mp hl)) hneeds
  | projection vars =>
    have hvars : ∀ v ∈ vars, v.index < s.projection.size := fun v hv =>
      hs.projection ▸ Nat.lt_of_lt_of_le (Var.index_lt_foldl_max hv 0) hneeds
    unfold placeItem resizedTo
    simp only [resize_foldl_set hvars (hs.projection.trans_le hlt.le)]
  | weight l value => rfl

theorem Sized.addItem (hs : s.Sized) (item : Item) : (s.addItem item).Sized := by
  rw [addItem_eq]
  exact (hs.growTo _).placeItem _

/-- **Adding an item commutes with growing**, as long as there is room for it in
the end. -/
theorem addItem_growTo (hs : s.Sized) {item : Item} (hneeds : item.needs ≤ n) :
    (s.growTo n).addItem item = (s.addItem item).growTo n := by
  have hn : item.needs ≤ (s.growTo n).varCount :=
    Nat.le_trans hneeds ((varCount_growTo s n).symm ▸ Nat.le_max_right _ _)
  have hroom : item.needs ≤ (s.growTo item.needs).varCount :=
    (varCount_growTo s item.needs).symm ▸ Nat.le_max_right _ _
  rw [addItem_eq, addItem_eq, growTo_of_le hn, ← placeItem_growTo (hs.growTo _) hroom,
    hs.growTo_growTo hneeds]

/-- **Growing at the end** is growing at the start. -/
theorem foldl_addItem_growTo (hs : s.Sized) {items : List Item}
    (hneeds : ∀ item ∈ items, item.needs ≤ n) :
    (items.foldl addItem s).growTo n = items.foldl addItem (s.growTo n) := by
  induction items generalizing s with
  | nil => rfl
  | cons item items ih =>
    rw [List.foldl_cons, List.foldl_cons, addItem_growTo hs (hneeds item List.mem_cons_self)]
    exact ih (hs.addItem item) fun other hother => hneeds other (List.mem_cons_of_mem _ hother)

theorem varCount_foldl_placeClause (cs : List Clause) (s : Solver) :
    (cs.foldl placeClause s).varCount = s.varCount := by
  induction cs generalizing s with
  | nil => rfl
  | cons c cs ih => rw [List.foldl_cons, ih, show (s.placeClause c).varCount = s.varCount from
      varCount_placeItem s (.clause c)]

theorem foldl_addItem_of_le {items : List Item} (hneeds : ∀ item ∈ items, item.needs ≤ s.varCount) :
    items.foldl addItem s = items.foldl placeItem s := by
  induction items generalizing s with
  | nil => rfl
  | cons item items ih =>
    have hitem : s.addItem item = s.placeItem item := by
      rw [addItem_eq, growTo_of_le (hneeds item List.mem_cons_self)]
    rw [List.foldl_cons, List.foldl_cons, hitem]
    exact ih fun other hother =>
      (varCount_placeItem s item).symm ▸ hneeds other (List.mem_cons_of_mem _ hother)

/-- The projection and the limit on learnt clauses mean nothing to clauses. -/
theorem foldl_placeClause_with (cs : List Clause) (s : Solver) (projection : VarTable Bool)
    (limit : Nat) :
    cs.foldl placeClause { s with projection := projection, learntLimit := limit }
      = { cs.foldl placeClause s with projection := projection, learntLimit := limit } := by
  induction cs generalizing s with
  | nil => rfl
  | cons c cs ih =>
    have hclause : placeClause { s with projection := projection, learntLimit := limit } c
        = { s.placeClause c with projection := projection, learntLimit := limit } := by
      unfold placeClause
      cases c.normalize with
      | none => rfl
      | some d => exact insertClause_with s d false projection limit
    rw [List.foldl_cons, List.foldl_cons, hclause, ih]

theorem learntLimit_foldl_placeClause (cs : List Clause) (s : Solver) :
    (cs.foldl placeClause s).learntLimit = s.learntLimit := by
  have h := congrArg Solver.learntLimit
    (foldl_placeClause_with cs s s.projection s.learntLimit)
  exact h

theorem projection_foldl_placeClause (cs : List Clause) (s : Solver) :
    (cs.foldl placeClause s).projection = s.projection := by
  have h := congrArg Solver.projection
    (foldl_placeClause_with cs s s.projection s.learntLimit)
  exact h

/-- **The clauses and the projection** of a file can be added one after the
other. -/
theorem foldl_placeItem (items : List Item) (s : Solver) :
    items.foldl placeItem s
      = { (items.filterMap Item.clause?).foldl placeClause s with
          projection := (items.filterMap Item.projection?).flatten.foldl (fun t v => t.set v true)
            s.projection } := by
  induction items generalizing s with
  | nil => rfl
  | cons item items ih =>
    rw [List.foldl_cons, ih]
    cases item with
    | varCount count => rfl
    | clause lits =>
      rw [show s.placeItem (.clause lits) = s.placeClause lits from rfl,
        show (s.placeClause lits).projection = s.projection from projection_foldl_placeClause [lits] s]
      rfl
    | projection vars =>
      have hwith := foldl_placeClause_with (items.filterMap Item.clause?) s
        (vars.foldl (fun t v => t.set v true) s.projection) s.learntLimit
      have hlimit := learntLimit_foldl_placeClause (items.filterMap Item.clause?) s
      rw [show s.placeItem (.projection vars) = { s with
          projection := vars.foldl (fun t v => t.set v true) s.projection,
          learntLimit := s.learntLimit } from rfl, hwith, ← hlimit]
      show _ = ({ (items.filterMap Item.clause?).foldl placeClause s with
        projection := (vars :: items.filterMap Item.projection?).flatten.foldl
          (fun t v => t.set v true) s.projection } : Solver)
      rw [List.flatten_cons, List.foldl_append]
    | weight l value => rfl

/-! ## The solver for a formula -/

/-- The solver before any clause is added. -/
theorem growTo_blank_limit (options : Options) (limit limit' n : Nat) :
    (blank options limit).growTo n = { (blank options limit').growTo n with learntLimit := limit } := by
  rcases le_or_gt n 0 with hle | hlt
  · rw [growTo_of_le (show n ≤ (blank options limit).varCount from hle),
      growTo_of_le (show n ≤ (blank options limit').varCount from hle)]
    rfl
  · rw [growTo_of_lt (show (blank options limit).varCount < n from hlt),
      growTo_of_lt (show (blank options limit').varCount < n from hlt)]
    rfl

/-- Nothing is projected at first, so nothing is cleared. -/
theorem fill_projection_blank (options : Options) (limit n : Nat) :
    ((blank options limit).growTo n).projection.fill false
      = ((blank options limit).growTo n).projection := by
  have hblank : ∀ v : Var, ((blank options limit).growTo n).projection[v] = false := fun v => by
    rcases le_or_gt n 0 with hle | hlt
    · rw [growTo_of_le (show n ≤ (blank options limit).varCount from hle)]
      rfl
    · rw [growTo_of_lt (show (blank options limit).varCount < n from hlt)]
      exact VarTable.get_resize _ (Nat.zero_le _) v
  refine VarTable.table_ext (Array.size_replicate ..) fun v => ?_
  rw [hblank]
  show (Array.replicate _ false).getD v.index default = false
  rw [Array.getD_eq_getD_getElem?, Array.getElem?_replicate]
  split <;> rfl

theorem varBound_le {f : Formula} {lits : Clause} (h : lits ∈ f.clauses) :
    lits.varBound ≤ f.numVariables := by
  have hvar : lits.varBound = (lits.map Lit.var).foldl (fun n v => max n (v.index + 1)) 0 := by
    rw [List.foldl_map]
    rfl
  rw [hvar]
  refine Formula.foldl_max_le _ _ _ (Nat.zero_le _) fun v hv => ?_
  obtain ⟨l, hl, rfl⟩ := List.mem_map.mp hv
  refine Var.index_lt_foldl_max (List.mem_append_left _ (List.mem_append_left _ ?_)) _
  exact List.mem_map_of_mem (List.mem_flatten_of_mem h hl)

theorem index_lt_of_projection {f : Formula} {v : Var} (h : v ∈ f.projection.getD []) :
    v.index < f.numVariables :=
  Var.index_lt_foldl_max (List.mem_append_left _ (List.mem_append_right _ h)) _

theorem setProjection_of_le {vars : List Var}
    (h : vars.foldl (fun bound v => max bound (v.index + 1)) 0 ≤ s.varCount) :
    s.setProjection vars
      = { s with projection := vars.foldl (fun t v => t.set v true) (s.projection.fill false) } := by
  have hcleared := growTo_of_le (s := { s with projection := s.projection.fill false }) h
  unfold setProjection project
  simp only [growTo_of_le h, hcleared]

/-- **The solver for a formula** has room for all clauses before the first one
is added. -/
theorem ofFormula_eq (f : Formula) (options : Options) :
    let base := (new options).growTo f.numVariables
    ofFormula f options = { f.clauses.foldl placeClause base with
      projection := (f.projection.getD []).foldl (fun t v => t.set v true) base.projection } := by
  intro base
  have hbase : f.numVariables ≤ base.varCount :=
    (varCount_growTo (new options) f.numVariables).symm ▸ Nat.le_max_right _ _
  have hclauses : f.clauses.foldl addNormalized base = f.clauses.foldl placeClause base := by
    have hneeds : ∀ item ∈ f.clauses.map Item.clause, item.needs ≤ base.varCount :=
      fun item hitem => by
        obtain ⟨lits, hlits, rfl⟩ := List.mem_map.mp hitem
        exact Nat.le_trans (varBound_le hlits) hbase
    have hitems := foldl_addItem_of_le hneeds
    rwa [List.foldl_map, List.foldl_map] at hitems
  have hprojection := projection_foldl_placeClause f.clauses base
  have hfill : base.projection.fill false = base.projection := fill_projection_blank options _ _
  unfold ofFormula
  simp only
  rw [hclauses]
  cases hvars : f.projection with
  | none =>
    simp only [Option.getD_none, List.foldl_nil]
    rw [← hprojection]
  | some vars =>
    have hbound : vars.foldl (fun bound v => max bound (v.index + 1)) 0 ≤ f.numVariables :=
      Formula.foldl_max_le _ _ _ (Nat.zero_le _) fun v hv =>
        index_lt_of_projection (by rw [hvars]; exact hv)
    simp only [Option.getD_some]
    rw [setProjection_of_le, hprojection, hfill]
    rw [varCount_foldl_placeClause]
    exact Nat.le_trans hbound hbase

theorem varCount_ofFormula (f : Formula) (options : Options) :
    (ofFormula f options).varCount = f.numVariables := by
  rw [ofFormula_eq]
  show (f.clauses.foldl placeClause ((new options).growTo f.numVariables)).varCount = _
  rw [varCount_foldl_placeClause, varCount_growTo]
  exact Nat.zero_max _

theorem with_own_limit {s : Solver} {projection : VarTable Bool} {limit : Nat}
    (h : s.learntLimit = limit) : ({ s with projection := projection, learntLimit := limit } : Solver)
      = { s with projection := projection } := by
  subst h
  rfl

/-- **Items and a formula that state the same** lead to the same solver, as soon
as it has grown to the variables of the formula and but for the limit on learnt
clauses. -/
theorem ofItems_growTo {items : List Item} {f : Formula}
    (hclauses : f.clauses = items.filterMap Item.clause?)
    (hprojection : f.projection.getD [] = (items.filterMap Item.projection?).flatten)
    (hneeds : ∀ item ∈ items, item.needs ≤ f.numVariables) :
    (ofItems items).growTo f.numVariables = { ofFormula f {} with learntLimit := 0 } := by
  have hroom : f.numVariables ≤ ((blank {} 0).growTo f.numVariables).varCount :=
    (varCount_growTo (blank {} 0) f.numVariables).symm ▸ Nat.le_max_right _ _
  rw [ofItems, foldl_addItem_growTo (sized_blank {} 0) hneeds,
    foldl_addItem_of_le fun item hitem => Nat.le_trans (hneeds item hitem) hroom,
    foldl_placeItem, ofFormula_eq, ← hclauses, ← hprojection]
  have hlimit := growTo_blank_limit {} ({} : Options).maxLearnts 0 f.numVariables
  have hfold := foldl_placeClause_with f.clauses ((blank {} 0).growTo f.numVariables)
    ((blank {} 0).growTo f.numVariables).projection ({} : Options).maxLearnts
  have hzero := learntLimit_foldl_placeClause f.clauses ((blank {} 0).growTo f.numVariables)
  have hzero' : ((blank {} 0).growTo f.numVariables).learntLimit = 0 :=
    congrArg Solver.learntLimit (growTo_blank_limit {} 0 0 f.numVariables)
  have hbase : (new {}).growTo f.numVariables
      = { (blank {} 0).growTo f.numVariables with learntLimit := ({} : Options).maxLearnts } := hlimit
  simp only [hbase]
  rw [hfold]
  -- both sides are the same but for the limit, which is 0 on the left already
  exact (with_own_limit (hzero.trans hzero')).symm

theorem varCount_addItem (s : Solver) (item : Item) :
    (s.addItem item).varCount = max s.varCount item.needs := by
  rw [addItem_eq, varCount_placeItem, varCount_growTo]

theorem Sized.foldl_addItem (hs : s.Sized) (items : List Item) :
    (items.foldl Solver.addItem s).Sized := by
  induction items generalizing s with
  | nil => exact hs
  | cons item items ih => exact ih (hs.addItem item)

theorem varCount_le_foldl_addItem (items : List Item) (s : Solver) :
    s.varCount ≤ (items.foldl addItem s).varCount := by
  induction items generalizing s with
  | nil => exact Nat.le_refl _
  | cons item items ih =>
    exact Nat.le_trans ((varCount_addItem s item).symm ▸ Nat.le_max_left _ _) (ih _)

/-- There is room for every item in the end. -/
theorem needs_le_foldl_addItem {items : List Item} {item : Item} (h : item ∈ items) (s : Solver) :
    item.needs ≤ (items.foldl addItem s).varCount := by
  induction items generalizing s with
  | nil => cases h
  | cons other items ih =>
    rcases List.mem_cons.mp h with rfl | h
    · exact Nat.le_trans ((varCount_addItem s item).symm ▸ Nat.le_max_right _ _)
        (varCount_le_foldl_addItem items _)
    · exact ih h _

end Solver

/-! ## What a file announces -/

namespace Cursor

variable {c c' : Cursor}

theorem comment_varCount {items : List Item} (h : c.comment = .ok (items, c')) :
    items.filterMap Item.varCount? = [] := by
  have hitem : ∀ {keyword words item}, weightItem keyword words = .ok item →
      item.varCount? = none := fun {keyword words item} h => by
    unfold weightItem at h
    split at h
    · cases h
    · split at h
      · cases h
      · split at h
        · cases h
        · cases h
        · split at h
          · cases h
            rfl
          · cases h
  unfold comment at h
  split at h
  · cases h
  · split at h
    · cases h
    · rename_i stated hstated
      cases h
      unfold commentItems at hstated
      split at hstated
      · cases hstated
        rfl
      · split at hstated
        · split at hstated
          · obtain ⟨vars, -, rfl⟩ := Except.map_eq_ok.mp hstated
            rfl
          · split at hstated
            · obtain ⟨item, hweight, rfl⟩ := Except.map_eq_ok.mp hstated
              rw [List.filterMap_cons_none (hitem hweight), List.filterMap_nil]
            · cases hstated
              rfl
        · cases hstated
          rfl

theorem clauses_varCount {items : List Item} (h : c.clauses = .ok items) :
    items.filterMap Item.varCount? = [] := by
  fun_induction clauses c generalizing items with
  | case1 => cases h; rfl
  | case2 => cases h
  | case3 =>
    rename_i hcomment _ _ ih
    obtain ⟨more, hmore, rfl⟩ := Except.map_eq_ok.mp h
    rw [List.filterMap_append, comment_varCount hcomment, ih hmore, List.nil_append]
  | case4 => cases h
  | case5 =>
    rename_i ih
    obtain ⟨more, hmore, rfl⟩ := Except.map_eq_ok.mp h
    rw [List.filterMap_cons_none (by rfl)]
    exact ih hmore
  | case6 => cases h

theorem preamble_varCount {clauses : Nat} {items : List Item}
    (h : c.preamble = .ok (clauses, items, c')) : ∃ n, items.filterMap Item.varCount? = [n] := by
  fun_induction preamble c generalizing clauses items c' with
  | case1 => cases h
  | case2 => cases h
  | case3 =>
    rename_i hcomment _ _ ih
    obtain ⟨⟨count, more, c''⟩, hmore, heq⟩ := Except.map_eq_ok.mp h
    cases heq
    obtain ⟨n, hn⟩ := ih hmore
    exact ⟨n, by rw [List.filterMap_append, comment_varCount hcomment, hn, List.nil_append]⟩
  | case4 =>
    obtain ⟨⟨⟨vars, count⟩, c''⟩, hheader, heq⟩ := Except.map_eq_ok.mp h
    cases heq
    exact ⟨vars, rfl⟩
  | case5 => rename_i ih; exact ih h
  | case6 => cases h

end Cursor

/-- **A file has one header.** -/
theorem varCount_readItems {c : Cursor} {items : List Item} (h : readItems c = .ok items) :
    ∃ n, items.filterMap Item.varCount? = [n] := by
  obtain ⟨⟨expected, stated, c'⟩, hpreamble, h⟩ := Except.bind_eq_ok.mp h
  obtain ⟨more, hmore, h⟩ := Except.bind_eq_ok.mp h
  obtain ⟨n, hn⟩ := Cursor.preamble_varCount hpreamble
  simp only at h
  split at h
  · cases h
    exact ⟨n, by rw [List.filterMap_append, hn, Cursor.clauses_varCount hmore, List.append_nil]⟩
  · cases h

namespace Formula

theorem projection_ofItems (items : List Item) :
    (ofItems items).projection.getD [] = (items.filterMap Item.projection?).flatten := by
  unfold ofItems
  simp only
  split
  · rename_i hnil
    rw [hnil]
    rfl
  · rfl

/-- The formula of a file has the variables of its items, weights or not. -/
theorem needs_le_numVariables {items : List Item} {n : Nat}
    (hcount : items.filterMap Item.varCount? = [n]) {f : Formula} (hn : f.varCount = n)
    (hclauses : f.clauses = items.filterMap Item.clause?)
    (hprojection : f.projection.getD [] = (items.filterMap Item.projection?).flatten) :
    ∀ item ∈ items, item.needs ≤ f.numVariables := by
  intro item hitem
  cases item with
  | varCount count =>
    have hin : count ∈ items.filterMap Item.varCount? := List.mem_filterMap.mpr ⟨_, hitem, rfl⟩
    rw [hcount, List.mem_singleton, ← hn] at hin
    exact hin.trans_le (Var.le_foldl_max _ _)
  | clause lits =>
    exact Solver.varBound_le (hclauses ▸ List.mem_filterMap.mpr ⟨_, hitem, rfl⟩)
  | projection vars =>
    refine foldl_max_le _ _ _ (Nat.zero_le _) fun v hv => Solver.index_lt_of_projection ?_
    rw [hprojection]
    exact List.mem_flatten.mpr ⟨vars, List.mem_filterMap.mpr ⟨_, hitem, rfl⟩, hv⟩
  | weight l value => exact Nat.zero_le _

end Formula

/-! ## What does not depend on the number of variables -/

namespace Solver

variable {s t : Solver} {n : Nat}

/-- **Two solvers state the same**, whatever the number of their variables and
their limits: clauses, assignment, projection and what is left to decide. -/
structure Alike (s t : Solver) : Prop where
  units : s.store.units = t.store.units
  implied : ∀ l, s.store.implied l = t.store.implied l
  long : s.store.long = t.store.long
  trail : s.trail.lits = t.trail.lits
  conflicted : s.conflicted = t.conflicted
  projected : s.projected = t.projected
  component : s.initComponent = t.initComponent

theorem filter_range {p : Var → Bool} {m : Nat} (hm : m ≤ n)
    (hbeyond : ∀ v : Var, m ≤ v.index → p v = false) :
    (Var.range n).filter p = (Var.range m).filter p := by
  obtain ⟨k, rfl⟩ := Nat.exists_eq_add_of_le hm
  unfold Var.range
  have hnone : ((List.range k).map (Var.mk ∘ (m + ·))).filter p = [] :=
    List.filter_eq_nil_iff.mpr fun v hv => by
      obtain ⟨i, -, rfl⟩ := List.mem_map.mp hv
      exact Bool.eq_false_iff.mp (hbeyond _ (Nat.le_add_right m i))
  rw [List.range_add, List.map_append, List.filter_append, List.map_map, hnone, List.append_nil]

theorem Alike.resizedTo (hs : s.Sized) (h : s.varCount ≤ n) : s.Alike (s.resizedTo n) := by
  have himplications : ∀ l : Lit, (s.store.resize n).implications[l] = s.store.implications[l] :=
    LitTable.get_resize _ (hs.implications.trans_le (Nat.mul_le_mul_left 2 h))
  have hassigned := isAssigned_resizedTo hs h
  have hlevel : ∀ v : Var, (s.resizedTo n).trail.levelOf v = s.trail.levelOf v :=
    VarTable.get_resize _ (hs.levels.trans_le h)
  have htrue : ∀ l : Lit, (s.resizedTo n).trail.isTrue l = s.trail.isTrue l := fun l => by
    have hget : (s.resizedTo n).trail.values[l.var] = s.trail.values[l.var] :=
      VarTable.get_resize _ (hs.values.trans_le h) l.var
    unfold Trail.isTrue Trail.value
    rw [hget]
  have hoccurs : ∀ v : Var, (s.resizedTo n).occurs v = s.occurs v := fun v => by
    have hofVar : (s.resizedTo n).membership.ofVar v = s.membership.ofVar v :=
      Membership.ofVar_resize (hs.byVar.trans_le h) v
    have hpartners : ∀ l, (s.resizedTo n).store.partners l = s.store.partners l := fun l =>
      congrArg Implications.front (himplications l.neg)
    unfold occurs
    rw [hofVar]
    simp only [hpartners]
  have hbeyond : ∀ v : Var, s.varCount ≤ v.index → s.occurs v = false := fun v hv => by
    have hofVar : s.membership.byVar[v] = default :=
      VarTable.get_of_size_le _ (hs.byVar.trans_le hv)
    have hpartners : ∀ l ∈ v.lits, s.store.partners l = [] := fun l hl => by
      have hget : s.store.implications[l.neg] = default :=
        LitTable.get_of_size_le _ (hs.implications ▸ not_lt.mp fun hlt =>
          absurd (Lit.code_lt.mp hlt) (not_lt.mpr ((Var.mem_lits.mp hl) ▸ hv)))
      unfold ClauseStore.partners
      rw [hget]
      rfl
    unfold occurs Membership.ofVar
    rw [hofVar, Bool.or_eq_false_iff]
    refine ⟨rfl, List.any_eq_false.mpr fun l hl => ?_⟩
    rw [hpartners l hl]
    exact Bool.false_ne_true
  refine ⟨rfl, fun l => congrArg Implications.all (himplications l).symm, rfl, rfl, rfl, ?_, ?_⟩
  · have hprojected : ∀ v, (s.resizedTo n).isProjected v = s.isProjected v :=
      VarTable.get_resize _ (hs.projection.trans_le h)
    unfold Solver.projected
    rw [show (s.resizedTo n).varCount = n from rfl, funext hprojected]
    exact (filter_range h fun v hv =>
      VarTable.get_of_size_le _ (hs.projection.trans_le hv)).symm
  · unfold initComponent
    simp only [hassigned, hlevel, htrue, hoccurs]
    rw [show (s.resizedTo n).varCount = n from rfl, filter_range h fun v hv => by
      rw [hbeyond v hv, Bool.and_false]]
    rfl

theorem Alike.growTo (hs : s.Sized) (n : Nat) : s.Alike (s.growTo n) := by
  rcases le_or_gt n s.varCount with hle | hlt
  · rw [growTo_of_le hle]
    exact ⟨rfl, fun _ => rfl, rfl, rfl, rfl, rfl, rfl⟩
  · rw [growTo_of_lt hlt]
    exact .resizedTo hs hlt.le

/-- The solver of a file has all variables but those of weights. -/
theorem unweighted_le_ofItems {items : List Item} {n : Nat}
    (hn : items.filterMap Item.varCount? = [n]) (hheader : (Formula.ofItems items).varCount = n) :
    Formula.numVariables { Formula.ofItems items with weights := [] }
      ≤ (ofItems items).varCount := by
  have hneeds : ∀ item ∈ items, item.needs ≤ (ofItems items).varCount := fun item hitem =>
    needs_le_foldl_addItem hitem _
  refine Formula.foldl_max_le _ _ _ ?_ fun v hv => ?_
  · obtain ⟨item, hitem, hcount⟩ := List.mem_filterMap.mp (hn.symm ▸ List.mem_singleton_self n)
    cases item <;> cases hcount
    exact hheader.trans_le (hneeds _ hitem)
  · rw [List.map_nil, List.append_nil] at hv
    rcases List.mem_append.mp hv with hv | hv
    · obtain ⟨l, hl, rfl⟩ := List.mem_map.mp hv
      obtain ⟨lits, hlits, hl⟩ := List.mem_flatten.mp hl
      obtain ⟨item, hitem, hclause⟩ := List.mem_filterMap.mp hlits
      cases item <;> cases hclause
      exact Nat.lt_of_lt_of_le (Clause.index_lt_varBound hl) (hneeds _ hitem)
    · obtain ⟨vars, hvars, hv⟩ := Formula.mem_projection_ofItems hv
      exact Nat.lt_of_lt_of_le (Var.index_lt_foldl_max hv 0) (hneeds _ hvars)

/-- **Reading a solver** fails where reading a formula does. Otherwise it gives
the solver for the formula without its weights, except that its limit on learnt
clauses is 0. That solver has fewer variables than the one for the formula if a
weight is about a variable mentioned nowhere else; when it has grown to them it
is the same but for the limit. -/
theorem read_matches (c : Cursor) :
    match Formula.read c with
    | .error e => read c = .error e
    | .ok f => ∃ s, read c = .ok s
        ∧ s = { ofFormula { f with weights := [] } {} with learntLimit := 0 }
        ∧ s.growTo f.numVariables = { ofFormula f {} with learntLimit := 0 }
        ∧ s.Alike (ofFormula f {})
        ∧ (s.varCount = f.numVariables ↔ ∀ w ∈ f.weights, w.1.var.index < s.varCount) := by
  cases hitems : readItems c with
  | error e =>
    unfold Formula.read read
    rw [hitems]
    rfl
  | ok items =>
    obtain ⟨n, hn⟩ := varCount_readItems hitems
    have hread : Formula.read c = .ok (Formula.ofItems items) := by
      unfold Formula.read
      rw [hitems]
      rfl
    have hsolver : read c = .ok (ofItems items) := by
      unfold read
      rw [hitems]
      rfl
    have hheader : (Formula.ofItems items).varCount = n := by
      unfold Formula.ofItems
      rw [hn]
      rfl
    have hprojection := Formula.projection_ofItems items
    have hgrown := ofItems_growTo rfl hprojection
      (Formula.needs_le_numVariables hn hheader rfl hprojection)
    have hunweighted : ofItems items
        = { ofFormula { Formula.ofItems items with weights := [] } {} with learntLimit := 0 } := by
      rw [← growTo_of_le (unweighted_le_ofItems hn hheader)]
      exact ofItems_growTo rfl hprojection
        (Formula.needs_le_numVariables hn hheader rfl hprojection)
    have hcount : (ofItems items).varCount
        = Formula.numVariables { Formula.ofItems items with weights := [] } := by
      rw [hunweighted]
      exact varCount_ofFormula _ _
    have halike := Alike.growTo ((sized_blank {} 0).foldl_addItem items)
      (Formula.ofItems items).numVariables
    rw [show (items.foldl addItem (blank {} 0)).growTo _ = _ from hgrown] at halike
    rw [hread]
    refine ⟨ofItems items, hsolver, hunweighted, hgrown,
      ⟨halike.units, halike.implied, halike.long, halike.trail, halike.conflicted,
        halike.projected, halike.component⟩, fun heq w hw => ?_, fun hw => ?_⟩
    · rw [heq]
      have hmentioned : w.1.var ∈ (Formula.ofItems items).weights.map (·.1.var) :=
        List.mem_map.mpr ⟨w, hw, rfl⟩
      exact Var.index_lt_foldl_max (List.mem_append_right _ hmentioned) _
    · refine Nat.le_antisymm (hcount.trans_le ?_) ?_
      · refine Formula.foldl_max_le _ _ _ (Var.le_foldl_max _ _) fun v hv => ?_
        rw [List.map_nil, List.append_nil] at hv
        exact Var.index_lt_foldl_max (List.mem_append_left _ hv) _
      · refine Formula.foldl_max_le _ _ _ ?_ fun v hv => ?_
        · rw [hcount]
          exact Var.le_foldl_max _ _
        · rcases List.mem_append.mp hv with hv | hv
          · rw [hcount]
            exact Var.index_lt_foldl_max (List.mem_append_left _ hv) _
          · obtain ⟨w, hin, rfl⟩ := List.mem_map.mp hv
            exact hw w hin

/-- A file with one variable, and a weight for another one. -/
def strayWeight : List UInt8 := "p cnf 1 0\nc p weight 5 0.5 0\n".toUTF8.toList

/-- **A solver that is read is not the one for the formula**: it lacks the
variable that only a weight mentions, and its limit on learnt clauses is not the
one of its options. -/
theorem read_stray_weight : ∃ s f,
    read { rest := strayWeight } = .ok s ∧ Formula.read { rest := strayWeight } = .ok f
      ∧ s.varCount = 1 ∧ (ofFormula f {}).varCount = 5
      ∧ s.learntLimit = 0 ∧ (ofFormula f {}).learntLimit = 2000 := by
  have hread : (readItems { rest := strayWeight }).toOption.any (fun items =>
      (ofItems items).varCount = 1 ∧ (ofItems items).learntLimit = 0
        ∧ (Formula.ofItems items).numVariables = 5) = true := by decide +kernel
  obtain ⟨items, hitems, hcounts⟩ := (Option.any_eq_true _ _).mp hread
  obtain ⟨hcount, hlimit, hvars⟩ := of_decide_eq_true hcounts
  have hfile := Except.toOption_eq_some.mp hitems
  refine ⟨ofItems items, Formula.ofItems items, ?_, ?_, hcount, ?_, hlimit, ?_⟩
  · unfold read
    rw [hfile]
    rfl
  · unfold Formula.read
    rw [hfile]
    rfl
  · rw [varCount_ofFormula, hvars]
  · rw [ofFormula_eq]
    show ((Formula.ofItems items).clauses.foldl placeClause _).learntLimit = 2000
    rw [learntLimit_foldl_placeClause]
    exact congrArg Solver.learntLimit (growTo_blank_limit {} 2000 2000 _)

end Solver

end Cleave
