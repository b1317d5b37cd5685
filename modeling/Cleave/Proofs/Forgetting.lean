import Cleave.Proofs.Learning
import Cleave.Solver.Forgetting

/-!
# Forgetting keeps what matters

A reduction drops learnt clauses, moves the others together and makes all
lists anew. Given clauses and the reasons on the trail are among those that
stay, and every reason follows its clause to the new place
(`Solver.redirectReasons`), so the invariant is kept and nothing given is
lost.
-/

namespace Cleave

/-! ## Where the clauses go -/

/-- Notes where the next element goes, if it stays. -/
def place {α : Type} (acc : Array (Option Nat) × Nat) (x : α × Bool) : Array (Option Nat) × Nat :=
  if x.2 then (acc.1.push (some acc.2), acc.2 + 1) else (acc.1.push none, acc.2)

/-- The elements that stay. -/
def staying {α : Type} (xs : List (α × Bool)) : List α :=
  xs.filterMap fun x => if x.2 then some x.1 else none

/-- **The new places.** An element that stays is found at the place its old
position leads to. -/
theorem foldl_place {α : Type} (xs : List (α × Bool)) (map : Array (Option Nat)) (next : Nat) :
    (∀ i, i < map.size → (xs.foldl place (map, next)).1.getD i none = map.getD i none)
      ∧ ∀ i x, xs[i]? = some (x, true) →
          ∃ j, (xs.foldl place (map, next)).1.getD (map.size + i) none = some (next + j)
            ∧ (staying xs)[j]? = some x := by
  induction xs generalizing map next with
  | nil => simp
  | cons y ys ih =>
    obtain ⟨y, stays⟩ := y
    cases stays with
    | true =>
      obtain ⟨hold, hnew⟩ := ih (map.push (some next)) (next + 1)
      have hstep : ((y, true) :: ys).foldl place (map, next)
          = ys.foldl place (map.push (some next), next + 1) := rfl
      rw [hstep]
      refine ⟨fun i hi => ?_, fun i x hx => ?_⟩
      · rw [hold i (by simp; omega)]
        simp [Array.getD_eq_getD_getElem?, Array.getElem?_push, Nat.ne_of_lt hi]
      · cases i with
        | zero =>
          have hx : y = x := by simpa using hx
          refine ⟨0, ?_, by simp [staying, hx]⟩
          have hlast := hold map.size (by simp)
          simpa [Array.getD_eq_getD_getElem?] using hlast
        | succ i =>
          obtain ⟨j, hj, hget⟩ := hnew i x (by simpa using hx)
          refine ⟨j + 1, ?_, by simpa [staying] using hget⟩
          rw [Array.size_push] at hj
          rw [show map.size + (i + 1) = map.size + 1 + i by omega, hj]
          congr 1
          omega
    | false =>
      obtain ⟨hold, hnew⟩ := ih (map.push none) next
      have hstep : ((y, false) :: ys).foldl place (map, next)
          = ys.foldl place (map.push none, next) := rfl
      rw [hstep]
      refine ⟨fun i hi => ?_, fun i x hx => ?_⟩
      · rw [hold i (by simp; omega)]
        simp [Array.getD_eq_getD_getElem?, Array.getElem?_push, Nat.ne_of_lt hi]
      · cases i with
        | zero => exact absurd hx (by simp)
        | succ i =>
          obtain ⟨j, hj, hget⟩ := hnew i x (by simpa using hx)
          refine ⟨j, ?_, by simpa [staying] using hget⟩
          rw [Array.size_push] at hj
          rw [show map.size + (i + 1) = map.size + 1 + i by omega, hj]

namespace ClauseStore

variable {s : ClauseStore} {keep : ClauseId → LongClause → Bool} {count : Nat} {F : List Clause}

/-- Whether the clause at a position stays. -/
def Stays (s : ClauseStore) (keep : ClauseId → LongClause → Bool) (id : ClauseId) : Prop :=
  id < s.long.size ∧ ((s.clause id).learnt = false ∨ keep id (s.clause id) = true)

theorem getElem_longClauses {id : ClauseId} (hid : id < s.long.size) :
    s.longClauses[id]? = some (id, s.clause id) := by
  unfold longClauses
  simp [List.getElem?_range hid]

theorem mem_longClauses {id : ClauseId} {c : LongClause} (h : (id, c) ∈ s.longClauses) :
    id < s.long.size ∧ s.clause id = c := by
  unfold longClauses at h
  obtain ⟨j, hj, he⟩ := List.mem_map.mp h
  obtain ⟨rfl, rfl⟩ := Prod.mk.inj he
  exact ⟨List.mem_range.mp hj, rfl⟩

/-- Each clause with whether it stays. -/
def sorted (s : ClauseStore) (keep : ClauseId → LongClause → Bool) : List (LongClause × Bool) :=
  s.longClauses.map fun (id, c) => (c, !c.learnt || keep id c)

theorem retainLearnt_eq (s : ClauseStore) (keep : ClauseId → LongClause → Bool) :
    s.retainLearnt keep = (((s.sorted keep).foldl place (#[], 0)).1,
      { s with long := (staying (s.sorted keep)).toArray
               learntLong := (staying (s.sorted keep)).countP (·.learnt) }) := rfl

/-- A clause that stays is found where its position leads to. -/
theorem retainLearnt_moved {id : ClauseId} (h : s.Stays keep id) :
    ∃ j, (s.retainLearnt keep).1.getD id none = some j
      ∧ j < (s.retainLearnt keep).2.long.size
      ∧ (s.retainLearnt keep).2.clause j = s.clause id := by
  have hget : (s.sorted keep)[id]? = some (s.clause id, true) := by
    unfold sorted
    rw [List.getElem?_map, getElem_longClauses h.1]
    rcases h.2 with hg | hk <;> simp [*]
  obtain ⟨j, hj, hx⟩ := (foldl_place (s.sorted keep) #[] 0).2 id _ hget
  rw [retainLearnt_eq]
  obtain ⟨hlt, hgetj⟩ := List.getElem?_eq_some_iff.mp hx
  refine ⟨j, by simpa using hj, by simpa using hlt, ?_⟩
  simp [clause, Array.getD_eq_getD_getElem?, hx]

/-- Every clause left was there before. -/
theorem retainLearnt_mem {c : LongClause} (h : c ∈ (s.retainLearnt keep).2.long.toList) :
    c ∈ s.long.toList := by
  rw [retainLearnt_eq] at h
  have h : c ∈ staying (s.sorted keep) := by simpa using h
  unfold staying sorted at h
  obtain ⟨x, hx, hc⟩ := List.mem_filterMap.mp h
  obtain ⟨⟨id, d⟩, hd, rfl⟩ := List.mem_map.mp hx
  obtain ⟨hid, rfl⟩ := mem_longClauses hd
  have he : s.clause id = c := by
    by_cases hstays : (!(s.clause id).learnt || keep id (s.clause id)) = true
    · simpa [hstays] using hc
    · simp [hstays] at hc
  exact he ▸ clause_mem hid

theorem Wf.retainLearnt (h : s.Wf count) (keep : ClauseId → LongClause → Bool) :
    (s.retainLearnt keep).2.Wf count where
  sizeImplications := h.sizeImplications
  impliedInRange := h.impliedInRange
  symmetric := h.symmetric
  contraposed := h.contraposed
  distinct := h.distinct
  unitsInRange := h.unitsInRange
  longThree := fun c hc => h.longThree c (retainLearnt_mem hc)
  longNodup := fun c hc => h.longNodup c (retainLearnt_mem hc)
  longInRange := fun c hc => h.longInRange c (retainLearnt_mem hc)

theorem EntailedBy.retainLearnt (h : s.EntailedBy F) (keep : ClauseId → LongClause → Bool) :
    (s.retainLearnt keep).2.EntailedBy F where
  units := h.units
  binary := h.binary
  long := fun c hc => h.long c (retainLearnt_mem hc)

theorem KeepsGiven.retainLearnt (s : ClauseStore) (keep : ClauseId → LongClause → Bool) :
    KeepsGiven s (s.retainLearnt keep).2 := by
  refine ⟨?_, fun _ hl => hl⟩
  rintro c (⟨id, hid, hg, rfl⟩ | hpair)
  · have hstays : s.Stays keep id := ⟨hid, Or.inl hg⟩
    obtain ⟨j, -, hj, hc⟩ := retainLearnt_moved hstays
    exact ⟨s.lits id, Or.inl ⟨j, hj, hc ▸ hg, congrArg LongClause.lits hc⟩, .refl _⟩
  · exact ⟨c, Or.inr hpair, .refl c⟩

/-- No clause is new. -/
theorem unspent_of_retainLearnt {keep : ClauseId → LongClause → Bool} {done : List Lit} {d : Clause}
    (h : (s.retainLearnt keep).2.Unspent done d) : s.Unspent done d := by
  cases h with
  | binary hb hno => exact .binary hb hno
  | long hc hno => exact .long (retainLearnt_mem hc) hno

/-- What was settled stays so, as no clause is new. -/
theorem settled_retainLearnt {done known : List Lit} (h : Settled done s known)
    (keep : ClauseId → LongClause → Bool) : Settled done (s.retainLearnt keep).2 known where
  long := by
    intro id hf
    obtain ⟨old, hold, he⟩ := mem_long_iff.mp (retainLearnt_mem (clause_mem hf.1))
    exact ⟨hf.1, he ▸ (h.long old ⟨hold, he ▸ hf.2⟩).2⟩
  binary := h.binary

end ClauseStore

/-! ## Lists made anew -/

namespace ClauseStore

/-- The clauses of a store before a position. -/
def upTo (s : ClauseStore) (n : Nat) : ClauseStore := { s with long := s.long.take n }

variable {s : ClauseStore} {n : Nat}

theorem size_upTo (hn : n ≤ s.long.size) : (s.upTo n).long.size = n := by
  show (s.long.take n).size = n
  simp
  omega

/-- One clause more is the clause at the next position. -/
theorem long_upTo_succ (hn : n < s.long.size) :
    (s.upTo (n + 1)).long = ((s.upTo n).addLong (s.clause n)).long := by
  show s.long.take (n + 1) = (s.long.take n).push (s.clause n)
  have htake : ∀ k, (s.long.take k).toList = s.long.toList.take k := fun k => by simp
  apply Array.ext'
  rw [Array.toList_push, htake, htake, List.take_succ_eq_append_getElem (by simpa using hn)]
  simp [clause, Array.getD, hn]

theorem upTo_size (s : ClauseStore) : s.upTo s.long.size = s := by
  have hlong : s.long.take s.long.size = s.long := by simp
  unfold upTo
  rw [hlong]

end ClauseStore

/-- The lists of the first clauses of a store, by induction on their
number. -/
theorem watchAll_prefix {s : ClauseStore} {count : Nat} (h : s.Wf count) (n : Nat)
    (hn : n ≤ s.long.size) :
    WatchesExactly (((List.range n).map fun id => (id, s.clause id)).foldl
        (fun w (x : ClauseId × LongClause) => Solver.watch w x.1 x.2.first x.2.second)
        (LitTable.sized count)) (s.upTo n) count := by
  induction n with
  | zero =>
    refine ⟨LitTable.size_sized count, fun l => ?_, fun l id => ?_⟩
    · show (LitTable.sized count : LitTable (Array ClauseId))[l].toList.Nodup
      rw [LitTable.get_sized]
      exact List.nodup_nil
    · show id ∈ (LitTable.sized count : LitTable (Array ClauseId))[l].toList ↔ _
      rw [LitTable.get_sized]
      refine ⟨fun hm => absurd hm List.not_mem_nil, fun hm => absurd hm.1 ?_⟩
      rw [ClauseStore.size_upTo hn]
      exact Nat.not_lt_zero id
  | succ n ih =>
    have hlt : n < s.long.size := hn
    have hmem := ClauseStore.clause_mem hlt
    have hadd := (ih (Nat.le_of_lt hlt)).add
      (h.longInRange _ hmem _ List.mem_cons_self)
      (h.longInRange _ hmem _ (List.mem_cons_of_mem _ List.mem_cons_self))
      (h.first_ne_second hlt)
    rw [ClauseStore.size_upTo (Nat.le_of_lt hlt)] at hadd
    rw [List.range_succ, List.map_append, List.foldl_append]
    refine hadd.of_same fun id l => ?_
    have hlong := ClauseStore.long_upTo_succ hlt
    generalize s.clause n = c at hlong
    unfold ClauseStore.Watches ClauseStore.clause
    rw [hlong]

theorem watchesExactly_watchAll {s : ClauseStore} {count : Nat} (h : s.Wf count) :
    WatchesExactly (Solver.watchAll s count) s count := by
  have hall := watchAll_prefix h s.long.size (Nat.le_refl _)
  rwa [ClauseStore.upTo_size] at hall

/-- The index of the first clauses of a store, by induction on their number. -/
theorem ofStore_prefix {s : ClauseStore} {count : Nat} (h : s.Wf count) (n : Nat)
    (hn : n ≤ s.long.size) :
    Listed ((((List.range n).map fun id => (id, s.clause id)).filter fun (_, c) => !c.learnt).foldl
        (fun m (x : ClauseId × LongClause) => m.insert x.1 x.2.lits)
        (Membership.empty.resize count)) (s.upTo n) count := by
  induction n with
  | zero => exact listed_empty (Array.size_eq_zero_iff.mp (ClauseStore.size_upTo hn)) count
  | succ n ih =>
    have hlt : n < s.long.size := hn
    have hmem := ClauseStore.clause_mem hlt
    have hold := ih (Nat.le_of_lt hlt)
    rw [List.range_succ, List.map_append, List.filter_append, List.foldl_append]
    cases hc : (s.clause n).learnt with
    | true =>
      refine Listed.of_long_eq ?_ (ClauseStore.long_upTo_succ hlt)
      simpa [hc] using hold.addLearnt hc
    | false =>
      have hadd := hold.addGiven hc (h.longThree _ hmem) (h.longNodup _ hmem) (h.longInRange _ hmem)
      rw [ClauseStore.size_upTo (Nat.le_of_lt hlt)] at hadd
      refine Listed.of_long_eq ?_ (ClauseStore.long_upTo_succ hlt)
      simpa [hc] using hadd

/-- **An index made anew** is exact. -/
theorem listed_ofStore {s : ClauseStore} {count : Nat} (h : s.Wf count) :
    Listed (Membership.ofStore s count) s count := by
  have hall := ofStore_prefix h s.long.size (Nat.le_refl _)
  rwa [ClauseStore.upTo_size] at hall

/-- The given clauses of a store, by position. -/
theorem ClauseStore.mem_givenLong {s : ClauseStore} {x : ClauseId × LongClause} :
    x ∈ s.givenLong ↔ s.Gives x.1 ∧ s.clause x.1 = x.2 := by
  unfold ClauseStore.givenLong ClauseStore.Gives
  rw [List.mem_filter]
  constructor
  · rintro ⟨hx, hlearnt⟩
    obtain ⟨hid, hclause⟩ := ClauseStore.mem_longClauses hx
    exact ⟨⟨hid, by rw [hclause]; simpa using hlearnt⟩, hclause⟩
  · rintro ⟨⟨hid, hlearnt⟩, hclause⟩
    refine ⟨List.mem_map.mpr ⟨x.1, List.mem_range.mpr hid, by rw [hclause]⟩, ?_⟩
    rw [hclause] at hlearnt
    simpa using hlearnt

/-! ## Reasons follow their clauses -/

namespace Solver

variable {F : List Clause} {s s' : Solver}

/-- Setting positions of an array of flags. -/
theorem foldl_lock (t : Trail) (ls : List Lit) (a : Array Bool) {id : ClauseId}
    (hid : id < a.size) (h : a.getD id false = true ∨ ∃ l ∈ ls, t.reasonOf l.var = .long id) :
    (ls.foldl (fun a l => match t.reasonOf l.var with
      | .long id => a.setIfInBounds id true
      | _ => a) a).getD id false = true := by
  induction ls generalizing a with
  | nil => exact h.resolve_right (by simp)
  | cons l rest ih =>
    rw [List.foldl_cons]
    cases hr : t.reasonOf l.var with
    | long j =>
      simp only
      refine ih _ (by simpa using hid) ?_
      by_cases hj : j = id
      · left
        subst hj
        simp [Array.getD_eq_getD_getElem?, hid]
      · have hget : (a.setIfInBounds j true).getD id false = a.getD id false := by
          simp [Array.getD_eq_getD_getElem?, hj]
        rw [hget]
        refine h.imp_right ?_
        rintro ⟨m, hm, hmr⟩
        rcases List.mem_cons.mp hm with rfl | hm
        · rw [hr] at hmr
          exact absurd (Reason.long.inj hmr) hj
        · exact ⟨m, hm, hmr⟩
    | _ =>
      simp only
      refine ih _ hid (h.imp_right ?_)
      rintro ⟨m, hm, hmr⟩
      rcases List.mem_cons.mp hm with rfl | hm
      · rw [hr] at hmr
        exact absurd hmr (by simp)
      · exact ⟨m, hm, hmr⟩

/-- The reasons on the trail are locked. -/
theorem locked_of_reason {l : Lit} {id : ClauseId} (hid : id < s.store.long.size)
    (hl : l ∈ s.trail.lits.toList) (hr : s.trail.reasonOf l.var = .long id) :
    s.lockedClauses.getD id false = true := by
  unfold lockedClauses
  rw [← Array.foldl_toList]
  exact foldl_lock s.trail _ _ (by simpa using hid) (Or.inr ⟨l, hl, hr⟩)

/-- Where a reason leads after clauses moved. -/
def redirected (moved : Array (Option ClauseId)) : Reason → Reason
  | .long id => .long ((moved.getD id none).getD id)
  | r => r

/-- Redirects the reason of one literal. -/
def redirect (t : Trail) (moved : Array (Option ClauseId)) (reasons : VarTable Reason) (l : Lit) :
    VarTable Reason :=
  match t.reasonOf l.var with
  | .long id => reasons.set l.var (.long ((moved.getD id none).getD id))
  | _ => reasons

theorem redirectReasons_eq (t : Trail) (moved : Array (Option ClauseId)) :
    redirectReasons t moved
      = { t with reasons := t.lits.toList.foldl (redirect t moved) t.reasons } := by
  unfold redirectReasons
  simp only
  rw [← Array.foldl_toList]
  rfl

section Redirect

variable {t : Trail} (moved : Array (Option ClauseId)) {reasons : VarTable Reason}

theorem size_redirect (l : Lit) : (redirect t moved reasons l).size = reasons.size := by
  unfold redirect
  split <;> simp

theorem redirect_self {l : Lit} (hl : l.var.index < reasons.size)
    (h : reasons[l.var] = t.reasonOf l.var) :
    (redirect t moved reasons l)[l.var] = redirected moved (t.reasonOf l.var) := by
  unfold redirect
  cases hr : t.reasonOf l.var with
  | long id => exact VarTable.get_set_self hl _
  | decision => exact h.trans hr
  | binary other => exact h.trans hr

theorem redirect_ne {l : Lit} {v : Var} (hv : l.var ≠ v) :
    (redirect t moved reasons l)[v] = reasons[v] := by
  unfold redirect
  split
  · exact VarTable.get_set_ne _ hv _
  · rfl

/-- Redirecting along a list, by induction: each variable is met once. -/
theorem foldl_redirect (ls : List Lit) (hnodup : (ls.map Lit.var).Nodup)
    (hrange : ∀ l ∈ ls, l.var.index < reasons.size)
    (h : ∀ l ∈ ls, reasons[l.var] = t.reasonOf l.var) :
    (ls.foldl (redirect t moved) reasons).size = reasons.size
      ∧ (∀ v, (∀ l ∈ ls, l.var ≠ v) → (ls.foldl (redirect t moved) reasons)[v] = reasons[v])
      ∧ ∀ l ∈ ls, (ls.foldl (redirect t moved) reasons)[l.var]
          = redirected moved (t.reasonOf l.var) := by
  induction ls generalizing reasons with
  | nil => simp
  | cons l rest ih =>
    obtain ⟨hl, hrest⟩ := List.nodup_cons.mp hnodup
    have hne : ∀ m ∈ rest, l.var ≠ m.var := fun m hm he => hl (he ▸ List.mem_map_of_mem hm)
    have hsize : (redirect t moved reasons l).size = reasons.size := size_redirect moved l
    obtain ⟨h1, h2, h3⟩ := @ih (redirect t moved reasons l) hrest
      (fun m hm => by rw [hsize]; exact hrange m (List.mem_cons_of_mem _ hm))
      (fun m hm => by
        rw [redirect_ne moved (hne m hm)]
        exact h m (List.mem_cons_of_mem _ hm))
    refine ⟨h1.trans hsize, fun v hv => ?_, fun m hm => ?_⟩
    · rw [List.foldl_cons, h2 v fun m hm => hv m (List.mem_cons_of_mem _ hm)]
      exact redirect_ne moved (hv l List.mem_cons_self)
    · rcases List.mem_cons.mp hm with rfl | hm
      · rw [List.foldl_cons, h2 m.var fun x hx => Ne.symm (hne x hx)]
        exact redirect_self moved (hrange m List.mem_cons_self) (h m List.mem_cons_self)
      · exact h3 m hm

end Redirect

theorem redirectReasons_spec {t : Trail} {count : Nat} (h : t.Wf count)
    (moved : Array (Option ClauseId)) :
    (Solver.redirectReasons t moved).Wf count
      ∧ ∀ l ∈ t.lits.toList, (Solver.redirectReasons t moved).reasonOf l.var
          = redirected moved (t.reasonOf l.var) := by
  obtain ⟨hsize, -, hreason⟩ := foldl_redirect moved t.lits.toList h.nodup
    (fun l hl => by rw [h.sizeReasons]; exact h.inRange l hl) (fun _ _ => rfl)
  rw [redirectReasons_eq]
  exact ⟨{ h with sizeReasons := hsize.trans h.sizeReasons }, hreason⟩

end Solver

/-! ## A reduction -/

/-- A reason that stays is found again where its clause went. -/
theorem Explains.redirect {store : ClauseStore} {t : Trail} {pre : List Lit} {l : Lit}
    {r : Reason} {keep : ClauseId → LongClause → Bool} (h : Explains store t pre l r)
    (hstays : ∀ id < store.long.size, r = .long id → store.Stays keep id) :
    Explains (store.retainLearnt keep).2
      (Solver.redirectReasons t (store.retainLearnt keep).1) pre l
      (Solver.redirected (store.retainLearnt keep).1 r) := by
  rw [Solver.redirectReasons_eq]
  cases r with
  | decision => exact h
  | binary other => exact h
  | long id =>
    obtain ⟨j, hj, hlt, hclause⟩ := ClauseStore.retainLearnt_moved (hstays id h.1.1 rfl)
    have hred : Solver.redirected (store.retainLearnt keep).1 (.long id) = .long j := by
      show Reason.long (((store.retainLearnt keep).1.getD id none).getD id) = _
      rw [hj]
      rfl
    have hlits : (store.retainLearnt keep).2.lits j = store.lits id :=
      congrArg LongClause.lits hclause
    rw [hred]
    exact ⟨⟨hlt, hclause ▸ h.1.2⟩, hlits ▸ h.2⟩

/-- **The invariant with learnt clauses dropped** and all lists made anew, if
the clauses that are reasons stay. -/
theorem Consistent.retainLearnt {F : List Clause} {count : Nat} {store : ClauseStore}
    {membership : Membership} {watches : LitTable (Array ClauseId)} {t : Trail}
    {pending : List Lit} {conflicted : Bool}
    (h : Consistent F count store membership watches t pending conflicted)
    {keep : ClauseId → LongClause → Bool}
    (hstays : ∀ l ∈ t.lits.toList, ∀ id < store.long.size, t.reasonOf l.var = .long id →
      store.Stays keep id) :
    Consistent F count (store.retainLearnt keep).2
      (Membership.ofStore (store.retainLearnt keep).2 count)
      (Solver.watchAll (store.retainLearnt keep).2 count)
      (Solver.redirectReasons t (store.retainLearnt keep).1) pending conflicted := by
  have hwf := h.store.retainLearnt keep
  obtain ⟨htrail, hreason⟩ := Solver.redirectReasons_spec h.trail (store.retainLearnt keep).1
  refine ⟨htrail, hwf, watchesExactly_watchAll hwf, listed_ofStore hwf,
    h.entailed.retainLearnt keep, fun pre l post hsplit => ?_, ?_, h.refuted⟩
  · have hsplit : t.lits.toList = pre ++ l :: post := by
      rwa [Solver.redirectReasons_eq] at hsplit
    have hmem : l ∈ t.lits.toList := by
      rw [hsplit]
      simp
    have hj := h.justified pre l post hsplit
    refine ⟨?_, ?_, ?_, fun hstart => ?_⟩
    · rw [Solver.redirectReasons_eq]
      exact hj.level
    · rw [Solver.redirectReasons_eq]
      exact hj.root
    · rw [hreason l hmem]
      exact hj.explained.redirect (hstays l hmem)
    · rw [Solver.redirectReasons_eq] at hstart
      obtain ⟨hlevel, hdecision⟩ := hj.opened hstart
      rw [hreason l hmem, hdecision, Solver.redirectReasons_eq]
      exact ⟨hlevel, rfl⟩
  · rw [Solver.redirectReasons_eq]
    exact h.pending

namespace Solver

variable {F : List Clause} {s s' : Solver}

/-- **What a reduction changes**: the clauses and their lists, and the reasons
that point to them. -/
structure Reduced (s s' : Solver) : Prop where
  others : { s with store := s'.store, trail := { s.trail with reasons := s'.trail.reasons },
                    watches := s'.watches, membership := s'.membership,
                    activity := s'.activity, learntLimit := s'.learntLimit,
                    stats := s'.stats } = s'
  given : s.store.KeepsGiven s'.store
  unspent : ∀ done d, s'.store.Unspent done d → s.store.Unspent done d
  settled : ∀ done known, Settled done s.store known → Settled done s'.store known

/-- A clause that is a reason survives, since it is locked. -/
theorem stays_of_reason {last? recent? : Option ClauseId} {l : Lit} {id : ClauseId}
    (hid : id < s.store.long.size) (hl : l ∈ s.trail.lits.toList)
    (hr : s.trail.reasonOf l.var = .long id) :
    s.store.Stays (s.survives last? recent? s.lockedClauses) id := by
  refine ⟨hid, Or.inr ?_⟩
  unfold survives
  rw [locked_of_reason hid hl hr]
  simp

/-- **Forgetting** keeps the invariant: every reason on the trail is locked, so
it stays and is found again. -/
theorem reduceLearnts_spec (hs : Sound F s) (h : s.reduceLearnts = .ok s') :
    Sound F s' ∧ Reduced s s' := by
  unfold reduceLearnts at h
  simp only at h
  split at h
  · cases h
    exact ⟨hs, ⟨rfl, .refl _, fun _ _ hd => hd, fun _ _ hset => hset⟩⟩
  · obtain ⟨activity, -, h⟩ := Except.bind_eq_ok.mp h
    cases h
    refine ⟨hs.retainLearnt fun l hl id hid hr => stays_of_reason hid hl hr,
      ⟨?_, .retainLearnt _ _, fun _ _ hd => ClauseStore.unspent_of_retainLearnt hd,
        fun _ _ hset => ClauseStore.settled_retainLearnt hset _⟩⟩
    simp only [redirectReasons_eq]

end Solver

end Cleave
