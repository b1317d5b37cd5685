import Cleave.Proofs.Watching

/-!
# What propagation does

Propagation keeps the invariant of the solver, and of the state it changes
little (`Solver.Grown`): the clauses are rearranged, and literals are added
at the end of the trail. It ends either with everything propagated or with a
conflict, a clause that `F` entails and whose literals are all false
(`Solver.Refutes`).

The second half is about what propagation finds. The clauses are *settled* up to
a position of the trail if none of them has both its watched literals made false
before that position, but for those that some literals that are done with had made
false already (`Settled`). A full propagation settles the whole trail; a conflict
leaves settled what was, and everything before the literal whose consequences were
being drawn.
-/

namespace Cleave

namespace Solver

variable {F : List Clause} {s s' s'' : Solver}

/-- **Literals that propagation does not lead out of**: whatever a clause
forces within the scope, once the others of its literals are opposed, is one of
them. -/
structure UnitClosed (s : Solver) (R : Lit → Prop) : Prop where
  binary : ∀ l, R l → ∀ b ∈ s.store.implied l, s.inScope b.var = true → R b
  long : ∀ id < s.store.long.size, ∀ l ∈ s.store.lits id, s.inScope l.var = true →
    (∀ m ∈ s.store.lits id, m ≠ l → R m.neg) → R l

/-- **A clause with a loose end**: one of its watched literals is known to be
false, and the other one is not true. -/
def Loose (s : Solver) (known : List Lit) (id : ClauseId) : Prop :=
  id < s.store.long.size
    ∧ (((s.store.clause id).first.neg ∈ known ∧ (s.store.clause id).second ∉ s.trail.lits.toList)
      ∨ ((s.store.clause id).second.neg ∈ known
        ∧ (s.store.clause id).first ∉ s.trail.lits.toList))

/-- **What propagation may change.** -/
structure Grown (s s' : Solver) : Prop where
  others : { s with store := s'.store, watches := s'.watches, trail := s'.trail,
                    stats := s'.stats } = s'
  store : s.store.Rearranged s'.store
  starts : s'.trail.starts = s.trail.starts
  lits : s.trail.lits.toList <+: s'.trail.lits.toList
  head : s.trail.head ≤ s'.trail.head
  /-- A clause that is falsified by literals that were true before watches what it
  did. -/
  unmoved : ∀ known, (∀ l ∈ known, l ∈ s.trail.lits.toList) →
    ∀ id, s'.store.Falsified known id → ∀ l, s'.store.Watches id l ↔ s.store.Watches id l
  /-- None gets a loose end from them. -/
  loose : ∀ known, (∀ l ∈ known, l ∈ s.trail.lits.toList) →
    ∀ id, s'.Loose known id → s.Loose known id
  /-- Assigned variables keep their level. -/
  levels : ∀ l ∈ s.trail.lits.toList, s'.trail.levelOf l.var = s.trail.levelOf l.var
  /-- What is added has the current level. -/
  current : ∀ l ∈ s'.trail.lits.toList, l ∉ s.trail.lits.toList → s'.trail.levelOf l.var = s.level
  /-- What is added is no decision. -/
  decisions : ∀ l ∈ s'.trail.lits.toList, s'.trail.reasonOf l.var = .decision →
    l ∈ s.trail.lits.toList ∧ s.trail.reasonOf l.var = .decision
  /-- What is added is forced by the clauses. -/
  forced : ∀ R, s.UnitClosed R → (∀ l ∈ s.trail.lits.toList, R l) →
    ∀ l ∈ s'.trail.lits.toList, R l

/-- Rearranged clauses force the same literals. -/
theorem UnitClosed.congr {R : Lit → Prop} (h : s.UnitClosed R)
    (hstore : s.store.Rearranged s'.store) (hscope : s'.scope = s.scope) : s'.UnitClosed R where
  binary := by
    intro l hl b hb hin
    rw [hstore.implied] at hb
    unfold inScope at hin
    rw [hscope] at hin
    exact h.binary l hl b hb hin
  long := by
    intro id hid l hl hin hm
    unfold inScope at hin
    rw [hscope] at hin
    exact h.long id (hstore.size ▸ hid) l ((hstore.perm id).mem_iff.mp hl) hin
      fun m hmem => hm m ((hstore.perm id).mem_iff.mpr hmem)

namespace Grown

theorem refl (s : Solver) : Grown s s :=
  ⟨rfl, .refl _, rfl, List.prefix_refl _, Nat.le_refl _, fun _ _ _ _ _ => .rfl, fun _ _ _ h => h,
    fun _ _ => rfl, fun _ hl hno => absurd hl hno, fun _ hl hr => ⟨hl, hr⟩, fun _ _ h => h⟩

/-- No clause becomes falsified by literals that were true before. -/
theorem falsified (h : Grown s s') {known : List Lit} (hk : ∀ l ∈ known, l ∈ s.trail.lits.toList)
    {id : ClauseId} (hf : s'.store.Falsified known id) : s.store.Falsified known id :=
  hf.congr (h.store.size ▸ hf.1) fun l hl => (h.unmoved known hk id hf l).mpr hl

theorem trans (h : Grown s s') (h' : Grown s' s'') : Grown s s'' where
  others := by
    rw [← h'.others, ← h.others]
  store := h.store.trans h'.store
  starts := h'.starts.trans h.starts
  lits := h.lits.trans h'.lits
  head := Nat.le_trans h.head h'.head
  unmoved := fun known hk id hf l =>
    have hk' := fun l hl => h.lits.subset (hk l hl)
    (h'.unmoved known hk' id hf l).trans (h.unmoved known hk id (h'.falsified hk' hf) l)
  loose := fun known hk id hl =>
    h.loose known hk id (h'.loose known (fun l hl => h.lits.subset (hk l hl)) id hl)
  levels := fun l hl => (h'.levels l (h.lits.subset hl)).trans (h.levels l hl)
  current := by
    intro l hl hno
    by_cases hmid : l ∈ s'.trail.lits.toList
    · exact (h'.levels l hmid).trans (h.current l hmid hno)
    · exact (h'.current l hl hmid).trans (congrArg Array.size h.starts)
  decisions := fun l hl hr =>
    have hmid := h'.decisions l hl hr
    h.decisions l hmid.1 hmid.2
  forced := fun R hR hl =>
    h'.forced R (hR.congr h.store (congrArg Solver.scope h.others).symm) (h.forced R hR hl)

/-- Assigning an open literal that is forced. -/
theorem assign {l : Lit} {reason : Reason} (hwf : s.trail.Wf s.varCount)
    (hl : l.var.index < s.varCount) (hopen : s.trail.isAssigned l.var = false)
    (hreason : reason ≠ .decision)
    (hforced : ∀ R, s.UnitClosed R → (∀ m ∈ s.trail.lits.toList, R m) → R l) :
    Grown s (s.assign l reason) where
  others := rfl
  store := .refl _
  starts := rfl
  lits := by simp [Solver.assign]
  head := Nat.le_refl _
  unmoved := fun _ _ _ _ _ => .rfl
  loose := by
    rintro known - id ⟨hid, hend⟩
    -- what is not true afterwards was not true before
    have hold : ∀ m, m ∉ (s.assign l reason).trail.lits.toList → m ∉ s.trail.lits.toList :=
      fun m hm hin => hm (by simp [Solver.assign, hin])
    exact ⟨hid, hend.imp (fun h => ⟨h.1, hold _ h.2⟩) fun h => ⟨h.1, hold _ h.2⟩⟩
  levels := fun m hm => Trail.levelOf_push_ne _ (hwf.var_ne_of_open hopen m hm) _ _
  current := by
    intro m hm hno
    have hm : m ∈ s.trail.lits.toList ++ [l] := Trail.lits_push s.trail l _ _ ▸ hm
    rw [List.mem_singleton.mp ((List.mem_append.mp hm).resolve_left hno)]
    exact Trail.levelOf_push_self hwf.sizeLevels hl _ _
  decisions := by
    intro m hm hr
    have hm : m ∈ s.trail.lits.toList ++ [l] := Trail.lits_push s.trail l _ _ ▸ hm
    have hr : (s.trail.push l s.trail.level reason).reasonOf m.var = .decision := hr
    rcases List.mem_append.mp hm with hm | hm
    · rw [Trail.reasonOf_push_ne _ (hwf.var_ne_of_open hopen m hm)] at hr
      exact ⟨hm, hr⟩
    · rw [List.mem_singleton.mp hm, Trail.reasonOf_push_self hwf.sizeReasons hl] at hr
      exact absurd hr hreason
  forced := by
    intro R hR hl m hm
    have hm : m ∈ (s.trail.push l s.trail.level reason).lits.toList := hm
    rw [Trail.lits_push] at hm
    rcases List.mem_append.mp hm with hm | hm
    · exact hl m hm
    · rw [List.mem_singleton.mp hm]
      exact hforced R hR hl

theorem varCount (h : Grown s s') : s'.varCount = s.varCount :=
  (congrArg Solver.varCount h.others).symm

theorem size (h : Grown s s') : s.trail.lits.size ≤ s'.trail.lits.size := by
  simpa using h.lits.length_le

theorem level (h : Grown s s') : s'.level = s.level :=
  congrArg Array.size h.starts

end Grown

/-- The clause of a conflict is a stored one. -/
def StoresConflict (s : Solver) : Conflict → Prop
  | .binary a b => b ∈ s.store.implied a.neg
  | .long id => id < s.store.long.size

/-- **A conflict**: a stored clause that `F` entails, all of it false. -/
structure Refutes (F : List Clause) (s : Solver) (c : Conflict) : Prop where
  stored : s.StoresConflict c
  entailed : Entails F (s.conflictLits c)
  isFalse : ∀ l ∈ s.conflictLits c, l.neg ∈ s.trail.lits.toList

theorem inScope_of_none (h : s.scope.current = none) (v : Var) : s.inScope v = true := by
  unfold inScope ScopeTable.admits
  rw [h]
  rfl

/-- **A clause within the scope**: its open variables belong to it. -/
def Admits (s : Solver) (d : Clause) : Prop :=
  ∀ m ∈ d, m ∉ s.trail.lits.toList → m.neg ∉ s.trail.lits.toList → s.inScope m.var = true

theorem admits_of_none (h : s.scope.current = none) (d : Clause) : s.Admits d :=
  fun m _ _ _ => inScope_of_none h m.var

theorem Admits.perm {d e : Clause} (h : s.Admits d) (hperm : e.Perm d) : s.Admits e :=
  fun m hm => h m (hperm.mem_iff.mp hm)

/-- A clause stays within the scope while its variables are assigned. -/
theorem Admits.grown {d : Clause} (h : s.Admits d) (hg : Grown s s') : s'.Admits d := by
  intro m hm hopen hno
  have hscope : s'.scope = s.scope := (congrArg Solver.scope hg.others).symm
  have hin := h m hm (fun hl => hopen (hg.lits.subset hl)) fun hl => hno (hg.lits.subset hl)
  unfold inScope at hin ⊢
  rwa [hscope]

/-! ## One long clause -/

section Visit

variable {x : Lit} {id : ClauseId}

theorem setClause_eq (s : Solver) (id : ClauseId) (c : LongClause) :
    s.setClause id c = { s with store := s.store.replace id c } := rfl

/-- Replacing a clause by a rearranged one that is not falsified, unless it
watches the same literals. -/
theorem Grown.replace (hid : id < s.store.long.size) {c : LongClause}
    (hperm : c.lits.Perm (s.store.lits id)) (hlearnt : c.learnt = (s.store.clause id).learnt)
    (hf : c.first.neg ∈ s.trail.lits.toList → c.second.neg ∈ s.trail.lits.toList →
      ∀ l, (s.store.replace id c).Watches id l ↔ s.store.Watches id l)
    (hl : ∀ known, (∀ l ∈ known, l ∈ s.trail.lits.toList) →
      (c.first.neg ∈ known ∧ c.second ∉ s.trail.lits.toList)
        ∨ (c.second.neg ∈ known ∧ c.first ∉ s.trail.lits.toList) → s.Loose known id)
    (w : LitTable (Array ClauseId)) :
    Grown s { s with store := s.store.replace id c, watches := w } where
  others := rfl
  store := .replace hid hperm hlearnt
  starts := rfl
  lits := List.prefix_refl _
  head := Nat.le_refl _
  unmoved := by
    intro known hk j hj l
    by_cases hji : j = id
    · rw [hji]
      rw [hji, ClauseStore.Falsified, ClauseStore.clause_replace_self hid] at hj
      exact hf (hk _ hj.2.1) (hk _ hj.2.2) l
    · exact ClauseStore.watches_replace_ne hji c l
  loose := by
    intro known hk j hj
    unfold Loose at hj
    simp only [ClauseStore.size_replace] at hj
    by_cases hji : id = j
    · rw [← hji, ClauseStore.clause_replace_self hid] at hj
      exact hji ▸ hl known hk hj.2
    · rw [ClauseStore.clause_replace_ne _ hji] at hj
      exact hj
  levels := fun _ _ => rfl
  current := fun _ hl hno => absurd hl hno
  decisions := fun _ hl hr => ⟨hl, hr⟩
  forced := fun _ _ hl => hl

/-- A loose end of a turned clause is one of the clause. -/
theorem Loose.of_turned (hid : id < s.store.long.size) {known : List Lit}
    (h : (((s.store.clause id).turned x).first.neg ∈ known
          ∧ ((s.store.clause id).turned x).second ∉ s.trail.lits.toList)
        ∨ (((s.store.clause id).turned x).second.neg ∈ known
          ∧ ((s.store.clause id).turned x).first ∉ s.trail.lits.toList)) : s.Loose known id := by
  unfold LongClause.turned at h
  split at h
  · exact ⟨hid, h.symm⟩
  · exact ⟨hid, h⟩

theorem Grown.turn (hid : id < s.store.long.size) (x : Lit) :
    Grown s (s.setClause id ((s.store.clause id).turned x)) :=
  Grown.replace hid (LongClause.perm_turned _ _) (LongClause.learnt_turned _ _)
    (fun _ _ => ClauseStore.watches_turned hid x id) (fun _ _ hend => .of_turned hid hend) s.watches

/-- The state with the list of `x` replaced, as it is once all clauses of the
list are visited. -/
def listing (s : Solver) (x : Lit) (ids : Array ClauseId) : Solver :=
  { s with watches := s.watches.set x ids }

/-- The list after a visit: a clause that moves leaves it. -/
def Visit.listed (v : Visit) (kept : Array ClauseId) (id : ClauseId) : Array ClauseId :=
  if v = .moves then kept else kept.push id

/-- **One visit** to a clause of the list of `x`, which is false: the
invariant is kept, with the clause left on the list unless it moves. -/
structure VisitSpec (F : List Clause) (x : Lit) (id : ClauseId) (kept : Array ClauseId)
    (rest : List ClauseId) (s : Solver) (v : Visit) (s' : Solver) : Prop where
  sound : Sound F (s'.listing x (v.listed kept id ++ rest.toArray))
  grown : Grown s s'
  head : s'.trail.head = s.trail.head
  /-- Without a conflict the clause is not falsified. -/
  unfalsified : v ≠ .conflicts → ∀ known, (∀ l ∈ known, l ∈ s.trail.lits.toList) →
    ¬ s'.store.Falsified known id
  /-- If the scope admits it, it has no new loose end. -/
  tight : v ≠ .conflicts → s.Admits (s.store.lits id) → ∀ known,
    (∀ l ∈ known, l ∈ s.trail.lits.toList) → s'.Loose (x.neg :: known) id → s.Loose known id
  /-- Other literals that are false are watched by the same clauses. -/
  pinned : ∀ w, w ≠ x → w.neg ∈ s.trail.lits.toList → ∀ j,
    s'.store.Watches j w ↔ s.store.Watches j w
  /-- What it adds is the only literal left, and watched. -/
  added : ∀ m ∈ s'.trail.lits.toList, m ∉ s.trail.lits.toList →
    s'.store.Watches id m ∧ s'.store.Watches id x
      ∧ ∀ k ∈ s.store.lits id, k ≠ m → k.neg ∈ s.trail.lits.toList
  conflict : v = .conflicts → Refutes F s' (.long id)

theorem push_append_toArray (kept : Array ClauseId) (id : ClauseId) (rest : List ClauseId) :
    kept.push id ++ rest.toArray = kept ++ (id :: rest).toArray := by
  apply Array.ext'
  simp

/-- Turning a clause keeps the invariant. -/
theorem Sound.turn {kept : Array ClauseId} {rest : List ClauseId}
    (hs : Sound F (s.listing x (kept ++ (id :: rest).toArray))) (hid : id < s.store.long.size) :
    Sound F ((s.setClause id ((s.store.clause id).turned x)).listing x
      (kept.push id ++ rest.toArray)) := by
  rw [push_append_toArray]
  exact hs.rearrange
    (.replace hid (LongClause.perm_turned _ _) (LongClause.learnt_turned _ _))
    (hs.watches.turn hid x) fun l _ j => (ClauseStore.watches_turned hid x j l).mpr

/-- A clause whose first literal is true has no loose end. -/
theorem not_loose {count : Nat} (hwf : s.trail.Wf count) {known : List Lit}
    (hk : ∀ l ∈ known, l ∈ s.trail.lits.toList)
    (hfirst : (s.store.clause id).first ∈ s.trail.lits.toList) : ¬ s.Loose known id := by
  rintro ⟨-, ⟨hneg, -⟩ | ⟨-, hno⟩⟩
  · exact hwf.not_mem_neg hfirst (hk _ hneg)
  · exact hno hfirst

/-- A clause that keeps its watch and is only turned. -/
theorem VisitSpec.of_turn {kept : Array ClauseId} {rest : List ClauseId}
    (hs : Sound F (s.listing x (kept ++ (id :: rest).toArray))) (hid : id < s.store.long.size)
    (hx : x.neg ∈ s.trail.lits.toList) {v : Visit} (hv : v ≠ .moves)
    (hopen : v ≠ .conflicts → ¬ ((s.store.clause id).turned x).first.neg ∈ s.trail.lits.toList)
    (htrue : v ≠ .conflicts → s.Admits (s.store.lits id) →
      ((s.store.clause id).turned x).first ∈ s.trail.lits.toList)
    (hfalse : v = .conflicts →
      ∀ l ∈ ((s.store.clause id).turned x).lits, l.neg ∈ s.trail.lits.toList) :
    VisitSpec F x id kept rest s v (s.setClause id ((s.store.clause id).turned x)) where
  sound := by
    unfold Visit.listed
    rw [if_neg hv]
    exact hs.turn hid
  grown := .turn hid x
  head := rfl
  unfalsified := by
    intro hc known hk hf
    have hfirst := hf.2.1
    rw [setClause_eq, ClauseStore.clause_replace_self hid] at hfirst
    exact hopen hc (hk _ hfirst)
  tight := by
    intro hc hadmits known hk hloose
    refine absurd hloose (not_loose (s := s.setClause id _) hs.trail ?_ ?_)
    · exact fun l hl => (List.mem_cons.mp hl).elim (fun he => he ▸ hx) (hk l)
    · rw [setClause_eq, ClauseStore.clause_replace_self hid]
      exact htrue hc hadmits
  pinned := fun w _ _ j => ClauseStore.watches_turned hid x j w
  added := fun _ hm hno => absurd hm hno
  conflict := by
    intro hc
    have hclause : (s.setClause id ((s.store.clause id).turned x)).conflictLits (.long id)
        = ((s.store.clause id).turned x).lits :=
      congrArg LongClause.lits (ClauseStore.clause_replace_self hid _)
    refine ⟨?_, ?_, ?_⟩
    · rw [setClause_eq]
      show id < (s.store.replace id _).long.size
      rw [ClauseStore.size_replace]
      exact hid
    · rw [hclause]
      exact (hs.entailed.clause hid).perm (LongClause.perm_turned _ _).symm
    · rw [hclause]
      exact hfalse hc

/-- The clauses on the list of `x` watch it. -/
theorem watches_of_listing {kept : Array ClauseId} {rest : List ClauseId}
    (hs : Sound F (s.listing x (kept ++ (id :: rest).toArray)))
    (hx : x.neg ∈ s.trail.lits.toList) : s.store.Watches id x := by
  have hxr : x.var.index < s.varCount := hs.trail.inRange x.neg hx
  have hsize : (s.watches.set x (kept ++ (id :: rest).toArray)).size = 2 * s.varCount :=
    hs.watches.size
  rw [LitTable.size_set] at hsize
  refine (hs.watches.mem_iff x id).mp ?_
  show id ∈ (s.watches.set x (kept ++ (id :: rest).toArray))[x].toList
  rw [LitTable.get_set_self (by rw [hsize]; exact Lit.code_lt.mpr hxr)]
  simp

/-- The first literal of a turned clause is neither watched second nor among
the rest. -/
theorem first_turned_ne {kept : Array ClauseId} {rest : List ClauseId}
    (hs : Sound F (s.listing x (kept ++ (id :: rest).toArray)))
    (hwatch : s.store.Watches id x) :
    ((s.store.clause id).turned x).first ≠ x
      ∧ ((s.store.clause id).turned x).first ∉ ((s.store.clause id).turned x).rest := by
  have hperm := LongClause.perm_turned (s.store.clause id) x
  have hnodup : (((s.store.clause id).turned x).lits.map Lit.var).Nodup :=
    (hperm.map _).nodup_iff.mpr (hs.store.longNodup _ (ClauseStore.clause_mem hwatch.1))
  have hfirst := (List.nodup_cons.mp hnodup).1
  refine ⟨fun he => hfirst ?_, fun hm => hfirst ?_⟩
  · rw [he]
    refine List.mem_map.mpr ⟨_, List.mem_cons_self, ?_⟩
    rw [LongClause.second_turned hwatch.2]
  · exact List.mem_map.mpr ⟨_, List.mem_cons_of_mem _ hm, rfl⟩

/-- **A clause that watches another literal**: `d` has the literals of the
clause, and where the clause watched `x`, which is false, it watches one that is
not. -/
structure Rewatched (s : Solver) (x : Lit) (id : ClauseId) (d : LongClause) : Prop where
  stored : id < s.store.long.size
  perm : d.lits.Perm (s.store.lits id)
  learnt : d.learnt = (s.store.clause id).learnt
  first_ne : d.first ≠ x
  second_new : ¬ s.store.Watches id d.second
  second_open : d.second.neg ∉ s.trail.lits.toList
  before : ∀ l, s.store.Watches id l ↔ d.first = l ∨ x = l
  /-- The clause has a loose end as soon as the literal it keeps is false. -/
  loose : ∀ known, d.first.neg ∈ known → s.Loose known id

namespace Rewatched

variable {d : LongClause}

theorem of_rewatched? {kept : Array ClauseId} {rest : List ClauseId}
    (hs : Sound F (s.listing x (kept ++ (id :: rest).toArray)))
    (hx : x.neg ∈ s.trail.lits.toList)
    (hd : ((s.store.clause id).turned x).rewatched? s.trail.isFalse = some d) :
    s.Rewatched x id d := by
  have hwf : s.trail.Wf s.varCount := hs.trail
  have hwatch := watches_of_listing hs hx
  have hid := hwatch.1
  have hsecond := LongClause.second_turned hwatch.2
  obtain ⟨hfx, hfr⟩ := first_turned_ne hs hwatch
  obtain ⟨hfirst, hlearnt, hopen, hrest, hperm⟩ := LongClause.rewatched_some hd
  have hsecond_open : d.second.neg ∉ s.trail.lits.toList := fun hm =>
    absurd (hwf.isFalse_iff.mpr hm) (by simp [hopen])
  have hbefore : ∀ l, s.store.Watches id l ↔ d.first = l ∨ x = l := by
    intro l
    have hw := LongClause.watched_turned (s.store.clause id) x l
    rw [hsecond, ← hfirst] at hw
    rw [hw]
    exact and_iff_right hid
  refine ⟨hid, hperm.trans (LongClause.perm_turned _ x),
    hlearnt.trans (LongClause.learnt_turned _ x), hfirst ▸ hfx, fun hw => ?_, hsecond_open,
    hbefore, fun known hneg => ?_⟩
  · rcases (hbefore _).mp hw with he | he
    · exact hfr (hfirst ▸ he ▸ hrest)
    · exact hsecond_open (he ▸ hx)
  · refine .of_turned hid (Or.inl ⟨hfirst ▸ hneg, ?_⟩)
    rw [hsecond]
    exact fun hin => hwf.not_mem_neg hin hx

theorem second_ne (h : s.Rewatched x id d) : d.second ≠ x :=
  fun he => h.second_new ((h.before _).mpr (Or.inr he.symm))

theorem after (h : s.Rewatched x id d) (l : Lit) :
    (s.store.replace id d).Watches id l ↔ d.first = l ∨ d.second = l := by
  unfold ClauseStore.Watches
  rw [ClauseStore.clause_replace_self h.stored]
  exact and_iff_right (by simpa using h.stored)

/-- From now on the clause watches the other literal in place of `x`, and no
clause watches anything else. -/
theorem after_iff (h : s.Rewatched x id d) (j : ClauseId) (l : Lit) :
    (s.store.replace id d).Watches j l
      ↔ (s.store.Watches j l ∧ ¬ (j = id ∧ l = x)) ∨ (j = id ∧ l = d.second) := by
  by_cases hj : j = id
  · rw [hj, h.after, h.before]
    constructor
    · rintro (rfl | rfl)
      · exact Or.inl ⟨Or.inl rfl, fun hx => h.first_ne hx.2⟩
      · exact Or.inr ⟨rfl, rfl⟩
    · rintro (⟨he | he, hlx⟩ | he)
      · exact Or.inl he
      · exact absurd ⟨rfl, he.symm⟩ hlx
      · exact Or.inr he.2.symm
  · rw [ClauseStore.watches_replace_ne hj]
    simp [hj]

/-- A loose end of the new clause is one of the old clause, unless it is at the
literal watched from now on. -/
theorem loose_of_end (h : s.Rewatched x id d) {known : List Lit} (hno : d.second.neg ∉ known)
    (hend : (d.first.neg ∈ known ∧ d.second ∉ s.trail.lits.toList)
      ∨ (d.second.neg ∈ known ∧ d.first ∉ s.trail.lits.toList)) : s.Loose known id := by
  rcases hend with ⟨hneg, -⟩ | ⟨hneg, -⟩
  · exact h.loose known hneg
  · exact absurd hneg hno

/-- The clause on the other list keeps the invariant. -/
theorem sound (h : s.Rewatched x id d) {kept : Array ClauseId} {rest : List ClauseId}
    (hs : Sound F (s.listing x (kept ++ (id :: rest).toArray)))
    (hx : x.neg ∈ s.trail.lits.toList) :
    Sound F (({ s with store := s.store.replace id d
                       watches := s.watches.modify d.second (·.push id) } : Solver).listing x
      (kept ++ rest.toArray)) := by
  have hstill : ∀ l ∈ s.trail.lits.toList, ∀ j, s.store.Watches j l →
      (s.store.replace id d).Watches j l := by
    refine fun l hl j hw => (h.after_iff j l).mpr (Or.inl ⟨hw, ?_⟩)
    -- the clause moves away from a literal that is false
    rintro ⟨-, rfl⟩
    exact hs.trail.not_mem_neg hl hx
  refine hs.rearrange (.replace h.stored h.perm h.learnt)
    (hs.watches.move (hs.trail.inRange x.neg hx) ?_ h.second_ne h.second_new h.after_iff) hstill
  refine hs.store.longInRange _ (ClauseStore.clause_mem h.stored) _ (h.perm.mem_iff.mp ?_)
  exact List.mem_cons_of_mem _ List.mem_cons_self

/-- Neither literal watched from now on is `x`, so that a loose end stems from
the other known literals. -/
theorem tight (h : s.Rewatched x id d) {known : List Lit}
    (hk : ∀ l ∈ known, l ∈ s.trail.lits.toList) {w : LitTable (Array ClauseId)}
    (hloose : ({ s with store := s.store.replace id d, watches := w } : Solver).Loose
      (x.neg :: known) id) : s.Loose known id := by
  have hcons : ∀ l : Lit, l ≠ x → l.neg ∈ x.neg :: known → l.neg ∈ known := fun l hne hm =>
    (List.mem_cons.mp hm).resolve_left fun he => hne (Lit.neg_inj.mp he)
  unfold Loose at hloose
  rw [ClauseStore.clause_replace_self h.stored] at hloose
  refine h.loose_of_end (fun h2 => h.second_open (hk _ h2)) (hloose.2.imp ?_ ?_)
  · exact fun he => ⟨hcons _ h.first_ne he.1, he.2⟩
  · exact fun he => ⟨hcons _ h.second_ne he.1, he.2⟩

/-- False literals other than `x` are watched as before. -/
theorem pinned (h : s.Rewatched x id d) {w : Lit} (hwx : w ≠ x)
    (hw : w.neg ∈ s.trail.lits.toList) (j : ClauseId) :
    (s.store.replace id d).Watches j w ↔ s.store.Watches j w := by
  rw [h.after_iff]
  constructor
  · rintro (hold | ⟨-, rfl⟩)
    · exact hold.1
    · exact absurd hw h.second_open
  · exact fun hold => Or.inl ⟨hold, fun he => hwx he.2⟩

end Rewatched

/-- A clause that watches another literal from now on. -/
theorem VisitSpec.of_move {kept : Array ClauseId} {rest : List ClauseId}
    (hs : Sound F (s.listing x (kept ++ (id :: rest).toArray)))
    (hx : x.neg ∈ s.trail.lits.toList) {d : LongClause}
    (hd : ((s.store.clause id).turned x).rewatched? s.trail.isFalse = some d) :
    VisitSpec F x id kept rest s .moves
      { s with store := s.store.replace id d
               watches := s.watches.modify d.second (·.push id) } := by
  have h := Rewatched.of_rewatched? hs hx hd
  refine ⟨h.sound hs hx, ?_, rfl, ?_, fun _ _ known hk hloose => h.tight hk hloose,
    fun w hwx hw j => h.pinned hwx hw j, fun _ hm hno => absurd hm hno, by simp⟩
  · exact .replace h.stored h.perm h.learnt
      (fun _ h2 => absurd h2 h.second_open)
      (fun known hk hend => h.loose_of_end (fun h2 => h.second_open (hk _ h2)) hend) _
  · intro _ known hk hf
    have h2 : ((s.store.replace id d).clause id).second.neg ∈ known := hf.2.2
    rw [ClauseStore.clause_replace_self h.stored] at h2
    exact h.second_open (hk _ h2)

/-- A clause whose first literal is the only one left. -/
theorem VisitSpec.of_imply {kept : Array ClauseId} {rest : List ClauseId} {c : LongClause}
    (hid : id < s.store.long.size) (hx : x.neg ∈ s.trail.lits.toList)
    (hs : Sound F ((s.setClause id c).listing x (kept.push id ++ rest.toArray)))
    (hgrown : Grown s (s.setClause id c))
    (hwatched : ∀ j w, (s.store.replace id c).Watches j w ↔ s.store.Watches j w)
    (hopen : s.trail.isAssigned c.first.var = false) (hscope : s.inScope c.first.var = true)
    (hperm : c.lits.Perm (s.store.lits id))
    (hrest : ∀ l ∈ c.lits, l ≠ c.first → l.neg ∈ s.trail.lits.toList) :
    VisitSpec F x id kept rest s .keeps ((s.setClause id c).assign c.first (.long id)) := by
  have hclause : (s.store.replace id c).clause id = c := ClauseStore.clause_replace_self hid c
  have hlits : (s.store.replace id c).lits id = c.lits := congrArg LongClause.lits hclause
  have hid' : id < (s.store.replace id c).long.size := by simpa using hid
  have hfirst : c.first ∈ (s.store.replace id c).lits id := by
    rw [hlits]
    exact List.mem_cons_self
  have hfalse : ∀ m ∈ (s.store.replace id c).lits id, m ≠ c.first →
      m.neg ∈ s.trail.lits.toList := fun m hm hne => hrest m (hlits ▸ hm) hne
  have hrange : c.first.var.index < s.varCount :=
    hs.store.longInRange _ (ClauseStore.clause_mem hid') _ hfirst
  have hs' : Sound F (((s.setClause id c).assign c.first (.long id)).listing x
      (kept.push id ++ rest.toArray)) :=
    hs.imply hrange hopen (by simp) ⟨⟨hid', Or.inl (congrArg LongClause.first hclause)⟩, hfalse⟩
  refine ⟨hs', hgrown.trans (.assign hs.trail hrange hopen (by simp) ?_), rfl, ?_, ?_,
    fun w _ _ j => hwatched j w, ?_, by simp⟩
  · exact fun R hR hl => hR.long id hid' _ hfirst hscope fun m hm hne => hl _ (hfalse m hm hne)
  · intro _ known hk hf
    have h1 : ((s.store.replace id c).clause id).first.neg ∈ known := hf.2.1
    rw [hclause] at h1
    exact hs.trail.not_mem_of_not_assigned (l := c.first.neg) hopen (hk _ h1)
  · intro _ _ known hk hloose
    refine absurd hloose (not_loose (s := (s.setClause id c).assign c.first _) hs'.trail ?_ ?_)
    · intro l hl
      have hin : l ∈ s.trail.lits.toList := (List.mem_cons.mp hl).elim (fun he => he ▸ hx) (hk l)
      show l ∈ (s.trail.push c.first _ _).lits.toList
      simp [hin]
    · show ((s.store.replace id c).clause id).first ∈ (s.trail.push c.first _ _).lits.toList
      rw [hclause]
      simp
  · intro m hm hno
    have hm : m ∈ (s.trail.push c.first s.trail.level (.long id)).lits.toList := hm
    rw [Trail.lits_push] at hm
    have hm : m = c.first := List.mem_singleton.mp ((List.mem_append.mp hm).resolve_left hno)
    refine ⟨⟨hid', Or.inl ?_⟩, ?_, fun k hk hne => hrest k (hperm.mem_iff.mpr hk) (hm ▸ hne)⟩
    · show ((s.store.replace id c).clause id).first = m
      rw [hclause, hm]
    · rw [push_append_toArray] at hs
      exact watches_of_listing (s := s.setClause id c) hs hx

theorem visit_spec {kept : Array ClauseId} {rest : List ClauseId}
    (hs : Sound F (s.listing x (kept ++ (id :: rest).toArray)))
    (hx : x.neg ∈ s.trail.lits.toList) :
    VisitSpec F x id kept rest s (s.visit x id).1 (s.visit x id).2 := by
  have hwf : s.trail.Wf s.varCount := hs.trail
  have hwatch := watches_of_listing hs hx
  have hid := hwatch.1
  have hsecond := LongClause.second_turned hwatch.2
  unfold visit
  simp only
  split
  · -- the other watched literal is true
    rename_i htrue
    have hfirst := hwf.isTrue_iff.mp htrue
    exact .of_turn hs hid hx (by simp) (fun _ => hwf.not_mem_neg hfirst) (fun _ _ => hfirst)
      (by simp)
  · rename_i hntrue
    split
    · rename_i d hd
      exact .of_move hs hx hd
    · rename_i hnone
      have hrest : ∀ l ∈ ((s.store.clause id).turned x).lits,
          l ≠ ((s.store.clause id).turned x).first → l.neg ∈ s.trail.lits.toList := by
        intro l hl hne
        rcases List.mem_cons.mp ((List.mem_cons.mp hl).resolve_left hne) with rfl | hl
        · rw [hsecond]
          exact hx
        · exact hwf.isFalse_iff.mp (LongClause.rewatched_none hnone l hl)
      split
      · -- no literal is left
        rename_i hfalse
        have hfirst := hwf.value_false.mp hfalse
        refine .of_turn hs hid hx (by simp) (by simp) (by simp) fun _ l hl => ?_
        by_cases hl1 : l = ((s.store.clause id).turned x).first
        · exact hl1 ▸ hfirst
        · exact hrest l hl hl1
      · rename_i htrue
        exact absurd (hwf.isTrue_iff.mpr (hwf.value_true.mp htrue)) hntrue
      · rename_i hvalue
        have hopen := Trail.isAssigned_of_value_none hvalue
        have hno : ((s.store.clause id).turned x).first.neg ∉ s.trail.lits.toList :=
          hwf.not_mem_of_not_assigned hopen
        split
        · rename_i hscope
          exact .of_imply hid hx (hs.turn hid) (.turn hid x) (ClauseStore.watches_turned hid x)
            hopen hscope (LongClause.perm_turned _ _) hrest
        · rename_i hscope
          refine .of_turn hs hid hx (by simp) (fun _ => hno) (fun _ hadmits => ?_) (by simp)
          refine absurd (hadmits _ ?_ (hwf.not_mem_of_not_assigned hopen) hno) hscope
          exact (LongClause.perm_turned _ _).mem_iff.mp List.mem_cons_self

end Visit

/-! ## One literal -/

/-- **What drawing consequences gives**: the invariant, little change, and a
conflict that is one. -/
structure Drawn (F : List Clause) (s : Solver) (r : Option Conflict) (s' : Solver) : Prop where
  sound : Sound F s'
  grown : Grown s s'
  conflict : ∀ c, r = some c → Refutes F s' c

theorem Grown.listing (h : Grown s s') (x : Lit) (ids : Array ClauseId) :
    Grown s (s'.listing x ids) where
  others := by
    rw [← h.others]
    rfl
  store := h.store
  starts := h.starts
  lits := h.lits
  head := h.head
  unmoved := h.unmoved
  loose := h.loose
  levels := h.levels
  current := h.current
  decisions := h.decisions
  forced := h.forced

/-- **What visiting all clauses of a list gives.** Without a conflict, none of
them is falsified, and none that the scope admits has a new loose end. -/
structure AllVisited (F : List Clause) (x : Lit) (ids : List ClauseId) (kept' : Array ClauseId)
    (s : Solver) (r : Option Conflict) (s' : Solver) : Prop where
  drawn : Drawn F s r (s'.listing x kept')
  head : s'.trail.head = s.trail.head
  unfalsified : r = none → ∀ id ∈ ids, ∀ known, (∀ l ∈ known, l ∈ s.trail.lits.toList) →
    ¬ s'.store.Falsified known id
  tight : r = none → ∀ id ∈ ids, s.Admits (s.store.lits id) → ∀ known,
    (∀ l ∈ known, l ∈ s.trail.lits.toList) → s'.Loose (x.neg :: known) id → s.Loose known id

namespace VisitSpec

variable {x : Lit} {id : ClauseId} {kept kept' : Array ClauseId} {rest : List ClauseId} {v : Visit}
  {s₁ : Solver}

/-- After a visit without a conflict the others are visited, and they keep what
it achieved. -/
theorem andThen (h : VisitSpec F x id kept rest s v s₁) (hv : v ≠ .conflicts)
    (hx : x.neg ∈ s.trail.lits.toList) {r : Option Conflict}
    (hrest : AllVisited F x rest kept' s₁ r s') : AllVisited F x (id :: rest) kept' s r s' := by
  have hd := hrest.drawn
  have hsub : ∀ l ∈ s.trail.lits.toList, l ∈ s₁.trail.lits.toList :=
    fun l hl => h.grown.lits.subset hl
  refine ⟨⟨hd.sound, h.grown.trans hd.grown, hd.conflict⟩, hrest.head.trans h.head,
    fun hr j hj known hk hf => ?_, fun hr j hj hadmits known hk hl => ?_⟩
  · have hk₁ : ∀ l ∈ known, l ∈ s₁.trail.lits.toList := fun l hl => hsub l (hk l hl)
    rcases List.mem_cons.mp hj with rfl | hj
    · exact h.unfalsified hv known hk (hd.grown.falsified hk₁ hf)
    · exact hrest.unfalsified hr j hj known hk₁ hf
  · have hk₁ : ∀ l ∈ known, l ∈ s₁.trail.lits.toList := fun l hl => hsub l (hk l hl)
    rcases List.mem_cons.mp hj with rfl | hj
    · refine h.tight hv hadmits known hk (hd.grown.loose _ (fun l hl => ?_) j hl)
      exact (List.mem_cons.mp hl).elim (fun he => he ▸ hsub _ hx) (hk₁ l)
    · have hadmits₁ := (hadmits.perm (h.grown.store.perm j)).grown h.grown
      exact h.grown.loose known hk j (hrest.tight hr j hj hadmits₁ known hk₁ hl)

/-- A conflict ends the visits. -/
theorem halts (h : VisitSpec F x id kept rest s .conflicts s') :
    AllVisited F x (id :: rest) (kept.push id ++ rest.toArray) s (some (.long id)) s' := by
  refine ⟨⟨h.sound, h.grown.listing x _, ?_⟩, h.head, by simp, by simp⟩
  intro c hc
  cases hc
  have href := h.conflict rfl
  exact ⟨href.stored, href.entailed, href.isFalse⟩

end VisitSpec

/-- **All clauses of a list**, by induction along it: each visit keeps what
the earlier ones achieved. -/
theorem visitAll_spec {x : Lit} (ids : List ClauseId) {kept kept' : Array ClauseId}
    {r : Option Conflict} (hs : Sound F (s.listing x (kept ++ ids.toArray)))
    (hx : x.neg ∈ s.trail.lits.toList) (hv : s.visitAll x ids kept = (r, kept', s')) :
    AllVisited F x ids kept' s r s' := by
  induction ids generalizing s kept with
  | nil =>
    unfold visitAll at hv
    obtain ⟨rfl, hrest⟩ := Prod.mk.inj hv
    obtain ⟨rfl, rfl⟩ := Prod.mk.inj hrest
    exact ⟨⟨by simpa using hs, (Grown.refl s).listing x kept, by simp⟩, rfl, by simp, by simp⟩
  | cons id rest ih =>
    have hspec := visit_spec hs hx
    rcases hvisit : s.visit x id with ⟨v, s₁⟩
    unfold visitAll at hv
    rw [hvisit] at hspec hv
    have hx₁ := hspec.grown.lits.subset hx
    cases v with
    | keeps => exact hspec.andThen (by simp) hx (ih hspec.sound hx₁ hv)
    | moves => exact hspec.andThen (by simp) hx (ih hspec.sound hx₁ hv)
    | conflicts =>
      obtain ⟨rfl, hrest⟩ := Prod.mk.inj hv
      obtain ⟨rfl, rfl⟩ := Prod.mk.inj hrest
      exact hspec.halts

/-- Assigning an open literal that another one implies. -/
theorem Sound.assignImplied {l b : Lit} (hs : Sound F s) (hl : l ∈ s.trail.lits.toList)
    (hb : b ∈ s.store.implied l) (hopen : s.trail.isAssigned b.var = false) :
    Sound F (s.assign b (.binary l.neg)) := by
  exact hs.imply (hs.store.impliedInRange l b hb) hopen (by simp)
    ⟨hs.store.contraposed l b hb, by rw [Lit.neg_neg]; exact hl⟩

/-- **What drawing consequences through binary clauses gives.** Without a
conflict, none of the consequences is false, and those that the scope admits are
true. -/
structure AllImplied (F : List Clause) (bs : List Lit) (s : Solver) (r : Option Conflict)
    (s' : Solver) : Prop where
  drawn : Drawn F s r s'
  head : s'.trail.head = s.trail.head
  store : s'.store = s.store
  unopposed : r = none → ∀ b ∈ bs, b.neg ∉ s.trail.lits.toList
  implied : r = none → ∀ b ∈ bs, s.Admits [b] → b ∈ s'.trail.lits.toList

namespace AllImplied

variable {l b : Lit} {rest : List Lit} {r : Option Conflict}

/-- A consequence that is not false, and true if the scope admits it, needs
nothing done. -/
theorem skip (h : AllImplied F rest s r s') (hno : b.neg ∉ s.trail.lits.toList)
    (htrue : s.Admits [b] → b ∈ s.trail.lits.toList) : AllImplied F (b :: rest) s r s' := by
  refine ⟨h.drawn, h.head, h.store, fun hr c hc => ?_, fun hr c hc hadmits => ?_⟩
  · rcases List.mem_cons.mp hc with rfl | hc
    · exact hno
    · exact h.unopposed hr c hc
  · rcases List.mem_cons.mp hc with rfl | hc
    · exact h.drawn.grown.lits.subset (htrue hadmits)
    · exact h.implied hr c hc hadmits

/-- An open consequence is assigned first. -/
theorem assigned {reason : Reason} (hno : b.neg ∉ s.trail.lits.toList)
    (hg : Grown s (s.assign b reason)) (h : AllImplied F rest (s.assign b reason) r s') :
    AllImplied F (b :: rest) s r s' := by
  have hd := h.drawn
  refine ⟨⟨hd.sound, hg.trans hd.grown, hd.conflict⟩, h.head, h.store, fun hr c hc => ?_,
    fun hr c hc hadmits => ?_⟩
  · rcases List.mem_cons.mp hc with rfl | hc
    · exact hno
    · exact fun hm => h.unopposed hr c hc (hg.lits.subset hm)
  · rcases List.mem_cons.mp hc with rfl | hc
    · refine hd.grown.lits.subset ?_
      show c ∈ (s.trail.push c _ _).lits.toList
      simp
    · exact h.implied hr c hc (hadmits.grown hg)

/-- A consequence that is false is a conflict. -/
theorem conflict (hs : Sound F s) (hl : l ∈ s.trail.lits.toList) (hb : b ∈ s.store.implied l)
    (hno : b.neg ∈ s.trail.lits.toList) :
    AllImplied F (b :: rest) s (some (.binary l.neg b)) s := by
  refine ⟨⟨hs, .refl s, ?_⟩, rfl, rfl, by simp, by simp⟩
  intro c hc
  cases hc
  refine ⟨?_, hs.entailed.binary l b hb, fun m hm => ?_⟩
  · show b ∈ s.store.implied l.neg.neg
    rw [Lit.neg_neg]
    exact hb
  · rcases List.mem_pair.mp hm with rfl | rfl
    · rw [Lit.neg_neg]
      exact hl
    · exact hno

end AllImplied

/-- **All consequences through binary clauses**, by induction along the list. -/
theorem propagateBinary_spec {l : Lit} (ls : List Lit) {r : Option Conflict} (hs : Sound F s)
    (hl : l ∈ s.trail.lits.toList)
    (hls : ∀ b ∈ ls, b ∈ s.store.implied l)
    (hp : s.propagateBinary l ls = (r, s')) : AllImplied F ls s r s' := by
  induction ls generalizing s with
  | nil =>
    unfold propagateBinary at hp
    obtain ⟨rfl, rfl⟩ := Prod.mk.inj hp
    exact ⟨⟨hs, .refl s, by simp⟩, rfl, rfl, by simp, by simp⟩
  | cons b rest ih =>
    have hb := hls b List.mem_cons_self
    have hrest : ∀ c ∈ rest, c ∈ s.store.implied l := fun c hc =>
      hls c (List.mem_cons_of_mem _ hc)
    unfold propagateBinary at hp
    split at hp
    · rename_i htrue
      have hin := hs.trail.value_true.mp htrue
      exact (ih hs hl hrest hp).skip (hs.trail.not_mem_neg hin) fun _ => hin
    · rename_i hfalse
      obtain ⟨rfl, rfl⟩ := Prod.mk.inj hp
      exact .conflict hs hl hb (hs.trail.value_false.mp hfalse)
    · rename_i hvalue
      have hopen := Trail.isAssigned_of_value_none hvalue
      have hno : b.neg ∉ s.trail.lits.toList := hs.trail.not_mem_of_not_assigned hopen
      split at hp
      · rename_i hscope
        have hg : Grown s (s.assign b (.binary l.neg)) :=
          .assign hs.trail (hs.store.impliedInRange l b hb) hopen (by simp) fun R hR hall =>
            hR.binary l (hall l hl) b hb hscope
        exact .assigned hno hg
          (ih (hs.assignImplied hl hb hopen) (hg.lits.subset hl) hrest hp)
      · -- an open consequence outside the scope is left alone
        rename_i hscope
        exact (ih hs hl hrest hp).skip hno fun hadmits => absurd (hadmits b List.mem_cons_self
          (hs.trail.not_mem_of_not_assigned hopen) hno) hscope

/-- **A literal whose consequences the scope admits**: no clause with its
opposite has an open variable outside. -/
structure AdmitsFrom (s : Solver) (l : Lit) : Prop where
  binary : ∀ b ∈ s.store.implied l, s.Admits [b]
  long : ∀ id < s.store.long.size, l.neg ∈ s.store.lits id → s.Admits (s.store.lits id)

theorem admitsFrom_of_none (h : s.scope.current = none) (l : Lit) : s.AdmitsFrom l :=
  ⟨fun b _ => admits_of_none h [b], fun id _ _ => admits_of_none h (s.store.lits id)⟩

theorem AdmitsFrom.grown {l : Lit} (h : s.AdmitsFrom l) (hg : Grown s s') : s'.AdmitsFrom l where
  binary := fun b hb => (h.binary b (hg.store.implied l ▸ hb)).grown hg
  long := fun id hid hl =>
    ((h.long id (hg.store.size ▸ hid) ((hg.store.perm id).mem_iff.mp hl)).perm
      (hg.store.perm id)).grown hg

/-- **The consequences of one literal.** Without a conflict, a clause that the
literal and others falsify was falsified by the others alone. If the scope
admits them, all consequences are true, and loose ends stem from the others. -/
structure Pursued (F : List Clause) (l : Lit) (s : Solver) (r : Option Conflict) (s' : Solver) :
    Prop where
  drawn : Drawn F s r s'
  head : s'.trail.head = s.trail.head
  falsified : r = none → ∀ known, (∀ m ∈ known, m ∈ s.trail.lits.toList) →
    ∀ id, s'.store.Falsified (l :: known) id → s.store.Falsified known id
  unopposed : r = none → ∀ b ∈ s.store.implied l, b.neg ∉ s.trail.lits.toList
  tight : r = none → s.AdmitsFrom l → ∀ known, (∀ m ∈ known, m ∈ s.trail.lits.toList) →
    ∀ id, s'.Loose (l :: known) id → s.Loose known id
  implied : r = none → s.AdmitsFrom l → ∀ b ∈ s.store.implied l, b ∈ s'.trail.lits.toList

/-- Drawing the consequences through long clauses visits the whole list. -/
theorem propagateLong_eq {l : Lit} {r : Option Conflict} (hs : Sound F s)
    (hp : s.propagateLong l = (r, s')) :
    ∃ kept s₁, s.visitAll l.neg s.watches[l.neg].toList #[] = (r, kept, s₁)
      ∧ s' = s₁.listing l.neg kept
      ∧ Sound F (s.listing l.neg (#[] ++ s.watches[l.neg].toList.toArray)) := by
  rcases hvis : s.visitAll l.neg s.watches[l.neg].toList #[] with ⟨r₁, kept, s₁⟩
  have hp' : (r₁, s₁.listing l.neg kept) = (r, s') := by
    rw [← hp]
    unfold propagateLong
    simp only
    rw [hvis]
    rfl
  obtain ⟨rfl, rfl⟩ := Prod.mk.inj hp'
  refine ⟨kept, s₁, rfl, rfl, { hs with watches := hs.watches.of_get (by simp [listing]) ?_ }⟩
  intro m
  show (s.watches.set l.neg _)[m] = _
  rw [LitTable.get_set]
  split
  · rename_i hm
    simp [← hm.1]
  · rfl

/-- **One literal of the trail.** -/
theorem propagateLit_spec {l : Lit} {r : Option Conflict} (hs : Sound F s)
    (hl : l ∈ s.trail.lits.toList) (hp : s.propagateLit l = (r, s')) : Pursued F l s r s' := by
  unfold propagateLit at hp
  rcases hbin : s.propagateBinary l (s.store.implied l) with ⟨r₁, s₁⟩
  obtain ⟨hd₁, hhead₁, hstore₁, hno, himplied⟩ :=
    propagateBinary_spec _ hs hl (fun _ hb => hb) hbin
  rw [hbin] at hp
  cases r₁ with
  | some c =>
    obtain ⟨rfl, rfl⟩ := Prod.mk.inj hp
    exact ⟨hd₁, hhead₁, by simp, by simp, by simp, by simp⟩
  | none =>
    obtain ⟨kept, s₂, hvis, rfl, hlist⟩ := propagateLong_eq hd₁.sound hp
    have hl₁ : l.neg.neg ∈ s₁.trail.lits.toList := by
      rw [Lit.neg_neg]
      exact hd₁.grown.lits.subset hl
    obtain ⟨hd₂, hhead₂, hopen, htight⟩ := visitAll_spec _ hlist hl₁ hvis
    have hk₁ : ∀ known, (∀ m ∈ known, m ∈ s.trail.lits.toList) →
        ∀ m ∈ l :: known, m ∈ s₁.trail.lits.toList := by
      intro known hk m hm
      rcases List.mem_cons.mp hm with rfl | hm
      · exact hd₁.grown.lits.subset hl
      · exact hd₁.grown.lits.subset (hk m hm)
    -- a watched literal that is known to be false is the opposite of `l` or
    -- of one of the others
    have hcons : ∀ {id known} {m : Lit}, ¬ s₁.store.Watches id l.neg → m.neg ∈ l :: known →
        id < s₁.store.long.size →
        ((s₁.store.clause id).first = m ∨ (s₁.store.clause id).second = m) → m.neg ∈ known := by
      intro id known m hnot hm hid hwatched
      refine (List.mem_cons.mp hm).resolve_left fun he => hnot ⟨hid, ?_⟩
      rw [← he, Lit.neg_neg]
      exact hwatched
    refine ⟨⟨hd₂.sound, hd₁.grown.trans hd₂.grown, hd₂.conflict⟩, hhead₂.trans hhead₁, ?_,
      fun _ => hno rfl, ?_,
      fun _ hadmits b hb => hd₂.grown.lits.subset (himplied rfl b hb (hadmits.binary b hb))⟩
    · intro hr known hk id hf
      have hf₁ := hd₂.grown.falsified (hk₁ known hk) hf
      have hnot : ¬ s₁.store.Watches id l.neg := fun hw =>
        hopen hr id ((hd₁.sound.watches.mem_iff l.neg id).mpr hw) _ (hk₁ known hk) hf
      rw [← hstore₁]
      exact ⟨hf₁.1, hcons hnot hf₁.2.1 hf₁.1 (Or.inl rfl), hcons hnot hf₁.2.2 hf₁.1 (Or.inr rfl)⟩
    · intro hr hadmits known hk id hloose
      have hadmits₁ := hadmits.grown hd₁.grown
      have hk₁' : ∀ m ∈ known, m ∈ s₁.trail.lits.toList := fun m hm =>
        hk₁ known hk m (List.mem_cons_of_mem _ hm)
      refine hd₁.grown.loose known hk id ?_
      by_cases hw : s₁.store.Watches id l.neg
      · refine htight hr id ((hd₁.sound.watches.mem_iff l.neg id).mpr hw)
          (hadmits₁.long id hw.1 hw.mem_lits) known hk₁' ?_
        rw [Lit.neg_neg]
        exact hloose
      · obtain ⟨hid, hend⟩ := hd₂.grown.loose _ (hk₁ known hk) id hloose
        exact ⟨hid, hend.imp (fun h => ⟨hcons hw h.1 hid (Or.inl rfl), h.2⟩)
          fun h => ⟨hcons hw h.1 hid (Or.inr rfl), h.2⟩⟩

/-! ## The whole trail -/

theorem nextToPropagate_none (h : s.nextToPropagate = none) : s.trail.lits.size ≤ s.trail.head := by
  simpa [nextToPropagate] using h

theorem nextToPropagate_some {l : Lit} (h : s.nextToPropagate = some (l, s')) :
    s.trail.lits[s.trail.head]? = some l
      ∧ s' = { s with trail := { s.trail with head := s.trail.head + 1 }, stats := s'.stats } := by
  obtain ⟨m, hm, heq⟩ := Option.map_eq_some_iff.mp h
  obtain ⟨rfl, rfl⟩ := Prod.mk.inj heq
  exact ⟨hm, rfl⟩

/-- Taking a literal off keeps the invariant. -/
theorem Sound.next {l : Lit} (hs : Sound F s) (h : s.nextToPropagate = some (l, s')) :
    Sound F s' ∧ Grown s s' ∧ s'.trail.head = s.trail.head + 1 ∧ s'.trail.lits = s.trail.lits
      ∧ s'.store = s.store ∧ l ∈ s.trail.lits.toList := by
  obtain ⟨hl, he⟩ := nextToPropagate_some h
  obtain ⟨hlt, hget⟩ := Array.getElem?_eq_some_iff.mp hl
  have hle : s.trail.head + 1 ≤ s.trail.lits.size := hlt
  rw [he]
  refine ⟨hs.withHead hle, ⟨rfl, .refl _, rfl, List.prefix_refl _, Nat.le_succ _,
    fun _ _ _ _ _ => .rfl, fun _ _ _ hl => hl, fun _ _ => rfl, fun _ hl hno => absurd hl hno,
    fun _ hl hr => ⟨hl, hr⟩, fun _ _ hl => hl⟩, rfl, rfl, rfl, ?_⟩
  rw [← hget]
  exact Array.getElem_mem_toList hlt

/-- **A run of propagation**, by induction on its length. -/
theorem propagateWithin_spec (fuel : Nat) {r : Option Conflict} (hs : Sound F s)
    (hp : propagateWithin fuel s = (r, s')) :
    Drawn F s r s' ∧ (r = none → s'.trail.head = s'.trail.lits.size
      ∨ s'.trail.head = s.trail.head + fuel) ∧ (r ≠ none → s.trail.head < s'.trail.head) := by
  induction fuel generalizing s with
  | zero =>
    obtain ⟨rfl, rfl⟩ := Prod.mk.inj hp
    exact ⟨⟨hs, .refl s, by simp⟩, fun _ => Or.inr rfl, by simp⟩
  | succ fuel ih =>
    unfold propagateWithin at hp
    split at hp
    · rename_i hnone
      obtain ⟨rfl, rfl⟩ := Prod.mk.inj hp
      have hle := nextToPropagate_none hnone
      exact ⟨⟨hs, .refl s, by simp⟩, fun _ => Or.inl (Nat.le_antisymm hs.trail.headLe hle),
        by simp⟩
    · rename_i l s₁ hnext
      obtain ⟨hs₁, hg₁, hhead₁, hlits₁, -, hl⟩ := hs.next hnext
      rcases hlit : s₁.propagateLit l with ⟨r₂, s₂⟩
      obtain ⟨hd₂, hhead₂, -, -, -, -⟩ := propagateLit_spec hs₁ (hlits₁ ▸ hl) hlit
      rw [hlit] at hp
      have hg₂ := hg₁.trans hd₂.grown
      cases r₂ with
      | some c =>
        obtain ⟨rfl, rfl⟩ := Prod.mk.inj hp
        exact ⟨⟨hd₂.sound, hg₂, hd₂.conflict⟩, by simp, fun _ => by omega⟩
      | none =>
        obtain ⟨hd, hend, hmore⟩ := ih hd₂.sound hp
        have hle := hd.grown.head
        refine ⟨⟨hd.sound, hg₂.trans hd.grown, hd.conflict⟩, fun hr => ?_, fun _ => by omega⟩
        exact (hend hr).imp_right fun he => by omega

/-- **Propagation** keeps the invariant, changes little, and stops only at
the end of the trail or at a conflict behind the old head. -/
theorem propagate_spec {r : Option Conflict} (hs : Sound F s) (hp : s.propagate = (r, s')) :
    Drawn F s r s' ∧ (r = none → s'.trail.head = s'.trail.lits.size)
      ∧ (r ≠ none → s.trail.head < s'.trail.head) := by
  obtain ⟨hd, hend, hmore⟩ := propagateWithin_spec _ hs hp
  refine ⟨hd, fun hr => ?_, hmore⟩
  rcases hend hr with he | he
  · exact he
  · -- there are no more literals than variables
    have hle := hd.sound.trail.headLe
    have hbound := hd.sound.trail.size_le
    have hcount := hd.grown.varCount
    unfold Trail.size at he
    omega

end Solver

/-! ## What is settled -/

/-- **The clauses are settled** by some known literals: none of them, given or
learnt, has both its watched literals made false, unless the literals `done` make
both false already. -/
structure Settled (done : List Lit) (store : ClauseStore) (known : List Lit) : Prop where
  long : ∀ id, store.Falsified known id → store.Falsified done id
  binary : ∀ a, ∀ b ∈ store.implied a, a ∈ known → b.neg ∈ known → a ∈ done ∧ b.neg ∈ done

namespace Settled

variable {done : List Lit} {store : ClauseStore} {known fewer : List Lit}

/-- Fewer literals settle what more do. -/
theorem mono (h : Settled done store known) (hsub : ∀ l ∈ fewer, l ∈ known) :
    Settled done store fewer where
  long := fun id hf => h.long id (hf.mono hsub)
  binary := fun a b hb ha hn => h.binary a b hb (hsub _ ha) (hsub _ hn)

theorem take_le {m n : Nat} (h : Settled done store (known.take n)) (hm : m ≤ n) :
    Settled done store (known.take m) :=
  h.mono fun _ hl => (List.take_subset_take_left known hm) hl

/-- What makes clauses false is done with. -/
theorem of_subset (store : ClauseStore) (hsub : ∀ l ∈ known, l ∈ done) :
    Settled done store known where
  long := fun _ hf => hf.mono hsub
  binary := fun _ _ _ ha hn => ⟨hsub _ ha, hsub _ hn⟩

end Settled

namespace Solver

variable {F : List Clause} {s s' : Solver}

/-- What was settled stays so while the trail grows. -/
theorem Grown.settled (hg : Grown s s') {done known : List Lit}
    (hk : ∀ l ∈ known, l ∈ s.trail.lits.toList) (h : Settled done s.store known) :
    Settled done s'.store known where
  long := fun id hf => (h.long id (hg.falsified hk hf)).congr hf.1 fun l hl =>
    (hg.unmoved known hk id hf l).mp hl
  binary := fun a b hb => h.binary a b (hg.store.implied a ▸ hb)

/-- **One literal more is settled** once its consequences are drawn. -/
theorem propagateLit_settled {l : Lit} {done known : List Lit} (hs : Sound F s)
    (hl : l ∈ s.trail.lits.toList) (hk : ∀ m ∈ known, m ∈ s.trail.lits.toList)
    (hp : s.propagateLit l = (none, s')) (h : Settled done s.store known) :
    Settled done s'.store (l :: known) := by
  obtain ⟨hd, -, hlong, hbin, -, -⟩ := propagateLit_spec hs hl hp
  have hopen : ∀ b ∈ s.store.implied l, b.neg ∉ l :: known := by
    intro b hi hm
    refine hbin rfl b hi ?_
    rcases List.mem_cons.mp hm with he | hm
    · rw [he]
      exact hl
    · exact hk _ hm
  have hk' : ∀ m ∈ l :: known, m ∈ s.trail.lits.toList := List.forall_mem_cons.mpr ⟨hl, hk⟩
  refine ⟨fun id hf => (h.long id (hlong rfl known hk id hf)).congr hf.1 fun m hm =>
    (hd.grown.unmoved _ hk' id hf m).mp hm, fun a b hb ha hbn => ?_⟩
  rw [hd.grown.store.implied a] at hb
  -- one of the two is the new literal, or neither is
  rcases List.mem_cons.mp ha with rfl | hka
  · exact absurd hbn (hopen b hb)
  · rcases List.mem_cons.mp hbn with rfl | hkb
    · refine absurd ?_ (hopen a.neg (hs.store.contraposed a b hb))
      rw [Lit.neg_neg]
      exact List.mem_cons_of_mem _ hka
    · exact h.binary a b hb hka hkb

/-- How far the clauses are settled after a propagation: as far as before,
and up to the head, less the literal at which a conflict was found. -/
def SettledAfter (done : List Lit) (r : Option Conflict) (n : Nat) (s' : Solver) : Prop :=
  ∃ m, n ≤ m ∧ m ≤ s'.trail.lits.size ∧ s'.trail.head ≤ m + (if r = none then 0 else 1)
    ∧ Settled done s'.store (s'.trail.lits.toList.take m)

theorem propagateWithin_settled (fuel : Nat) {done : List Lit} {r : Option Conflict} {n : Nat}
    (hs : Sound F s) (hp : propagateWithin fuel s = (r, s')) (hhead : s.trail.head ≤ n)
    (hn : n ≤ s.trail.lits.size) (h : Settled done s.store (s.trail.lits.toList.take n)) :
    SettledAfter done r n s' := by
  induction fuel generalizing s n with
  | zero =>
    obtain ⟨rfl, rfl⟩ := Prod.mk.inj hp
    exact ⟨n, Nat.le_refl n, hn, hhead, h⟩
  | succ fuel ih =>
    unfold propagateWithin at hp
    split at hp
    · obtain ⟨rfl, rfl⟩ := Prod.mk.inj hp
      exact ⟨n, Nat.le_refl n, hn, hhead, h⟩
    · rename_i l s₁ hnext
      obtain ⟨hs₁, -, hhead₁, hlits₁, hstore₁, hl⟩ := hs.next hnext
      obtain ⟨hget, -⟩ := nextToPropagate_some hnext
      rcases hlit : s₁.propagateLit l with ⟨r₂, s₂⟩
      obtain ⟨hd₂, hhead₂, -, -, -, -⟩ := propagateLit_spec hs₁ (hlits₁ ▸ hl) hlit
      rw [hlit] at hp
      have hg := hd₂.grown
      have hsize := hg.size
      rw [hlits₁] at hsize
      have htake : ∀ k ≤ s.trail.lits.size,
          s₂.trail.lits.toList.take k = s.trail.lits.toList.take k := by
        intro k hk
        obtain ⟨more, hmore⟩ := hg.lits
        rw [← hmore, hlits₁, List.take_append_of_le_length (by simpa using hk)]
      have hmem : ∀ k, ∀ m ∈ s.trail.lits.toList.take k, m ∈ s₁.trail.lits.toList := by
        intro k m hm
        rw [hlits₁]
        exact List.mem_of_mem_take hm
      have hold : Settled done s₂.store (s₂.trail.lits.toList.take n) := by
        rw [htake n hn]
        exact hg.settled (hmem n) (hstore₁ ▸ h)
      cases r₂ with
      | some c =>
        obtain ⟨rfl, rfl⟩ := Prod.mk.inj hp
        refine ⟨n, Nat.le_refl n, by omega, ?_, hold⟩
        rw [if_neg (by simp)]
        omega
      | none =>
        by_cases hlt : s.trail.head + 1 ≤ n
        · exact ih hd₂.sound hp (by omega) (by omega) hold
        · -- the literal at the head is the first that was not settled
          have hn' : s.trail.head = n := by omega
          obtain ⟨hltsize, hgetl⟩ := Array.getElem?_eq_some_iff.mp hget
          have hnext : Settled done s₂.store (s₂.trail.lits.toList.take (n + 1)) := by
            have hsub := propagateLit_settled hs₁ (hlits₁ ▸ hl) (hmem n) hlit (hstore₁ ▸ h)
            refine hsub.mono fun m hm => ?_
            rw [htake (n + 1) (by omega), List.take_add_one] at hm
            rcases List.mem_append.mp hm with hm | hm
            · exact List.mem_cons_of_mem _ hm
            · rw [← hn', Array.getElem?_toList, hget] at hm
              rw [List.mem_singleton.mp hm]
              exact List.mem_cons_self
          obtain ⟨m, hnm, hrest⟩ := ih hd₂.sound hp (by omega) (by omega) hnext
          exact ⟨m, by omega, hrest⟩

/-- **What propagation settles.** -/
theorem propagate_settled {done : List Lit} {r : Option Conflict} {n : Nat} (hs : Sound F s)
    (hp : s.propagate = (r, s')) (hhead : s.trail.head ≤ n) (hn : n ≤ s.trail.lits.size)
    (h : Settled done s.store (s.trail.lits.toList.take n)) : SettledAfter done r n s' :=
  propagateWithin_settled _ hs hp hhead hn h

/-- A full propagation settles the whole trail. -/
theorem propagate_settled_all {done : List Lit} {n : Nat} (hs : Sound F s)
    (hp : s.propagate = (none, s')) (hhead : s.trail.head ≤ n) (hn : n ≤ s.trail.lits.size)
    (h : Settled done s.store (s.trail.lits.toList.take n)) :
    Settled done s'.store s'.trail.lits.toList := by
  obtain ⟨m, -, hm, hle, hset⟩ := propagate_settled hs hp hhead hn h
  have hend := (propagate_spec hs hp).2.1 rfl
  rw [if_pos rfl] at hle
  refine hset.mono fun l hl => ?_
  rw [List.take_of_length_le (by simp; omega)]
  exact hl

end Solver

end Cleave
