import Cleave.Proofs.Storing
import Cleave.Solver.Learning

/-!
# Adding clauses to a solver

Adding a clause that `F` entails keeps the invariant of the solver, at
whatever level if the clause was learnt, and at level 0 if it was given. A
given clause then holds wherever all given clauses and the root facts do
(`Solver.GivenHold`), unless it was refuted on the spot and the conflict flag
is up.

So a solver that was made from a list of clauses means that list: it is sound
for it, it keeps every clause of it (`Solver.Represents`), and what satisfies
the solver satisfies the list (`Solver.Covers`).
-/

namespace Cleave

/-! ## Room for more variables -/

section Room

variable {store : ClauseStore} {count more : Nat}

theorem ClauseStore.Wf.implied_resize (h : store.Wf count) (hle : count ≤ more) (l : Lit) :
    (store.resize more).implied l = store.implied l :=
  congrArg Implications.all (LitTable.get_resize _ (by rw [h.sizeImplications]; omega) l)

theorem ClauseStore.Wf.partners_resize (h : store.Wf count) (hle : count ≤ more) (l : Lit) :
    (store.resize more).partners l = store.partners l :=
  congrArg Implications.front
    (LitTable.get_resize _ (by rw [h.sizeImplications]; omega) l.neg)

theorem ClauseStore.Wf.resize (h : store.Wf count) (hle : count ≤ more) :
    (store.resize more).Wf more where
  sizeImplications := LitTable.size_resize _ (by rw [h.sizeImplications]; omega)
  impliedInRange := fun l b hb =>
    (h.impliedInRange l b (h.implied_resize hle l ▸ hb)).trans_le hle
  symmetric := fun a b hb => by
    rw [h.partners_resize hle] at hb ⊢
    exact h.symmetric a b hb
  contraposed := fun l b hb => by
    rw [h.implied_resize hle] at hb ⊢
    exact h.contraposed l b hb
  distinct := fun l b hb => h.distinct l b (h.implied_resize hle l ▸ hb)
  unitsInRange := fun l hl => (h.unitsInRange l hl).trans_le hle
  longThree := h.longThree
  longNodup := h.longNodup
  longInRange := fun c hc l hl => (h.longInRange c hc l hl).trans_le hle

theorem WatchesExactly.resize {watches : LitTable (Array ClauseId)}
    (h : WatchesExactly watches store count) (hle : count ≤ more) :
    WatchesExactly (watches.resize more) (store.resize more) more := by
  have hsize : watches.size ≤ 2 * more := by rw [h.size]; omega
  have hget : ∀ l : Lit, (watches.resize more)[l] = watches[l] := LitTable.get_resize _ hsize
  exact {
    size := LitTable.size_resize _ hsize
    nodup := fun l => by rw [hget]; exact h.nodup l
    mem_iff := fun l id => by rw [hget]; exact h.mem_iff l id }

theorem Listed.resize {membership : Membership} (h : Listed membership store count)
    (hle : count ≤ more) : Listed (membership.resize more) (store.resize more) more := by
  have hsize : membership.byVar.size ≤ more := h.size.trans_le hle
  have hsizes : ∀ w, (membership.table w).size ≤ 2 * more := fun w => by rw [h.sizes]; omega
  exact {
    size := VarTable.size_resize _ hsize
    sizes := fun w => Membership.size_table_resize (hsizes w)
    mem_ofVar := fun v id => by rw [Membership.ofVar_resize hsize]; exact h.mem_ofVar v id
    mem_table := fun w l id => by
      rw [Membership.table_resize (hsizes w)]
      exact h.mem_table w l id
    three_le := h.three_le
    ascending_ofVar := fun v => by
      rw [Membership.ofVar_resize hsize]
      exact h.ascending_ofVar v
    ascending_table := fun w l => by
      rw [Membership.table_resize (hsizes w)]
      exact h.ascending_table w l
    indexed := h.indexed }

end Room

/-! ## The parts of a state -/

namespace Consistent

variable {F : List Clause} {count : Nat} {store : ClauseStore} {membership membership' : Membership}
  {watches : LitTable (Array ClauseId)} {t : Trail} {pending : List Lit} {conflicted : Bool}
  (h : Consistent F count store membership watches t pending conflicted)

include h

/-- At level 0 the whole trail is entailed. -/
theorem entails_of_level_zero (h0 : t.level = 0) {l : Lit} (hl : l ∈ t.lits.toList) :
    Entails F [l] := by
  intro ν hν
  have hstarts : t.starts.toList = [] := by simpa [Trail.level] using h0
  exact Clause.holds_singleton.mpr
    (h.holds_of_decisions hν (List.append_nil _).symm (by simp [hstarts]) l hl)

/-- An entailed clause that is false at level 0 leaves no model. -/
theorem not_satisfiable (h0 : t.level = 0) {c : Clause} (hc : Entails F c)
    (hfalse : ∀ l ∈ c, l.neg ∈ t.lits.toList) : ¬ Satisfiable F := by
  rintro ⟨ν, hν⟩
  obtain ⟨l, hl, hlν⟩ := Clause.holds_iff.mp (hc ν hν)
  have hneg := (h.entails_of_level_zero h0 (hfalse l hl)).lit hν
  rw [Lit.not_holds_of_neg hneg] at hlν
  exact absurd hlν (by simp)

theorem addUnit {l : Lit} (hl : Entails F [l]) (hin : l.var.index < count) :
    Consistent F count { store with units := store.units.push l } membership watches t pending
      conflicted := by
  have hunits : ∀ m ∈ (store.units.push l).toList, m ∈ store.units.toList ∨ m = l := by simp
  refine h.withStore { h.store with unitsInRange := fun m hm => ?_ } { h.watches with }
    { h.listed with } { h.entailed with units := fun m hm => ?_ } (fun _ _ hb => hb)
    (fun _ _ => .refl _) fun _ _ _ hw => hw
  · rcases hunits m hm with hm | rfl
    · exact h.store.unitsInRange m hm
    · exact hin
  · rcases hunits m hm with hm | rfl
    · exact h.entailed.units m hm
    · exact hl

theorem addPair {a b : Lit} (hab : Entails F [a, b]) (ha : a.var.index < count)
    (hb : b.var.index < count) (hne : b.var ≠ a.var) (learnt : Bool) :
    Consistent F count (store.addPair a b learnt) membership watches t pending conflicted :=
  h.withStore (h.store.addPair ha hb hne learnt) { h.watches with } { h.listed with }
    (h.entailed.addPair h.store ha hb learnt hab)
    (fun m x hx => (ClauseStore.mem_implied_addPair h.store.sizeImplications ha hb learnt m x).mpr
      (Or.inl hx)) (fun _ _ => .refl _) fun _ _ _ hw => hw

theorem addLong {c : LongClause} (hc : Entails F c.lits) (hthree : 3 ≤ c.lits.length)
    (hnodup : (c.lits.map Lit.var).Nodup) (hrange : ∀ l ∈ c.lits, l.var.index < count)
    (hlisted : Listed membership' (store.addLong c) count) :
    Consistent F count (store.addLong c) membership'
      (Solver.watch watches store.long.size c.first c.second) t pending conflicted := by
  have hsecond : c.second ∈ c.lits := List.mem_cons_of_mem _ List.mem_cons_self
  have hne : c.first ≠ c.second := by
    intro he
    refine (List.nodup_cons.mp hnodup).1 ?_
    rw [he]
    exact List.mem_cons_self
  refine h.withStore (h.store.addLong hthree hnodup hrange)
    (h.watches.add (hrange _ List.mem_cons_self) (hrange _ hsecond) hne) hlisted
    (h.entailed.addLong hc) (fun _ _ hb => hb) (fun id hid => ?_) fun l _ id hw => ?_
  · show ((store.addLong c).clause id).lits.Perm _
    rw [ClauseStore.clause_addLong_of_lt hid]
    exact .refl _
  · exact (ClauseStore.watches_addLong store c id l).mpr (Or.inl hw)

/-- Room for more variables. -/
theorem grow {more : Nat} (hle : count ≤ more) :
    Consistent F more (store.resize more) (membership.resize more) (watches.resize more)
      (t.resize more) pending conflicted where
  trail := h.trail.resize hle
  store := h.store.resize hle
  watches := h.watches.resize hle
  listed := h.listed.resize hle
  entailed :=
    { units := h.entailed.units
      binary := fun l b hb => h.entailed.binary l b (h.store.implied_resize hle l ▸ hb)
      long := h.entailed.long }
  justified := by
    intro pre l post hsplit
    have hj := (h.justified pre l post hsplit).of_eq (h.trail.levelOf_resize hle _)
      (h.trail.reasonOf_resize hle _) rfl .rfl
    refine ⟨hj.level, hj.root, hj.explained.of_perm (fun a b hb => ?_) (fun _ _ => .refl _)
      fun _ hw => hw, hj.opened⟩
    exact h.store.implied_resize hle a ▸ hb
  pending := fun l hl =>
    ⟨(h.pending l hl).1, (h.trail.levelOf_resize hle _).trans (h.pending l hl).2⟩
  refuted := h.refuted

end Consistent

/-- Without known literals everything is settled. -/
theorem Settled.nil (done : List Lit) (store : ClauseStore) : Settled done store [] :=
  .of_subset store fun _ h => absurd h List.not_mem_nil

/-! ## Learnt clauses -/

/-- A clause whose first literal is not false leaves everything settled. -/
theorem Settled.addLong {store : ClauseStore} {done known : List Lit}
    (h : Settled done store known) {c : LongClause} (hc : c.first.neg ∉ known) :
    Settled done (store.addLong c) known where
  long := by
    intro id hf
    by_cases hid : id < store.long.size
    · have hclause := ClauseStore.clause_addLong_of_lt hid c
      exact ⟨hf.1, hclause ▸ (h.long id ⟨hid, hclause ▸ hf.2⟩).2⟩
    · -- the only other clause is the new one
      have hlt : id < store.long.size + 1 := by simpa using hf.1
      obtain rfl : id = store.long.size := Nat.le_antisymm (Nat.le_of_lt_succ hlt)
        (Nat.le_of_not_lt hid)
      have hfirst := hf.2.1
      rw [ClauseStore.clause_addLong_size] at hfirst
      exact absurd hfirst hc
  binary := h.binary

theorem Settled.addPair {store : ClauseStore} {done known : List Lit} {count : Nat} {a b : Lit}
    (h : Settled done store known) (hwf : store.Wf count) (ha : a.var.index < count)
    (hb : b.var.index < count) (hopen : a.neg ∉ known) (learnt : Bool) :
    Settled done (store.addPair a b learnt) known where
  long := h.long
  binary := fun x y hy hx hn => by
    rcases (ClauseStore.mem_implied_addPair hwf.sizeImplications ha hb learnt x y).mp hy with
      hy | ⟨rfl, -⟩ | ⟨-, rfl⟩
    · exact h.binary x y hy hx hn
    · exact absurd hx hopen
    · exact absurd hn hopen

/-- A stored clause explains its first literal. -/
theorem explains_addLong {store : ClauseStore} {t : Trail} {pre : List Lit} {c : LongClause}
    (hpre : ∀ m ∈ c.lits, m ≠ c.first → m.neg ∈ pre) :
    Explains (store.addLong c) t pre c.first (.long store.long.size) := by
  have hlits : (store.addLong c).lits store.long.size = c.lits :=
    congrArg LongClause.lits (ClauseStore.clause_addLong_size store c)
  refine ⟨(ClauseStore.watches_addLong ..).mpr (Or.inr ⟨rfl, Or.inl rfl⟩), ?_⟩
  rwa [hlits]

namespace Solver

variable {F : List Clause} {s s' : Solver}

theorem storeClause_unit (s : Solver) (a : Lit) (learnt : Bool) :
    s.storeClause a [] learnt
      = (.unit a, { s with store := { s.store with units := s.store.units.push a } }) := rfl

theorem storeClause_pair (s : Solver) (a b : Lit) (learnt : Bool) :
    s.storeClause a [b] learnt = (.binary a b, { s with store := s.store.addPair a b learnt }) :=
  rfl

theorem storeClause_long (s : Solver) (a b c : Lit) (more : List Lit) (learnt : Bool) :
    s.storeClause a (b :: c :: more) learnt
      = (.long s.store.long.size,
          { s with store := s.store.addLong ⟨a, b, c :: more, learnt⟩
                   watches := watch s.watches s.store.long.size a b }) := rfl

/-- Storing a clause assigns nothing. -/
theorem storeClause_frame (s : Solver) (first : Lit) (rest : List Lit) (learnt : Bool) :
    ∃ store watches, (s.storeClause first rest learnt).2
      = { s with store := store, watches := watches } := by
  unfold storeClause
  simp only
  split <;> exact ⟨_, _, rfl⟩

/-- **What storing a learnt clause changes.** It is settled where its first literal
is not false. -/
structure Stores (first : Lit) (rest : List Lit) (s s' : Solver) : Prop where
  others : { s with store := s'.store, watches := s'.watches } = s'
  given : s.store.KeepsGiven s'.store
  gains : s.store.Gains (first :: rest) s'.store
  settled : ∀ done known, first.neg ∉ known → Settled done s.store known →
    Settled done s'.store known

/-- Storing a clause that was learnt, at whatever level. -/
theorem storeClause_learnt {first : Lit} {rest : List Lit} {stored : Stored} (hs : Sound F s)
    (hent : Entails F (first :: rest)) (hnodup : ((first :: rest).map Lit.var).Nodup)
    (hrange : ∀ l ∈ first :: rest, l.var.index < s.varCount)
    (hstore : s.storeClause first rest true = (stored, s')) :
    Sound F s' ∧ Stores first rest s s'
      ∧ (rest ≠ [] → ∀ t pre, (∀ m ∈ rest, m.neg ∈ pre) →
          Explains s'.store t pre first (reasonOfStored stored) ∧
          reasonOfStored stored ≠ .decision) := by
  match rest with
  | [] =>
    rw [storeClause_unit] at hstore
    obtain ⟨rfl, rfl⟩ := Prod.mk.inj hstore
    exact ⟨hs.addUnit hent (hrange first List.mem_cons_self),
      ⟨rfl, .addUnit _ _, .addUnit _ _, fun _ _ _ hset => ⟨hset.long, hset.binary⟩⟩, by simp⟩
  | [b] =>
    rw [storeClause_pair] at hstore
    obtain ⟨rfl, rfl⟩ := Prod.mk.inj hstore
    have ha := hrange first List.mem_cons_self
    have hb := hrange b (by simp)
    have hne : b.var ≠ first.var := Ne.symm (by simpa using hnodup)
    refine ⟨hs.addPair hent ha hb hne true, ⟨rfl, .addPair hs.store ha hb true,
      .addPair hs.store ha hb true, fun _ _ hopen hset => hset.addPair hs.store ha hb hopen true⟩,
      fun _ t pre hpre => ?_⟩
    exact ⟨⟨(ClauseStore.mem_implied_addPair hs.store.sizeImplications ha hb true _ _).mpr
      (Or.inr (Or.inl ⟨rfl, rfl⟩)), hpre b (by simp)⟩, by simp [reasonOfStored]⟩
  | b :: c :: more =>
    rw [storeClause_long] at hstore
    obtain ⟨rfl, rfl⟩ := Prod.mk.inj hstore
    refine ⟨hs.addLong (c := ⟨first, b, c :: more, true⟩) hent (by simp [LongClause.lits]) hnodup
      hrange (hs.listed.addLearnt rfl), ⟨rfl, .addLong _ _,
        .addLong s.store ⟨first, b, c :: more, true⟩, fun _ _ hopen hset => hset.addLong hopen⟩,
      fun _ t pre hpre => ⟨?_, by simp [reasonOfStored]⟩⟩
    exact explains_addLong (c := ⟨first, b, c :: more, true⟩) fun m hm hne =>
      hpre m ((List.mem_cons.mp hm).resolve_left hne)

/-! ## What a solver means -/

/-- **A valuation satisfies a solver** if its root facts and its given clauses
hold. -/
structure GivenHold (s : Solver) (ν : Valuation) : Prop where
  roots : ∀ l ∈ s.trail.roots, l.holds ν = true
  given : ∀ c, s.store.Given c → c.holds ν = true

/-- Keeping the given clauses and the root facts keeps the meaning. -/
theorem GivenHold.of_keeps {ν : Valuation} (h : GivenHold s' ν)
    (hgiven : s.store.KeepsGiven s'.store)
    (hroots : ∀ l ∈ s.trail.roots, l ∈ s'.trail.roots) : GivenHold s ν :=
  ⟨fun l hl => h.roots l (hroots l hl), hgiven.holds h.given⟩

/-- **A solver keeps a clause** as a given one, or has a root fact among its
literals, unless the clause is a tautology. -/
def Keeps (s : Solver) (c : Clause) : Prop :=
  c.Tautology ∨ (∃ l ∈ c, l ∈ s.trail.roots) ∨ ∃ d, s.store.Given d ∧ ∀ l, l ∈ d ↔ l ∈ c

namespace Keeps

variable {c : Clause}

theorem holds (h : s.Keeps c) {ν : Valuation} (hν : GivenHold s ν) : c.holds ν = true := by
  rcases h with htaut | ⟨l, hl, hroot⟩ | ⟨d, hd, hmem⟩
  · exact htaut.holds ν
  · exact Clause.holds_iff.mpr ⟨l, hl, hν.roots l hroot⟩
  · exact Clause.holds_mono (fun l hl => (hmem l).mp hl) (hν.given d hd)

theorem of_keeps (h : s.Keeps c) (hgiven : s.store.KeepsGiven s'.store)
    (hroots : ∀ l ∈ s.trail.roots, l ∈ s'.trail.roots) : s'.Keeps c := by
  rcases h with htaut | ⟨l, hl, hroot⟩ | ⟨d, hd, hmem⟩
  · exact Or.inl htaut
  · exact Or.inr (Or.inl ⟨l, hl, hroots l hroot⟩)
  · obtain ⟨d', hd', hperm⟩ := hgiven.clauses d hd
    exact Or.inr (Or.inr ⟨d', hd', fun l => hperm.mem_iff.trans (hmem l)⟩)

theorem of_given {d : Clause} (hd : s.store.Given d) (hperm : d.Perm c) : s.Keeps c :=
  Or.inr (Or.inr ⟨d, hd, fun _ => hperm.mem_iff⟩)

/-- Clauses of the same literals are kept together. -/
theorem congr {d : Clause} (h : s.Keeps d) (hmem : ∀ l, l ∈ d ↔ l ∈ c) : s.Keeps c := by
  rcases h with htaut | ⟨l, hl, hroot⟩ | ⟨e, he, heq⟩
  · exact Or.inl (htaut.mono fun l hl => (hmem l).mp hl)
  · exact Or.inr (Or.inl ⟨l, (hmem l).mp hl, hroot⟩)
  · exact Or.inr (Or.inr ⟨e, he, fun l => (heq l).trans (hmem l)⟩)

end Keeps

/-! ## Inserting a clause -/

/-- **What inserting a clause at level 0 changes.** -/
structure Inserted (c : Clause) (learnt : Bool) (s s' : Solver) : Prop where
  others : { s with store := s'.store, watches := s'.watches, membership := s'.membership,
                    trail := s'.trail, conflicted := s'.conflicted } = s'
  given : s.store.KeepsGiven s'.store
  starts : s'.trail.starts = s.trail.starts
  lits : s.trail.lits.toList <+: s'.trail.lits.toList
  conflicted : s.conflicted = true → s'.conflicted = true
  /-- Everything is to be propagated again, unless nothing was stored. -/
  head : s'.trail.head = 0 ∨ (s'.store = s.store ∧ s'.trail = s.trail)
  /-- A given clause is kept from now on, unless it was refuted. -/
  kept : learnt = false → s'.conflicted = false → s'.Keeps c
  filed : learnt = false → s'.conflicted = false → s'.store.Files c
  /-- Whatever it is, it is the one new clause then. -/
  stored : (s'.conflicted = true ∧ s'.store = s.store) ∨ s.store.Gains c s'.store
  free : ∀ v, s.membership.Free v → (∀ l ∈ c, l.var ≠ v) → s'.membership.Free v
  /-- Only a clause of one literal assigns anything. -/
  added : ∀ l ∈ s'.trail.lits.toList, l ∈ s.trail.lits.toList ∨ [l].Perm c
  /-- Only a clause that is false refutes. -/
  refuted : s'.conflicted = true → s.conflicted = true ∨ ∀ l ∈ c, l.neg ∈ s.trail.lits.toList

/-- A clause that is refuted on the spot. -/
theorem Inserted.of_refuted {c : Clause} (hc : ∀ l ∈ c, l.neg ∈ s.trail.lits.toList)
    (learnt : Bool) : Inserted c learnt s s.setConflicted :=
  ⟨rfl, .refl _, rfl, List.prefix_refl _, fun _ => rfl, Or.inr ⟨rfl, rfl⟩,
    fun _ h => absurd h (by simp [setConflicted]),
    fun _ h => absurd h (by simp [setConflicted]), Or.inl ⟨rfl, rfl⟩, fun _ h _ => h,
    fun _ hl => Or.inl hl, fun _ => Or.inr hc⟩

/-- A literal that holds at level 0 becomes or is a root fact. -/
theorem Inserted.of_unit {c : Clause} {l : Lit} {learnt : Bool} {t : Trail}
    (hlits : s.trail.lits.toList <+: t.lits.toList)
    (hadded : ∀ m ∈ t.lits.toList, m ∈ s.trail.lits.toList ∨ m = l)
    (hstarts : t.starts = s.trail.starts) (h0 : s.level = 0) (hl : l ∈ t.lits.toList)
    (hc : [l].Perm c) :
    Inserted c learnt s
      { s with store := { s.store with units := s.store.units.push l }
               trail := t.rewind 0 } := by
  have ht : (t.rewind 0).level = 0 := (congrArg Array.size hstarts).trans h0
  refine ⟨rfl, .addUnit _ _, hstarts, hlits, id, Or.inl (Nat.min_zero _), ?_,
    fun _ _ => Or.inl ⟨l, by simp, hc⟩, Or.inr ((ClauseStore.Gains.addUnit s.store l).perm hc),
    fun _ h _ => h, fun m hm => (hadded m hm).imp_right fun (he : m = l) => he ▸ hc, Or.inl⟩
  intro _ _
  refine Or.inr (Or.inl ⟨l, hc.mem_iff.mp List.mem_cons_self, ?_⟩)
  rw [Trail.roots_of_level_zero ht]
  exact hl

/-- Nothing else changes, at any level. -/
theorem insertClause_others (s : Solver) (c : Clause) (learnt : Bool) :
    { s with store := (s.insertClause c learnt).store
             watches := (s.insertClause c learnt).watches
             membership := (s.insertClause c learnt).membership
             trail := (s.insertClause c learnt).trail
             conflicted := (s.insertClause c learnt).conflicted } = s.insertClause c learnt := by
  unfold insertClause
  simp only
  split
  · rfl
  rename_i first rest _
  split
  · rfl
  match rest with
  | [] =>
    simp only [storeClause_unit]
    by_cases ha : s.trail.isAssigned first.var = true
    · simp only [ha, if_true]
    · simp only [ha]
      rfl
  | [b] => rfl
  | b :: m :: more => cases learnt <;> rfl

/-- Where the literals that are not false come first, a false one in front means
that all are. -/
theorem isFalse_of_front {t : Trail} {c rest : Clause} {first : Lit}
    (h : c.filter (fun l => !t.isFalse l) ++ c.filter (fun l => !!t.isFalse l) = first :: rest)
    (hfirst : t.isFalse first = true) {l : Lit} (hl : l ∈ c) : t.isFalse l = true := by
  by_contra hopen
  have hmem : l ∈ c.filter (fun l => !t.isFalse l) :=
    List.mem_filter.mpr ⟨hl, by simpa using hopen⟩
  obtain ⟨a, as, ha⟩ := List.exists_cons_of_ne_nil (List.ne_nil_of_mem hmem)
  rw [ha, List.cons_append] at h
  have hin : first ∈ c.filter (fun l => !t.isFalse l) := by
    rw [ha, (List.cons.inj h).1]
    exact List.mem_cons_self
  simpa [hfirst] using (List.mem_filter.mp hin).2

section Lengths

/-! One lemma for every length of a clause, all of one shape: the clause comes in
the order in which it is stored. -/

variable {c : Clause} {l a b m : Lit} {more : List Lit}

theorem Sound.insertUnit (hs : Sound F s) (h0 : s.level = 0) (hperm : [l].Perm c)
    (hent : Entails F [l]) (hl : l.var.index < s.varCount) (hopen : s.trail.isFalse l ≠ true)
    (learnt : Bool) :
    let stored : Solver := { s with store := { s.store with units := s.store.units.push l } }
    let s' := if s.trail.isAssigned l.var then stored else stored.assign l .decision
    Sound F { s' with trail := s'.trail.rewind 0 }
      ∧ Inserted c learnt s { s' with trail := s'.trail.rewind 0 } := by
  have hstored := hs.addUnit hent hl
  by_cases ha : s.trail.isAssigned l.var = true
  · simp only [ha, if_true]
    have hin : l ∈ s.trail.lits.toList := by
      obtain ⟨k, hmem, hv⟩ := hs.trail.isAssigned_iff.mp ha
      rcases Lit.eq_or_eq_neg hv with rfl | rfl
      · exact hmem
      · exact absurd (hs.trail.isFalse_iff.mpr hmem) hopen
    exact ⟨hstored.rewind 0, .of_unit (List.prefix_refl _) (fun _ hm => Or.inl hm) rfl h0 hin hperm⟩
  · simp only [ha]
    have hlevel : (s.trail.push l s.trail.level .decision).levelOf l.var = 0 :=
      (Trail.levelOf_push_self hs.trail.sizeLevels hl _ _).trans h0
    have hex : Explains { s.store with units := s.store.units.push l }
        (s.trail.push l s.trail.level .decision) s.trail.lits.toList l .decision := Or.inl hlevel
    have hassigned := hstored.push hl (by simpa using ha) (Or.inr rfl) (fun _ => hent) hex
    exact ⟨hassigned.rewind 0, .of_unit (t := s.trail.push l s.trail.level .decision) (by simp)
      (fun m hm => by simpa using hm) rfl h0 (by simp) hperm⟩

theorem Sound.insertPair (hs : Sound F s) (hperm : [a, b].Perm c) (hent : Entails F [a, b])
    (hnodup : ([a, b].map Lit.var).Nodup) (hrange : ∀ l ∈ [a, b], l.var.index < s.varCount)
    (learnt : Bool) :
    let s' : Solver :=
      { s with store := s.store.addPair a b learnt, trail := s.trail.rewind 0 }
    Sound F s' ∧ Inserted c learnt s s' := by
  have ha := hrange a (by simp)
  have hb := hrange b (by simp)
  have hne : b.var ≠ a.var := Ne.symm (by simpa using hnodup)
  have hfiled : learnt = false → (s.store.addPair a b learnt).Given [a, b] := fun hg =>
    Or.inr ⟨a, b, (ClauseStore.mem_partners_addPair hs.store.sizeImplications ha hb learnt _ _).mpr
      (Or.inr ⟨hg, Or.inl ⟨rfl, rfl⟩⟩), rfl⟩
  refine ⟨(hs.addPair hent ha hb hne learnt).rewind 0, {
    others := rfl
    given := .addPair hs.store ha hb learnt
    starts := rfl
    lits := List.prefix_refl _
    conflicted := id
    head := Or.inl (Nat.min_zero _)
    kept := fun hg _ => .of_given (hfiled hg) hperm
    filed := fun hg _ => Or.inr ⟨_, hfiled hg, hperm⟩
    stored := Or.inr ((ClauseStore.Gains.addPair hs.store ha hb learnt).perm hperm)
    free := fun _ h _ => h
    added := fun _ hl => Or.inl hl
    refuted := Or.inl }⟩

theorem Sound.insertLong (hs : Sound F s) (hperm : (a :: b :: m :: more).Perm c)
    (hent : Entails F (a :: b :: m :: more))
    (hnodup : ((a :: b :: m :: more).map Lit.var).Nodup)
    (hrange : ∀ l ∈ a :: b :: m :: more, l.var.index < s.varCount) (learnt : Bool) :
    let s' : Solver :=
      { s with
        store := s.store.addLong ⟨a, b, m :: more, learnt⟩
        membership := if learnt then s.membership
          else s.membership.insert s.store.long.size (a :: b :: m :: more)
        watches := watch s.watches s.store.long.size a b
        trail := s.trail.rewind 0 }
    Sound F s' ∧ Inserted c learnt s s' := by
  have hthree : 3 ≤ (a :: b :: m :: more).length := by simp
  have hnew := ClauseStore.clause_addLong_size s.store ⟨a, b, m :: more, learnt⟩
  have hfiled : learnt = false →
      (s.store.addLong ⟨a, b, m :: more, learnt⟩).Given (a :: b :: m :: more) := by
    rintro rfl
    refine Or.inl ⟨s.store.long.size, ?_, congrArg LongClause.learnt hnew,
      congrArg LongClause.lits hnew⟩
    rw [ClauseStore.size_addLong]
    exact Nat.lt_succ_self _
  have hlisted : Listed (if learnt then s.membership
      else s.membership.insert s.store.long.size (a :: b :: m :: more))
      (s.store.addLong ⟨a, b, m :: more, learnt⟩) s.varCount := by
    cases learnt with
    | true => exact hs.listed.addLearnt rfl
    | false =>
      exact hs.listed.addGiven (c := ⟨a, b, m :: more, false⟩) rfl hthree hnodup hrange
  refine ⟨(hs.addLong (c := ⟨a, b, m :: more, learnt⟩) hent hthree hnodup hrange hlisted).rewind 0, {
    others := rfl
    given := .addLong _ _
    starts := rfl
    lits := List.prefix_refl _
    conflicted := id
    head := Or.inl (Nat.min_zero _)
    kept := fun hg _ => .of_given (hfiled hg) hperm
    filed := fun hg _ => Or.inr ⟨_, hfiled hg, hperm⟩
    stored := Or.inr ((ClauseStore.Gains.addLong s.store ⟨a, b, m :: more, learnt⟩).perm hperm)
    free := fun v hv hc => ?_
    added := fun _ hl => Or.inl hl
    refuted := Or.inl }⟩
  cases learnt with
  | true => exact hv
  | false => exact hv.insert _ fun l hl => hc l (hperm.mem_iff.mp hl)

end Lengths

theorem insertClause_spec {c : Clause} {learnt : Bool} (hs : Sound F s) (h0 : s.level = 0)
    (hent : Entails F c) (hnodup : (c.map Lit.var).Nodup)
    (hrange : ∀ l ∈ c, l.var.index < s.varCount) :
    Sound F (s.insertClause c learnt) ∧ Inserted c learnt s (s.insertClause c learnt) := by
  unfold insertClause
  simp only
  have hperm : (c.filter (fun l => !s.trail.isFalse l)
      ++ c.filter (fun l => !!s.trail.isFalse l)).Perm c := List.filter_append_perm _ _
  have hrefuted : (∀ l ∈ c, s.trail.isFalse l = true) →
      Sound F s.setConflicted ∧ Inserted c learnt s s.setConflicted := fun hfalse => by
    have hc : ∀ l ∈ c, l.neg ∈ s.trail.lits.toList := fun l hl =>
      hs.trail.isFalse_iff.mp (hfalse l hl)
    exact ⟨hs.refute (hs.not_satisfiable h0 hent hc), .of_refuted hc learnt⟩
  have hfront := @isFalse_of_front s.trail c
  generalize c.filter (fun l => !s.trail.isFalse l)
    ++ c.filter (fun l => !!s.trail.isFalse l) = d at *
  have hent : Entails F d := hent.perm hperm.symm
  have hnodup : (d.map Lit.var).Nodup := (hperm.map _).nodup_iff.mpr hnodup
  have hrange : ∀ l ∈ d, l.var.index < s.varCount := fun l hl => hrange l (hperm.mem_iff.mp hl)
  match d with
  | [] =>
    refine hrefuted fun l hl => ?_
    rw [hperm.symm.eq_nil] at hl
    exact absurd hl List.not_mem_nil
  | first :: rest =>
    simp only
    split
    · rename_i hfalse
      exact hrefuted fun l hl => hfront rfl hfalse hl
    · rename_i hopen
      match rest with
      | [] => exact hs.insertUnit h0 hperm hent (hrange first List.mem_cons_self) hopen learnt
      | [b] => exact hs.insertPair hperm hent hnodup hrange learnt
      | b :: m :: more =>
        have hlong := hs.insertLong hperm hent hnodup hrange learnt
        cases learnt <;> exact hlong

/-! ## Adding given clauses -/

theorem Sound.growTo (hs : Sound F s) (count : Nat) : Sound F (s.growTo count) := by
  unfold Solver.growTo
  split
  · exact hs
  · rename_i hlt
    exact hs.grow (Nat.le_of_lt (Nat.lt_of_not_le hlt))

/-- **A solver represents a list of clauses** if it keeps them all, unless it
was refuted. -/
def Represents (F : List Clause) (s : Solver) : Prop :=
  s.conflicted = false → ∀ c ∈ F, s.Keeps c

/-- **A solver covers a list of clauses** if these hold wherever the solver is
satisfied, unless it was refuted. -/
def Covers (F : List Clause) (s : Solver) : Prop :=
  s.conflicted = false → ∀ ν, GivenHold s ν → allHold ν F = true

theorem Represents.covers (h : Represents F s) : Covers F s :=
  fun hf _ hν => allHold_iff.mpr fun c hc => (h hf c hc).holds hν

/-- A solver goes on representing clauses as long as it keeps its given
clauses and root facts. -/
theorem Represents.of_keeps (h : Represents F s)
    (hconf : s'.conflicted = false → s.conflicted = false)
    (hgiven : s.store.KeepsGiven s'.store)
    (hroots : ∀ l ∈ s.trail.roots, l ∈ s'.trail.roots) : Represents F s' :=
  fun hf c hc => (h (hconf hf) c hc).of_keeps hgiven hroots

/-- Growing leaves the trail and the clauses as they are. -/
theorem growTo_same (hs : Sound F s) (count : Nat) :
    (s.growTo count).trail.lits = s.trail.lits ∧ (s.growTo count).trail.starts = s.trail.starts
      ∧ (s.growTo count).trail.head = s.trail.head
      ∧ (s.growTo count).conflicted = s.conflicted
      ∧ (∀ l : Lit, (s.growTo count).store.implications[l] = s.store.implications[l])
      ∧ (s.growTo count).store.long = s.store.long
      ∧ count ≤ (s.growTo count).varCount := by
  unfold Solver.growTo
  split
  · rename_i hle
    exact ⟨rfl, rfl, rfl, rfl, fun _ => rfl, rfl, hle⟩
  · rename_i hlt
    exact ⟨rfl, rfl, rfl, rfl,
      LitTable.get_resize _ (by rw [hs.store.sizeImplications]; omega), rfl, Nat.le_refl _⟩

/-- **A step that adds to what a solver is for**: from the clauses `F` to
`G`, at level 0. -/
structure Adds (F G : List Clause) (s s' : Solver) : Prop where
  sound : Sound G s'
  level : s'.level = s.level
  conflicted : s'.conflicted = false → s.conflicted = false
  given : s.store.KeepsGiven s'.store
  roots : ∀ l ∈ s.trail.roots, l ∈ s'.trail.roots
  /-- What is new is kept, unless it was refuted. -/
  kept : s'.conflicted = false → ∀ c ∈ G, c ∈ F ∨ s'.Keeps c
  filed : s'.conflicted = false → ∀ ν, s'.store.GivenTrue ν → ∀ c ∈ G, c ∈ F ∨ c.holds ν = true
  /-- What was settled before the head stays so. -/
  settled : ∀ q ≤ s'.trail.head,
    (q ≤ s.trail.head → Settled [] s.store (s.trail.lits.toList.take q)) →
      Settled [] s'.store (s'.trail.lits.toList.take q)

namespace Adds

theorem refl (hs : Sound F s) : Adds F F s s :=
  ⟨hs, rfl, id, .refl _, fun _ hl => hl, fun _ _ hc => Or.inl hc, fun _ _ _ _ hc => Or.inl hc,
    fun _ hq hset => hset hq⟩

theorem trans {G H : List Clause} {s'' : Solver} (h : Adds F G s s') (h' : Adds G H s' s'') :
    Adds F H s s'' where
  sound := h'.sound
  level := h'.level.trans h.level
  conflicted := fun hf => h.conflicted (h'.conflicted hf)
  given := h.given.trans h'.given
  roots := fun l hl => h'.roots l (h.roots l hl)
  kept := by
    intro hf c hc
    rcases h'.kept hf c hc with hG | hkeep
    · exact (h.kept (h'.conflicted hf) c hG).imp_right fun hk => hk.of_keeps h'.given h'.roots
    · exact Or.inr hkeep
  filed := by
    intro hf ν hν c hc
    rcases h'.filed hf ν hν c hc with hG | hholds
    · exact h.filed (h'.conflicted hf) ν (h'.given.givenTrue hν) c hG
    · exact Or.inr hholds
  settled := fun q hq hset => h'.settled q hq fun hq' => h.settled q hq' hset

theorem represents {G : List Clause} (h : Adds F G s s') (hF : Represents F s) :
    Represents G s' := by
  intro hf c hc
  rcases h.kept hf c hc with hold | hkeep
  · exact (hF (h.conflicted hf) c hold).of_keeps h.given h.roots
  · exact hkeep

theorem covers {G : List Clause} (h : Adds F G s s') (hF : Covers F s) : Covers G s' := by
  intro hf ν hν
  have hold := allHold_iff.mp (hF (h.conflicted hf) ν (hν.of_keeps h.given h.roots))
  exact allHold_iff.mpr fun c hc => (h.kept hf c hc).elim (hold c) fun hk => hk.holds hν

theorem growTo (hs : Sound F s) (count : Nat) : Adds F F s (s.growTo count) := by
  obtain ⟨hlits, hstarts, hhead, hconf, himplications, hlong, -⟩ := growTo_same hs count
  have hroots : (s.growTo count).trail.roots = s.trail.roots := by
    unfold Trail.roots Trail.levelStart
    rw [hlits, hstarts]
  have hunits : (s.growTo count).store.units = s.store.units := by
    unfold Solver.growTo
    split <;> rfl
  refine ⟨hs.growTo count, congrArg Array.size hstarts, fun hf => hconf ▸ hf,
    ⟨fun c hc => ?_, fun l hl => hunits ▸ hl⟩, fun l hl => hroots ▸ hl, fun _ c hc => Or.inl hc,
    fun _ _ _ c hc => Or.inl hc, fun q hq hset => ?_⟩
  · refine ⟨c, ?_, .refl c⟩
    unfold ClauseStore.Given ClauseStore.lits ClauseStore.clause ClauseStore.partners at hc ⊢
    simp only [himplications, hlong]
    exact hc
  · have hset := hset (hhead ▸ hq)
    rw [hlits]
    refine ⟨fun id hfal => absurd (hset.long id ?_).2.1 List.not_mem_nil,
      fun a b hb => hset.binary a b ?_⟩
    · unfold ClauseStore.Falsified ClauseStore.clause at hfal ⊢
      exact hlong ▸ hfal
    · unfold ClauseStore.implied at hb ⊢
      exact himplications a ▸ hb

/-- The projection means nothing to the clauses. -/
theorem withProjection {G : List Clause} (h : Adds F G s s') (projection : VarTable Bool) :
    Adds F G s { s' with projection := projection } :=
  ⟨h.sound, h.level, h.conflicted, h.given, h.roots, h.kept, h.filed, h.settled⟩

theorem project (hs : Sound F s) (vars : List Var) : Adds F F s (s.project vars) :=
  (Adds.growTo hs (vars.foldl (fun bound (v : Var) => max bound (v.index + 1)) 0)).withProjection _

theorem setProjection (hs : Sound F s) (vars : List Var) :
    Adds F F s (s.setProjection vars) := by
  let grown := s.growTo (vars.foldl (fun bound (v : Var) => max bound (v.index + 1)) 0)
  have hcleared : Adds F F s { grown with projection := grown.projection.fill false } :=
    (Adds.growTo hs _).withProjection _
  exact hcleared.trans (Adds.project hcleared.sound vars)

end Adds

/-- What inserting a given clause gives, at level 0. -/
theorem Inserted.adds {c : Clause} {G : List Clause} (h : Inserted c false s s') (h0 : s.level = 0)
    (hs' : Sound G s') (hG : s'.Keeps c → ∀ d ∈ G, d ∈ F ∨ s'.Keeps d)
    (hν : ∀ ν, c.holds ν = true → ∀ d ∈ G, d ∈ F ∨ d.holds ν = true) : Adds F G s s' := by
  have hlevel : s'.level = s.level := congrArg Array.size h.starts
  refine ⟨hs', hlevel, fun hf => ?_, h.given, ?_, fun hf => hG (h.kept rfl hf),
    fun hf ν hgiven => hν ν ((h.filed rfl hf).holds hgiven), fun q hq hset => ?_⟩
  · by_contra hne
    rw [h.conflicted (by simpa using hne)] at hf
    exact absurd hf (by simp)
  · rw [Trail.roots_of_level_zero h0, Trail.roots_of_level_zero (hlevel.trans h0)]
    exact fun l hl => h.lits.subset hl
  · rcases h.head with hz | ⟨hstore, htrail⟩
    · rw [hz] at hq
      rw [Nat.le_zero.mp hq, List.take_zero]
      exact .nil _ _
    · rw [hstore, htrail]
      exact hset (htrail ▸ hq)

theorem addNormalized_of_normalize {c sorted : Clause} (h : c.normalize = some sorted)
    (s : Solver) : s.addNormalized c = (s.growTo c.varBound).insertClause sorted false := by
  unfold addNormalized
  rw [h]

/-- **Reading a formula whose clauses are ascending** inserts them as they are. -/
theorem ofFormula_of_ascending {f : Formula} (h : ∀ c ∈ f.clauses, c.Ascending)
    (hproj : f.projection = none) (options : Options) :
    ofFormula f options = f.clauses.foldl
      (fun s c => (s.growTo c.varBound).insertClause c false) ((new options).growTo f.numVariables)
    := by
  unfold ofFormula
  rw [hproj]
  exact List.foldl_ext _ _ _ fun s c hc =>
    addNormalized_of_normalize (Clause.normalize_of_ascending (h c hc)) s

/-- **Adding a clause** at level 0. -/
theorem addNormalized_adds {c : Clause} (hs : Sound F s) (h0 : s.level = 0) :
    Adds F (F ++ [c]) s (s.addNormalized c) := by
  have hsub : ∀ d ∈ F, d ∈ F ++ [c] := fun d hd => List.mem_append_left _ hd
  have hgrow := Adds.growTo hs c.varBound
  have hs₁ : Sound (F ++ [c]) (s.growTo c.varBound) := hgrow.sound.mono hsub
  have hbound := (growTo_same hs c.varBound).2.2.2.2.2.2
  have hall : ∀ {p : Clause → Prop}, p c → ∀ d ∈ F ++ [c], d ∈ F ∨ p d := by
    intro p hc d hd
    refine (List.mem_append.mp hd).imp_right fun hd => ?_
    rw [List.mem_singleton.mp hd]
    exact hc
  unfold addNormalized
  simp only
  split
  · -- a tautology says nothing
    rename_i hnone
    have htaut := Clause.tautology_of_normalize_none hnone
    exact { hgrow with
      sound := hs₁
      kept := fun _ => hall (Or.inl htaut)
      filed := fun _ ν _ => hall (htaut.holds ν) }
  · rename_i d hd
    have hent : Entails (F ++ [c]) d := fun ν hν => by
      rw [Clause.holds_of_normalize hd]
      exact Entails.of_mem (List.mem_append_right _ List.mem_cons_self) ν hν
    have hrange : ∀ l ∈ d, l.var.index < (s.growTo c.varBound).varCount := fun l hl =>
      Nat.lt_of_lt_of_le (Clause.index_lt_varBound ((Clause.mem_of_normalize hd l).mp hl)) hbound
    obtain ⟨hs', hins⟩ : Sound (F ++ [c]) ((s.growTo c.varBound).insertClause d false)
        ∧ Inserted d false (s.growTo c.varBound) ((s.growTo c.varBound).insertClause d false) :=
      insertClause_spec hs₁ (hgrow.level.trans h0) hent (Clause.nodup_vars_of_normalize hd) hrange
    exact hgrow.trans (hins.adds (hgrow.level.trans h0) hs'
      (fun hk => hall (hk.congr (Clause.mem_of_normalize hd)))
      fun ν hν => hall (by rwa [Clause.holds_of_normalize hd] at hν))

theorem addClause_adds {c : Clause} (hs : Sound F s) (h : s.addClause c = .ok s') :
    s.level = 0 ∧ Adds F (F ++ [c]) s s' := by
  unfold addClause at h
  split at h
  · rename_i h0
    cases h
    exact ⟨h0, addNormalized_adds hs h0⟩
  · exact absurd h (by simp)

/-! ## A solver for a formula -/

theorem blank_empty (options : Options) (limit : Nat) :
    (blank options limit).store.Blank (blank options limit).varCount :=
  ⟨rfl, fun _ => LitTable.get_of_size_le _ (Nat.zero_le _), rfl, rfl⟩

theorem sound_blank (options : Options) (limit : Nat) : Sound [] (blank options limit) where
  trail := {
    sizeValues := rfl
    sizeLevels := rfl
    sizeReasons := rfl
    nodup := List.nodup_nil
    inRange := fun _ hl => absurd hl List.not_mem_nil
    valuesIff := by
      intro l
      have hget : (blank options limit).trail.values[l.var] = none :=
        VarTable.get_of_size_le _ (Nat.zero_le _)
      rw [hget]
      exact ⟨fun h => absurd h (by simp), fun h => absurd h List.not_mem_nil⟩
    startsLt := fun _ hp => absurd hp List.not_mem_nil
    startsSorted := List.Pairwise.nil
    headLe := Nat.le_refl 0 }
  store := (blank_empty options limit).wf
  watches := (blank_empty options limit).watchesExactly rfl fun l =>
    LitTable.get_of_size_le _ (Nat.zero_le _)
  listed := listed_empty (blank_empty options limit).long 0
  entailed := (blank_empty options limit).entailedBy []
  justified := fun pre l post h => absurd h (by simp [blank, Trail.empty])
  pending := fun _ h => absurd h List.not_mem_nil
  refuted := fun h => absurd h (by simp [blank])

/-- **Adding clauses one by one**, by induction: the solver is for all of
them. -/
theorem foldl_addNormalized_adds (cs : List Clause) (hs : Sound F s) (h0 : s.level = 0) :
    Adds F (F ++ cs) s (cs.foldl addNormalized s) := by
  induction cs generalizing s F with
  | nil =>
    rw [List.append_nil]
    exact .refl hs
  | cons c rest ih =>
    have hadd : Adds F (F ++ [c]) s (s.addNormalized c) := addNormalized_adds hs h0
    have hrest := ih hadd.sound (hadd.level.trans h0)
    rw [List.append_assoc] at hrest
    exact hadd.trans hrest

/-- **The solver for a formula** is for its clauses. -/
theorem ofFormula_adds (f : Formula) (options : Options) :
    Adds [] f.clauses (new options) (ofFormula f options) := by
  have hgrow := Adds.growTo (sound_blank options options.maxLearnts) f.numVariables
  have hclauses := foldl_addNormalized_adds f.clauses hgrow.sound (hgrow.level.trans rfl)
  rw [List.nil_append] at hclauses
  have h := hgrow.trans hclauses
  unfold ofFormula
  simp only
  split
  · exact h.trans (Adds.setProjection h.sound _)
  · exact h

theorem sound_ofFormula (f : Formula) (options : Options) :
    Sound f.clauses (ofFormula f options) :=
  (ofFormula_adds f options).sound

theorem represents_ofFormula (f : Formula) (options : Options) :
    Represents f.clauses (ofFormula f options) :=
  (ofFormula_adds f options).represents fun _ _ hc => absurd hc List.not_mem_nil

theorem settled_ofFormula (f : Formula) (options : Options) :
    Settled [] (ofFormula f options).store
      ((ofFormula f options).trail.lits.toList.take (ofFormula f options).trail.head) := by
  refine (ofFormula_adds f options).settled _ (Nat.le_refl _) fun hq => ?_
  rw [Nat.le_zero.mp hq, List.take_zero]
  exact .nil _ _

theorem level_ofFormula (f : Formula) (options : Options) : (ofFormula f options).level = 0 :=
  (ofFormula_adds f options).level

end Solver

end Cleave
