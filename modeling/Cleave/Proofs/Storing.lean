import Cleave.Proofs.Backtracking
import Cleave.Proofs.Indexing

/-!
# Storing clauses

A clause is stored by its length: a single literal among the units, two as a
pair of implications, more in the arena, where the first two are watched. All
of it keeps the invariant if the clause follows from `F`.

`ClauseStore.Given` says which clauses count as given. What holds of all
given clauses and of the root facts is what the solver holds of the formula,
so the statements about verdicts rest on this: storing and rearranging clauses
lose no given one (`ClauseStore.KeepsGiven`), and inserting a clause makes it
one of them or a root fact (`Solver.insertClause_spec`).

`ClauseStore.Has` counts learnt clauses and units as well. Storing a clause
adds this one and no other (`ClauseStore.Gains`). A clause is spent by some literals
if they make false what it watches (`ClauseStore.Unspent`): propagation will not
look at it any more once it is done with these.
-/

namespace Cleave

namespace ClauseStore

variable {s s' s'' : ClauseStore} {F : List Clause} {count : Nat}

/-! ## Given clauses -/

/-- **A given clause**: a long one that was not learnt, or a binary one. -/
def Given (s : ClauseStore) (c : Clause) : Prop :=
  (∃ id, id < s.long.size ∧ (s.clause id).learnt = false ∧ s.lits id = c)
    ∨ ∃ a, ∃ b ∈ s.partners a, [a, b] = c

/-- **Nothing given is lost**: no given clause, though its literals may be
reordered, and no unit. -/
structure KeepsGiven (s s' : ClauseStore) : Prop where
  clauses : ∀ c, s.Given c → ∃ d, s'.Given d ∧ d.Perm c
  units : ∀ l ∈ s.units.toList, l ∈ s'.units.toList

theorem KeepsGiven.refl (s : ClauseStore) : KeepsGiven s s :=
  ⟨fun c hc => ⟨c, hc, .refl c⟩, fun _ hl => hl⟩

theorem KeepsGiven.trans (h : KeepsGiven s s') (h' : KeepsGiven s' s'') : KeepsGiven s s'' := by
  refine ⟨fun c hc => ?_, fun l hl => h'.units l (h.units l hl)⟩
  obtain ⟨d, hd, hdc⟩ := h.clauses c hc
  obtain ⟨e, he, hed⟩ := h'.clauses d hd
  exact ⟨e, he, hed.trans hdc⟩

theorem KeepsGiven.addUnit (s : ClauseStore) (l : Lit) :
    KeepsGiven s { s with units := s.units.push l } :=
  ⟨fun c hc => ⟨c, hc, .refl c⟩, fun m hm => by simp_all⟩

theorem Rearranged.keepsGiven (h : Rearranged s s') : KeepsGiven s s' := by
  refine ⟨?_, fun l hl => h.units ▸ hl⟩
  rintro c (⟨id, hid, hgiven, rfl⟩ | ⟨a, b, hb, rfl⟩)
  · exact ⟨s'.lits id, Or.inl ⟨id, h.size ▸ hid, (h.learnt id).trans hgiven, rfl⟩, h.perm id⟩
  · exact ⟨[a, b], Or.inr ⟨a, b, by rw [h.partners]; exact hb, rfl⟩, .refl _⟩

/-- **A clause that is stored as given**, in some order of its literals. -/
def Files (s : ClauseStore) (c : Clause) : Prop :=
  (∃ l ∈ s.units.toList, [l].Perm c) ∨ ∃ d, s.Given d ∧ d.Perm c

/-- All given clauses hold after a change that keeps them only if they did
before. -/
theorem KeepsGiven.holds (h : KeepsGiven s s') {ν : Valuation}
    (hν : ∀ c, s'.Given c → c.holds ν = true) : ∀ c, s.Given c → c.holds ν = true := by
  intro c hc
  obtain ⟨d, hd, hdc⟩ := h.clauses c hc
  rw [← Clause.holds_perm hdc]
  exact hν d hd

/-- **What was given holds**: all given clauses and all units. -/
structure GivenTrue (s : ClauseStore) (ν : Valuation) : Prop where
  clauses : ∀ c, s.Given c → c.holds ν = true
  units : ∀ l ∈ s.units.toList, l.holds ν = true

theorem KeepsGiven.givenTrue (h : KeepsGiven s s') {ν : Valuation} (hν : s'.GivenTrue ν) :
    s.GivenTrue ν :=
  ⟨h.holds hν.clauses, fun l hl => hν.units l (h.units l hl)⟩

theorem Files.holds {c : Clause} (h : s.Files c) {ν : Valuation} (hν : s.GivenTrue ν) :
    c.holds ν = true := by
  rcases h with ⟨l, hl, hperm⟩ | ⟨d, hd, hperm⟩
  · rw [← Clause.holds_perm hperm]
    exact Clause.holds_singleton.mpr (hν.units l hl)
  · rw [← Clause.holds_perm hperm]
    exact hν.clauses d hd

theorem EntailedBy.given (he : s.EntailedBy F) {c : Clause} (hc : s.Given c) : Entails F c := by
  rcases hc with ⟨id, hid, -, rfl⟩ | ⟨a, b, hb, rfl⟩
  · exact he.clause hid
  · have h := he.binary a.neg b (mem_implied_of_partner hb)
    rw [Lit.neg_neg] at h
    exact h

/-! ## Stored clauses -/

/-- **A stored clause**, given or learnt: a unit, one direction of a binary
clause, or a long one. -/
inductive Has (s : ClauseStore) : Clause → Prop
  | unit {l : Lit} : l ∈ s.units.toList → Has s [l]
  | binary {l b : Lit} : b ∈ s.implied l → Has s [l.neg, b]
  | long {c : LongClause} : c ∈ s.long.toList → Has s c.lits

/-- **A stored clause that some literals leave a watch**: one direction of a binary
clause, or a long one. -/
inductive Unspent (s : ClauseStore) (done : List Lit) : Clause → Prop
  | binary {l b : Lit} : b ∈ s.implied l → ¬ (l ∈ done ∧ b.neg ∈ done) → Unspent s done [l.neg, b]
  | long {c : LongClause} : c ∈ s.long.toList → ¬ (c.first.neg ∈ done ∧ c.second.neg ∈ done) →
      Unspent s done c.lits

theorem EntailedBy.has (he : s.EntailedBy F) {c : Clause} (hc : s.Has c) : Entails F c := by
  cases hc with
  | unit hl => exact he.units _ hl
  | binary hb => exact he.binary _ _ hb
  | long hc => exact he.long _ hc

theorem Wf.has_inRange (h : s.Wf count) {c : Clause} (hc : s.Has c) :
    ∀ l ∈ c, l.var.index < count := by
  cases hc with
  | unit hl =>
    intro m hm
    rw [List.mem_singleton.mp hm]
    exact h.unitsInRange _ hl
  | @binary l b hb =>
    have hl : l.var.index < count :=
      Lit.code_lt.mp (h.sizeImplications ▸ code_lt_of_implied hb)
    simp [hl, h.impliedInRange l b hb]
  | long hc => exact h.longInRange _ hc

/-- Rearranging keeps every clause, in some order of its literals. -/
theorem Rearranged.has (h : Rearranged s s') {c : Clause} (hc : s.Has c) :
    ∃ d, s'.Has d ∧ d.Perm c := by
  cases hc with
  | unit hl => exact ⟨_, .unit (h.units ▸ hl), .refl _⟩
  | binary hb => exact ⟨_, .binary (h.implied _ ▸ hb), .refl _⟩
  | long hc =>
    obtain ⟨id, hid, rfl⟩ := Array.mem_iff_getElem.mp (Array.mem_toList_iff.mp hc)
    have hclause : s.clause id = s.long[id] := by simp [clause, hid]
    refine ⟨s'.lits id, .long (clause_mem (h.size ▸ hid)), ?_⟩
    rw [← hclause]
    exact h.perm id

/-- **One more clause** is stored, and no other one. -/
structure Gains (s : ClauseStore) (c : Clause) (s' : ClauseStore) : Prop where
  keeps : ∀ d, s.Has d → s'.Has d
  gained : ∃ d, s'.Has d ∧ d.Perm c
  only : ∀ d, s'.Has d → s.Has d ∨ d.Perm c
  unspent : ∀ done d, s'.Unspent done d → s.Unspent done d ∨ d.Perm c

theorem Gains.perm {c d : Clause} (h : s.Gains c s') (hperm : c.Perm d) : s.Gains d s' where
  keeps := h.keeps
  gained := by
    obtain ⟨e, he, hec⟩ := h.gained
    exact ⟨e, he, hec.trans hperm⟩
  only := fun e he => (h.only e he).imp_right fun hec => hec.trans hperm
  unspent := fun done e he => (h.unspent done e he).imp_right fun hec => hec.trans hperm

theorem Gains.addUnit (s : ClauseStore) (l : Lit) :
    s.Gains [l] { s with units := s.units.push l } where
  keeps := by
    intro d hd
    cases hd with
    | unit hm => exact .unit (by simp_all)
    | binary hb => exact .binary hb
    | long hc => exact .long hc
  gained := ⟨_, .unit (by simp), .refl _⟩
  only := by
    intro d hd
    cases hd with
    | unit hm =>
      rcases (by simpa using hm : _ ∨ _) with hm | rfl
      · exact Or.inl (.unit (Array.mem_toList_iff.mpr hm))
      · exact Or.inr (.refl _)
    | binary hb => exact Or.inl (.binary hb)
    | long hc => exact Or.inl (.long hc)
  unspent := by
    intro done d hd
    cases hd with
    | binary hb hno => exact Or.inl (.binary hb hno)
    | long hc hno => exact Or.inl (.long hc hno)

/-! ## No clauses -/

/-- A store without clauses over `count` variables. -/
structure Blank (s : ClauseStore) (count : Nat) : Prop where
  size : s.implications.size = 2 * count
  implications : ∀ l : Lit, s.implications[l] = default
  units : s.units = #[]
  long : s.long = #[]

namespace Blank

variable (h : s.Blank count)

include h

theorem implied (l : Lit) : s.implied l = [] := by
  unfold ClauseStore.implied
  rw [h.implications]
  rfl

theorem partners (l : Lit) : s.partners l = [] := by
  unfold ClauseStore.partners
  rw [h.implications]
  rfl

theorem wf : s.Wf count where
  sizeImplications := h.size
  impliedInRange := fun l b hb => absurd (h.implied l ▸ hb) List.not_mem_nil
  symmetric := fun a b hb => absurd (h.partners a ▸ hb) List.not_mem_nil
  contraposed := fun l b hb => absurd (h.implied l ▸ hb) List.not_mem_nil
  distinct := fun l b hb => absurd (h.implied l ▸ hb) List.not_mem_nil
  unitsInRange := by simp [h.units]
  longThree := by simp [h.long]
  longNodup := by simp [h.long]
  longInRange := by simp [h.long]

theorem not_has {c : Clause} : ¬ s.Has c := by
  intro hc
  cases hc with
  | unit hl => simp [h.units] at hl
  | binary hb => exact absurd (h.implied _ ▸ hb) List.not_mem_nil
  | long hc => simp [h.long] at hc

theorem entailedBy (F : List Clause) : s.EntailedBy F where
  units := by simp [h.units]
  binary := fun l b hb => absurd (h.implied l ▸ hb) List.not_mem_nil
  long := by simp [h.long]

theorem watchesExactly {w : LitTable (Array ClauseId)} (hsize : w.size = 2 * count)
    (hw : ∀ l : Lit, w[l] = default) : WatchesExactly w s count where
  size := hsize
  nodup := fun l => by rw [hw l]; exact List.nodup_nil
  mem_iff := by
    intro l id
    rw [hw l]
    exact ⟨fun hm => absurd hm List.not_mem_nil, fun hm => absurd hm.1 (by simp [h.long])⟩

end Blank

/-! ## Binary clauses -/

/-- The store with one more binary clause. -/
def addPair (s : ClauseStore) (a b : Lit) (learnt : Bool) : ClauseStore :=
  (s.imply a.neg b learnt).imply b.neg a learnt

theorem mem_implied_imply {l other : Lit} (hl : l.code < s.implications.size) (learnt : Bool)
    (m x : Lit) :
    x ∈ (s.imply l other learnt).implied m ↔ x ∈ s.implied m ∨ (m = l ∧ x = other) := by
  unfold implied imply
  simp only
  by_cases hm : l = m
  · subst hm
    rw [LitTable.get_modify_self hl, Implications.mem_all_insert]
    simp
  · rw [LitTable.get_modify_ne _ hm]
    simp [Ne.symm hm]

theorem mem_partners_imply {l other : Lit} (hl : l.code < s.implications.size) (learnt : Bool)
    (m x : Lit) :
    x ∈ (s.imply l other learnt).partners m
      ↔ x ∈ s.partners m ∨ (learnt = false ∧ m.neg = l ∧ x = other) := by
  unfold partners imply
  simp only
  by_cases hm : l = m.neg
  · subst hm
    rw [LitTable.get_modify_self hl, Implications.front_insert]
    cases learnt <;> simp
  · rw [LitTable.get_modify_ne _ hm]
    simp [Ne.symm hm]

section AddPair

variable (hs : s.implications.size = 2 * count) {a b : Lit} (ha : a.var.index < count)
  (hb : b.var.index < count) (learnt : Bool)

include hs ha hb

theorem mem_implied_addPair (m x : Lit) :
    x ∈ (s.addPair a b learnt).implied m
      ↔ x ∈ s.implied m ∨ (m = a.neg ∧ x = b) ∨ (m = b.neg ∧ x = a) := by
  have hac : a.neg.code < s.implications.size := by rw [hs]; exact Lit.code_lt.mpr ha
  have hbc : b.neg.code < (s.imply a.neg b learnt).implications.size := by
    have hlt : b.neg.code < 2 * count := Lit.code_lt.mpr hb
    simpa [imply, hs] using hlt
  unfold addPair
  rw [mem_implied_imply hbc, mem_implied_imply hac, or_assoc]

theorem mem_partners_addPair (m x : Lit) :
    x ∈ (s.addPair a b learnt).partners m
      ↔ x ∈ s.partners m ∨ (learnt = false ∧ ((m = a ∧ x = b) ∨ (m = b ∧ x = a))) := by
  have hac : a.neg.code < s.implications.size := by rw [hs]; exact Lit.code_lt.mpr ha
  have hbc : b.neg.code < (s.imply a.neg b learnt).implications.size := by
    have hlt : b.neg.code < 2 * count := Lit.code_lt.mpr hb
    simpa [imply, hs] using hlt
  unfold addPair
  rw [mem_partners_imply hbc, mem_partners_imply hac, or_assoc]
  simp only [Lit.neg_inj]
  tauto

end AddPair

theorem Wf.addPair (h : s.Wf count) {a b : Lit} (ha : a.var.index < count)
    (hb : b.var.index < count) (hab : b.var ≠ a.var) (learnt : Bool) :
    (s.addPair a b learnt).Wf count where
  sizeImplications := by simp [ClauseStore.addPair, imply, h.sizeImplications]
  impliedInRange := by
    intro m x hx
    rcases (mem_implied_addPair h.sizeImplications ha hb learnt m x).mp hx with
      hx | ⟨-, rfl⟩ | ⟨-, rfl⟩
    · exact h.impliedInRange m x hx
    · exact hb
    · exact ha
  symmetric := by
    intro m x hx
    rw [mem_partners_addPair h.sizeImplications ha hb] at hx ⊢
    rcases hx with hx | ⟨hl, ⟨rfl, rfl⟩ | ⟨rfl, rfl⟩⟩
    · exact Or.inl (h.symmetric m x hx)
    · exact Or.inr ⟨hl, Or.inr ⟨rfl, rfl⟩⟩
    · exact Or.inr ⟨hl, Or.inl ⟨rfl, rfl⟩⟩
  contraposed := by
    intro m x hx
    rw [mem_implied_addPair h.sizeImplications ha hb] at hx ⊢
    rcases hx with hx | ⟨rfl, rfl⟩ | ⟨rfl, rfl⟩
    · exact Or.inl (h.contraposed m x hx)
    · exact Or.inr (Or.inr ⟨rfl, Lit.neg_neg _⟩)
    · exact Or.inr (Or.inl ⟨rfl, Lit.neg_neg _⟩)
  distinct := by
    intro m x hx
    rcases (mem_implied_addPair h.sizeImplications ha hb learnt m x).mp hx with
      hx | ⟨rfl, rfl⟩ | ⟨rfl, rfl⟩
    · exact h.distinct m x hx
    · exact hab
    · exact hab.symm
  unitsInRange := h.unitsInRange
  longThree := h.longThree
  longNodup := h.longNodup
  longInRange := h.longInRange

theorem EntailedBy.addPair (he : s.EntailedBy F) (h : s.Wf count) {a b : Lit}
    (ha : a.var.index < count) (hb : b.var.index < count) (learnt : Bool)
    (hab : Entails F [a, b]) : (s.addPair a b learnt).EntailedBy F where
  units := he.units
  binary := by
    intro m x hx
    rcases (mem_implied_addPair h.sizeImplications ha hb learnt m x).mp hx with
      hx | ⟨rfl, rfl⟩ | ⟨rfl, rfl⟩
    · exact he.binary m x hx
    · rw [Lit.neg_neg]
      exact hab
    · rw [Lit.neg_neg]
      exact hab.perm (.swap _ _ _)
  long := he.long

theorem Gains.addPair (h : s.Wf count) {a b : Lit} (ha : a.var.index < count)
    (hb : b.var.index < count) (learnt : Bool) : s.Gains [a, b] (s.addPair a b learnt) := by
  have hmem := mem_implied_addPair h.sizeImplications ha hb learnt
  refine ⟨fun d hd => ?_, ⟨[a.neg.neg, b], .binary ?_, ?_⟩, fun d hd => ?_, fun done d hd => ?_⟩
  · cases hd with
    | unit hl => exact .unit hl
    | binary hx => exact .binary ((hmem _ _).mpr (Or.inl hx))
    | long hc => exact .long hc
  · exact (hmem _ _).mpr (Or.inr (Or.inl ⟨rfl, rfl⟩))
  · rw [Lit.neg_neg]
  · cases hd with
    | unit hl => exact Or.inl (.unit hl)
    | binary hx =>
      rcases (hmem _ _).mp hx with hx | ⟨rfl, rfl⟩ | ⟨rfl, rfl⟩
      · exact Or.inl (.binary hx)
      · exact Or.inr (by rw [Lit.neg_neg])
      · exact Or.inr (by rw [Lit.neg_neg]; exact .swap _ _ _)
    | long hc => exact Or.inl (.long hc)
  · cases hd with
    | binary hx hno =>
      rcases (hmem _ _).mp hx with hx | ⟨rfl, rfl⟩ | ⟨rfl, rfl⟩
      · exact Or.inl (.binary hx hno)
      · exact Or.inr (by rw [Lit.neg_neg])
      · exact Or.inr (by rw [Lit.neg_neg]; exact .swap _ _ _)
    | long hc hno => exact Or.inl (.long hc hno)

theorem KeepsGiven.addPair (h : s.Wf count) {a b : Lit} (ha : a.var.index < count)
    (hb : b.var.index < count) (learnt : Bool) : KeepsGiven s (s.addPair a b learnt) := by
  refine ⟨?_, fun _ hl => hl⟩
  rintro c (hlong | ⟨m, x, hx, rfl⟩)
  · exact ⟨c, Or.inl hlong, .refl c⟩
  · exact ⟨[m, x], Or.inr ⟨m, x,
      (mem_partners_addPair h.sizeImplications ha hb learnt m x).mpr (Or.inl hx), rfl⟩, .refl _⟩

/-! ## Long clauses -/

/-- The store with one more long clause. -/
def addLong (s : ClauseStore) (c : LongClause) : ClauseStore :=
  { s with long := s.long.push c
           learntLong := if c.learnt then s.learntLong + 1 else s.learntLong }

@[simp] theorem size_addLong (s : ClauseStore) (c : LongClause) :
    (s.addLong c).long.size = s.long.size + 1 := by
  simp [addLong]

theorem clause_addLong_of_lt {id : ClauseId} (hid : id < s.long.size) (c : LongClause) :
    (s.addLong c).clause id = s.clause id := by
  simp [clause, addLong, Array.getElem?_push_lt hid, hid]

theorem clause_addLong_size (s : ClauseStore) (c : LongClause) :
    (s.addLong c).clause s.long.size = c := by
  simp [clause, addLong]

theorem forall_mem_addLong {p : LongClause → Prop} {c : LongClause}
    (hs : ∀ d ∈ s.long.toList, p d) (hc : p c) : ∀ d ∈ (s.addLong c).long.toList, p d := by
  intro d hd
  have hd : d ∈ s.long.toList ∨ d = c := by simpa [addLong] using hd
  rcases hd with hd | rfl
  · exact hs d hd
  · exact hc

theorem Wf.addLong (h : s.Wf count) {c : LongClause} (hthree : 3 ≤ c.lits.length)
    (hnodup : (c.lits.map Lit.var).Nodup) (hrange : ∀ l ∈ c.lits, l.var.index < count) :
    (s.addLong c).Wf count where
  sizeImplications := h.sizeImplications
  impliedInRange := h.impliedInRange
  symmetric := h.symmetric
  contraposed := h.contraposed
  distinct := h.distinct
  unitsInRange := h.unitsInRange
  longThree := forall_mem_addLong h.longThree hthree
  longNodup := forall_mem_addLong h.longNodup hnodup
  longInRange := forall_mem_addLong h.longInRange hrange

theorem EntailedBy.addLong (he : s.EntailedBy F) {c : LongClause} (hc : Entails F c.lits) :
    (s.addLong c).EntailedBy F where
  units := he.units
  binary := he.binary
  long := forall_mem_addLong he.long hc

theorem Gains.addLong (s : ClauseStore) (c : LongClause) : s.Gains c.lits (s.addLong c) := by
  have hmem : ∀ d, d ∈ (s.addLong c).long.toList ↔ d ∈ s.long.toList ∨ d = c := by
    simp [ClauseStore.addLong]
  refine ⟨fun d hd => ?_, ⟨_, .long ((hmem c).mpr (Or.inr rfl)), .refl _⟩, fun d hd => ?_,
    fun done d hd => ?_⟩
  · cases hd with
    | unit hl => exact .unit hl
    | binary hb => exact .binary hb
    | long hd => exact .long ((hmem _).mpr (Or.inl hd))
  · cases hd with
    | unit hl => exact Or.inl (.unit hl)
    | binary hb => exact Or.inl (.binary hb)
    | long hd =>
      rcases (hmem _).mp hd with hd | rfl
      · exact Or.inl (.long hd)
      · exact Or.inr (.refl _)
  · cases hd with
    | binary hb hno => exact Or.inl (.binary hb hno)
    | long hd hno =>
      rcases (hmem _).mp hd with hd | rfl
      · exact Or.inl (.long hd hno)
      · exact Or.inr (.refl _)

theorem KeepsGiven.addLong (s : ClauseStore) (c : LongClause) : KeepsGiven s (s.addLong c) := by
  refine ⟨?_, fun _ hl => hl⟩
  rintro d (⟨id, hid, hgiven, rfl⟩ | hpair)
  · have hclause := clause_addLong_of_lt hid c
    refine ⟨s.lits id, Or.inl ⟨id, ?_, ?_, ?_⟩, .refl _⟩
    · rw [size_addLong]
      exact Nat.lt_succ_of_lt hid
    · rw [hclause]
      exact hgiven
    · exact congrArg LongClause.lits hclause
  · exact ⟨d, Or.inr hpair, .refl d⟩

/-- Which literals the clauses watch, with one more clause. -/
theorem watches_addLong (s : ClauseStore) (c : LongClause) (id : ClauseId) (l : Lit) :
    (s.addLong c).Watches id l
      ↔ s.Watches id l ∨ (id = s.long.size ∧ (c.first = l ∨ c.second = l)) := by
  unfold Watches
  rw [size_addLong]
  by_cases hlt : id < s.long.size
  · rw [clause_addLong_of_lt hlt]
    have hne : id ≠ s.long.size := Nat.ne_of_lt hlt
    simp [hlt, hne, Nat.lt_succ_of_lt hlt]
  · by_cases he : id = s.long.size
    · subst he
      rw [clause_addLong_size]
      simp
    · have hge : ¬ id < s.long.size + 1 := fun h => he (Nat.le_antisymm (Nat.le_of_lt_succ h)
        (Nat.le_of_not_lt hlt))
      simp [hlt, he, hge]

end ClauseStore

/-! ## The lists of a new clause -/

/-- A clause enters the lists of both its watched literals. -/
theorem WatchesExactly.add {w : LitTable (Array ClauseId)} {s : ClauseStore} {count : Nat}
    (h : WatchesExactly w s count) {c : LongClause} (hfirst : c.first.var.index < count)
    (hsecond : c.second.var.index < count) (hne : c.first ≠ c.second) :
    WatchesExactly (Solver.watch w s.long.size c.first c.second) (s.addLong c) count := by
  have hf : c.first.code < w.size := by rw [h.size]; exact Lit.code_lt.mpr hfirst
  have hs : c.second.code < (w.modify c.first (·.push s.long.size)).size := by
    rw [LitTable.size_modify, h.size]
    exact Lit.code_lt.mpr hsecond
  have hget : ∀ l : Lit, (Solver.watch w s.long.size c.first c.second)[l].toList
      = w[l].toList ++ if c.first = l ∨ c.second = l then [s.long.size] else [] := by
    intro l
    unfold Solver.watch
    by_cases hl : c.second = l
    · rw [← hl, LitTable.get_modify_self hs, LitTable.get_modify_ne _ hne]
      simp
    · rw [LitTable.get_modify_ne _ hl]
      by_cases hl' : c.first = l
      · rw [← hl', LitTable.get_modify_self hf]
        simp
      · rw [LitTable.get_modify_ne _ hl']
        simp [hl, hl']
  have hold : ∀ l : Lit, s.long.size ∉ w[l].toList := fun l hm =>
    absurd ((h.mem_iff l _).mp hm).1 (Nat.lt_irrefl _)
  refine ⟨?_, fun l => ?_, fun l id => ?_⟩
  · unfold Solver.watch
    rw [LitTable.size_modify, LitTable.size_modify]
    exact h.size
  · rw [hget l]
    split
    · refine List.nodup_append.mpr ⟨h.nodup l, by simp, fun a ha b hb hab => ?_⟩
      rw [List.mem_singleton.mp hb] at hab
      exact hold l (hab ▸ ha)
    · simpa using h.nodup l
  · rw [hget l, List.mem_append, h.mem_iff l id, ClauseStore.watches_addLong]
    split
    · rename_i hl
      simp [hl]
    · rename_i hl
      simp [hl]

/-- Which positions hold given clauses after a long one is added. -/
theorem ClauseStore.gives_addLong (s : ClauseStore) (c : LongClause) (id : ClauseId) :
    (s.addLong c).Gives id ↔ s.Gives id ∨ (id = s.long.size ∧ c.learnt = false) := by
  unfold ClauseStore.Gives
  rw [ClauseStore.size_addLong]
  rcases Nat.lt_trichotomy id s.long.size with hlt | rfl | hgt
  · simp [ClauseStore.clause_addLong_of_lt hlt, hlt, Nat.ne_of_lt hlt, Nat.lt_succ_of_lt hlt]
  · simp [ClauseStore.clause_addLong_size]
  · simp [Nat.not_lt_of_gt hgt, Nat.not_lt.mpr (Nat.succ_le_of_lt hgt), Nat.ne_of_gt hgt]

theorem ClauseStore.Gives.lits_addLong {s : ClauseStore} {id : ClauseId} (h : s.Gives id)
    (c : LongClause) : (s.addLong c).lits id = s.lits id :=
  congrArg LongClause.lits (ClauseStore.clause_addLong_of_lt h.1 c)

theorem ClauseStore.lits_addLong_size (s : ClauseStore) (c : LongClause) :
    (s.addLong c).lits s.long.size = c.lits :=
  congrArg LongClause.lits (ClauseStore.clause_addLong_size s c)

/-- What the positions of given clauses say before and after a long one is added. -/
theorem ClauseStore.gives_addLong_and (s : ClauseStore) (c : LongClause) (id : ClauseId)
    (p : Clause → Prop) :
    ((s.addLong c).Gives id ∧ p ((s.addLong c).lits id))
      ↔ (s.Gives id ∧ p (s.lits id)) ∨ (id = s.long.size ∧ c.learnt = false ∧ p c.lits) := by
  rw [s.gives_addLong]
  constructor
  · rintro ⟨hg | ⟨rfl, hc⟩, hp⟩
    · exact Or.inl ⟨hg, hg.lits_addLong c ▸ hp⟩
    · exact Or.inr ⟨rfl, hc, s.lits_addLong_size c ▸ hp⟩
  · rintro (⟨hg, hp⟩ | ⟨rfl, hc, hp⟩)
    · exact ⟨Or.inl hg, hg.lits_addLong c ▸ hp⟩
    · exact ⟨Or.inr ⟨rfl, hc⟩, s.lits_addLong_size c ▸ hp⟩

theorem ClauseStore.longClauses_addLong (s : ClauseStore) (c : LongClause) :
    (s.addLong c).longClauses = s.longClauses ++ [(s.long.size, c)] := by
  unfold ClauseStore.longClauses
  rw [ClauseStore.size_addLong, List.range_succ, List.map_append, List.map_singleton,
    ClauseStore.clause_addLong_size]
  refine congrArg (· ++ [(s.long.size, c)]) (List.map_congr_left fun id hid => ?_)
  rw [ClauseStore.clause_addLong_of_lt (List.mem_range.mp hid)]

/-- A given clause that is added is the last one. -/
theorem ClauseStore.givenLong_addLong (s : ClauseStore) (c : LongClause) : (s.addLong c).givenLong
    = s.givenLong ++ if c.learnt then [] else [(s.long.size, c)] := by
  unfold ClauseStore.givenLong
  rw [ClauseStore.longClauses_addLong, List.filter_append]
  cases hc : c.learnt <;> simp [hc]

/-- The index looks at the long clauses only. -/
theorem Listed.of_long_eq {m : Membership} {s s' : ClauseStore} {count : Nat} (h : Listed m s count)
    (hlong : s'.long = s.long) : Listed m s' count := by
  obtain ⟨_, _, _, _⟩ := s'
  obtain rfl : _ = s.long := hlong
  exact { h with }

/-- Without long clauses nothing is listed. -/
theorem listed_empty {s : ClauseStore} (h : s.long = #[]) (count : Nat) :
    Listed (Membership.empty.resize count) s count := by
  have hnone : ∀ id, ¬ s.Gives id := fun id hid => absurd hid.1 (by simp [h])
  exact {
    size := VarTable.size_resize _ (Nat.zero_le _)
    sizes := fun w => Membership.size_table_resize (by cases w <;> exact Nat.zero_le _)
    mem_ofVar := fun v id => by
      rw [(Membership.free_empty count v).ofVar]
      exact ⟨fun hm => absurd hm List.not_mem_nil, fun hm => absurd hm.1 (hnone id)⟩
    mem_table := fun w l id => by
      rw [Membership.table_empty]
      exact ⟨fun hm => absurd hm List.not_mem_nil, fun hm => absurd hm.1 (hnone id)⟩
    three_le := fun id hid => absurd hid (hnone id)
    ascending_ofVar := fun v => by
      rw [(Membership.free_empty count v).ofVar]
      exact List.Pairwise.nil
    ascending_table := fun w l => by
      rw [Membership.table_empty]
      exact List.Pairwise.nil
    indexed := by
      rw [ClauseStore.length_givenLong, h]
      rfl }

/-- A learnt clause is not listed. -/
theorem Listed.addLearnt {m : Membership} {s : ClauseStore} {count : Nat} (h : Listed m s count)
    {c : LongClause} (hc : c.learnt = true) : Listed m (s.addLong c) count where
  size := h.size
  sizes := h.sizes
  mem_ofVar := by
    intro v id
    rw [s.gives_addLong_and c id (fun d => ∃ l ∈ d, l.var = v), h.mem_ofVar]
    simp [hc]
  mem_table := by
    intro w l id
    rw [s.gives_addLong_and c id (fun d => l ∈ d ∧ Width.of d.length = w), h.mem_table]
    simp [hc]
  three_le := by
    intro id hid
    rcases (s.gives_addLong c id).mp hid with hg | ⟨-, hf⟩
    · rw [hg.lits_addLong]
      exact h.three_le id hg
    · simp [hc] at hf
  ascending_ofVar := h.ascending_ofVar
  ascending_table := h.ascending_table
  indexed := by
    rw [h.indexed, ClauseStore.givenLong_addLong]
    simp [hc]

/-- A given clause is listed when it is added. -/
theorem Listed.addGiven {m : Membership} {s : ClauseStore} {count : Nat} (h : Listed m s count)
    {c : LongClause} (hc : c.learnt = false) (hthree : 3 ≤ c.lits.length)
    (hnodup : (c.lits.map Lit.var).Nodup) (hrange : ∀ l ∈ c.lits, l.var.index < count) :
    Listed (m.insert s.long.size c.lits) (s.addLong c) count where
  size := (Membership.size_insert m _ c.lits).trans h.size
  sizes := fun w => (Membership.size_table_insert m _ c.lits w).trans (h.sizes w)
  mem_ofVar := by
    intro v id
    rw [s.gives_addLong_and c id (fun d => ∃ l ∈ d, l.var = v),
      Membership.mem_ofVar_insert fun l hl => h.size ▸ hrange l hl, h.mem_ofVar]
    simp [hc]
  mem_table := by
    intro w l id
    rw [s.gives_addLong_and c id (fun d => l ∈ d ∧ Width.of d.length = w),
      Membership.mem_table_insert fun x hx => h.sizes w ▸ Lit.code_lt.mpr (hrange x hx),
      h.mem_table]
    simp [hc]
  three_le := by
    intro id hid
    rcases (s.gives_addLong c id).mp hid with hg | ⟨rfl, -⟩
    · rw [hg.lits_addLong]
      exact h.three_le id hg
    · rw [s.lits_addLong_size]
      exact hthree
  ascending_ofVar := fun v => Membership.ascending_ofVar_insert hnodup (h.ascending_ofVar v)
    fun id hid => ((h.mem_ofVar v id).mp hid).1.1
  ascending_table := fun w l => Membership.ascending_table_insert (.of_map _ hnodup)
    (h.ascending_table w l) fun id hid => ((h.mem_table w l id).mp hid).1.1
  indexed := by
    rw [Membership.indexed_insert, h.indexed, ClauseStore.givenLong_addLong]
    simp [hc]

end Cleave
