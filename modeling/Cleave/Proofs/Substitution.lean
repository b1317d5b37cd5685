import Cleave.Proofs.Classes
import Cleave.Proofs.Solving

/-!
# Substitution of equivalent literals

A clause means the same as the clause of the roots of its literals, wherever
the classes are respected. Substitution stores all clauses anew with their
roots, given and learnt ones, units and pairs (`Rebuilt`); so it keeps the
invariant, and a variable that is nobody's root occurs nowhere afterwards
(`Absent`).

The other way round, let a valuation satisfy the solver afterwards. The one
that gives every literal the value of its root satisfies the solver before:
assigned variables are never united, so the root facts keep their values as
well (`substitute_spec`).
-/

namespace Cleave

/-- A clause of replaced literals has the value that they have. -/
theorem Clause.holds_map {ν ν' : Valuation} {c : Clause} {rep : Lit → Lit}
    (h : ∀ l ∈ c, (rep l).holds ν = l.holds ν') : Clause.holds ν (c.map rep) = c.holds ν' := by
  rw [Bool.eq_iff_iff, Clause.holds_iff, Clause.holds_iff]
  constructor
  · rintro ⟨m, hm, hholds⟩
    obtain ⟨l, hl, rfl⟩ := List.mem_map.mp hm
    exact ⟨l, hl, (h l hl) ▸ hholds⟩
  · rintro ⟨l, hl, hholds⟩
    exact ⟨rep l, List.mem_map_of_mem hl, (h l hl).trans hholds⟩

/-! ## All stored clauses -/

namespace ClauseStore

variable {s : ClauseStore} {count : Nat}

/-- What a literal implies through clauses that were learnt or not. -/
def listed (s : ClauseStore) (learnt : Bool) (l : Lit) : List Lit :=
  s.implications[l].part learnt

theorem mem_implied_iff {l b : Lit} : b ∈ s.implied l ↔ ∃ learnt, b ∈ s.listed learnt l :=
  Implications.mem_all_iff

theorem mem_binaries {c : Clause} {learnt : Bool} :
    (c, learnt) ∈ s.binaries
      ↔ ∃ a b, c = [a, b] ∧ a.code < b.code ∧ b ∈ s.listed learnt a.neg := by
  unfold binaries
  simp only [List.mem_flatMap, List.mem_filterMap, Lit.blt, decide_eq_true_eq,
    Option.ite_none_right_eq_some, Option.some.injEq, Prod.mk.injEq]
  constructor
  · rintro ⟨⟨l, i⟩, hli, ⟨b, flag⟩, hb, hlt, rfl, rfl⟩
    obtain ⟨code, -, hcode⟩ := List.mem_map.mp hli
    obtain ⟨rfl, rfl⟩ := Prod.mk.inj hcode
    exact ⟨_, b, rfl, hlt, by rw [Lit.neg_neg]; exact Implications.mem_flagged.mp hb⟩
  · rintro ⟨a, b, rfl, hlt, hb⟩
    have hin := code_lt_of_implied (mem_implied_iff.mpr ⟨learnt, hb⟩)
    refine ⟨(a.neg, s.implications[a.neg]), ?_, (b, learnt), Implications.mem_flagged.mpr hb, ?_⟩
    · refine List.mem_map.mpr ⟨a.neg.code, List.mem_range.mpr hin, ?_⟩
      rw [Lit.ofCode_code]
      rfl
    · rw [Lit.neg_neg]
      exact ⟨hlt, rfl, rfl⟩

/-- What is exported is stored. -/
theorem has_of_exported {c : Clause × Bool} (h : c ∈ s.exported) : s.Has c.1 := by
  rcases List.mem_append.mp h with h | h
  · rcases List.mem_append.mp h with h | h
    · obtain ⟨l, hl, rfl⟩ := List.mem_map.mp h
      exact .unit hl
    · obtain ⟨a, b, hc, -, hb⟩ := mem_binaries.mp h
      rw [hc, ← Lit.neg_neg a]
      exact .binary (mem_implied_iff.mpr ⟨_, hb⟩)
  · obtain ⟨d, hd, rfl⟩ := List.mem_map.mp h
    exact .long hd

/-- A binary clause is listed with both its literals, and exported once. -/
theorem exported_pair {a b : Lit} {f g : Bool} (hne : b.var ≠ a.var)
    (hab : b ∈ s.listed f a.neg) (hba : a ∈ s.listed g b.neg) :
    ∃ d, ((d, f) ∈ s.exported ∨ (d, g) ∈ s.exported) ∧ d.Perm [a, b] := by
  have hcode : a.code ≠ b.code := fun h => hne (Lit.code_inj.mp h ▸ rfl)
  have hexported : ∀ {c : Clause × Bool}, c ∈ s.binaries → c ∈ s.exported := fun h =>
    List.mem_append_left _ (List.mem_append_right _ h)
  rcases Nat.lt_or_gt_of_ne hcode with hlt | hlt
  · exact ⟨[a, b], Or.inl (hexported (mem_binaries.mpr ⟨a, b, rfl, hlt, hab⟩)), .refl _⟩
  · exact ⟨[b, a], Or.inr (hexported (mem_binaries.mpr ⟨b, a, rfl, hlt, hba⟩)), .swap _ _ _⟩

theorem exported_unit {l : Lit} (h : l ∈ s.units.toList) : ([l], false) ∈ s.exported :=
  List.mem_append_left _ (List.mem_append_left _ (List.mem_map.mpr ⟨l, h, rfl⟩))

theorem exported_long {c : LongClause} (h : c ∈ s.long.toList) : (c.lits, c.learnt) ∈ s.exported :=
  List.mem_append_right _ (List.mem_map.mpr ⟨c, h, rfl⟩)

/-- **Every stored clause is exported**, up to the order of its literals. -/
theorem Wf.exported_of_has (h : s.Wf count) {c : Clause} (hc : s.Has c) :
    ∃ d ∈ s.exported, d.1.Perm c := by
  cases hc with
  | unit hl => exact ⟨_, exported_unit hl, .refl _⟩
  | @binary l b hb =>
    obtain ⟨f, hf⟩ := mem_implied_iff.mp hb
    obtain ⟨g, hg⟩ := mem_implied_iff.mp (h.contraposed l b hb)
    obtain ⟨d, hd | hd, hperm⟩ := exported_pair (a := l.neg) (h.distinct l b hb)
      (by rw [Lit.neg_neg]; exact hf) hg
    · exact ⟨_, hd, hperm⟩
    · exact ⟨_, hd, hperm⟩
  | long hc => exact ⟨_, exported_long hc, .refl _⟩

/-- A given clause is exported as a given one. -/
theorem Wf.exported_of_given (h : s.Wf count) {c : Clause} (hc : s.Given c) :
    ∃ d, (d, false) ∈ s.exported ∧ d.Perm c := by
  rcases hc with ⟨id, hid, hlearnt, rfl⟩ | ⟨a, b, hb, rfl⟩
  · exact ⟨_, hlearnt ▸ exported_long (clause_mem hid), .refl _⟩
  · obtain ⟨d, hd, hperm⟩ := exported_pair (a := a) (f := false) (g := false)
      (h.distinct a.neg b (mem_implied_of_partner hb)) hb (h.symmetric a b hb)
    exact ⟨d, hd.elim id id, hperm⟩

end ClauseStore

namespace Solver

variable {F G : List Clause} {s s' : Solver} {e : Equivalences}

/-! ## What is stored -/

/-- **A valuation satisfies a state** if all stored clauses, learnt ones
included, and all literals of the trail hold. -/
structure Satisfied (s : Solver) (ν : Valuation) : Prop where
  stored : ∀ c, s.store.Has c → c.holds ν = true
  trail : ∀ l ∈ s.trail.lits.toList, l.holds ν = true

/-- **A variable that occurs nowhere**: in no stored clause, and in no list of
the membership index. -/
structure Absent (s : Solver) (v : Var) : Prop where
  clauses : ∀ c, s.store.Has c → ∀ l ∈ c, l.var ≠ v
  index : s.membership.Free v

theorem Inserted.keepsStored {c : Clause} {learnt : Bool} (h : Inserted c learnt s s') :
    ∀ d, s.store.Has d → s'.store.Has d := by
  rcases h.stored with ⟨-, heq⟩ | hgains
  · rw [heq]
    exact fun _ hd => hd
  · exact hgains.keeps

theorem Inserted.absent {c : Clause} {learnt : Bool} {v : Var} (h : Inserted c learnt s s')
    (hc : ∀ l ∈ c, l.var ≠ v) (hv : s.Absent v) : s'.Absent v where
  clauses := by
    intro d hd
    rcases h.stored with ⟨-, heq⟩ | hgains
    · exact hv.clauses d (heq ▸ hd)
    · rcases hgains.only d hd with hd | hperm
      · exact hv.clauses d hd
      · exact fun l hl => hc l (hperm.mem_iff.mp hl)
  index := h.free v hv.index hc

/-- Propagation neither drops nor adds a clause. -/
theorem Grown.satisfied (h : Grown s s') {ν : Valuation} (hν : Satisfied s' ν) : Satisfied s ν where
  stored := by
    intro c hc
    obtain ⟨d, hd, hperm⟩ := h.store.has hc
    rw [← Clause.holds_perm hperm]
    exact hν.stored d hd
  trail := fun l hl => hν.trail l (h.lits.subset hl)

theorem Grown.absent (h : Grown s s') {v : Var} (hv : s.Absent v) : s'.Absent v where
  clauses := by
    intro c hc l hl
    obtain ⟨d, hd, hperm⟩ := h.store.symm.has hc
    exact hv.clauses d hd l (hperm.mem_iff.mpr hl)
  index := (congrArg Solver.membership h.others) ▸ hv.index

/-! ## Storing anew -/

/-- **What storing replaced clauses again gives.** -/
structure Reinserted (rep : Lit → Lit) (cs : List (Clause × Bool)) (s s' : Solver) : Prop where
  others : { s with store := s'.store, watches := s'.watches, membership := s'.membership,
                    trail := s'.trail, conflicted := s'.conflicted } = s'
  given : s.store.KeepsGiven s'.store
  keeps : ∀ d, s.store.Has d → s'.store.Has d
  starts : s'.trail.starts = s.trail.starts
  lits : s.trail.lits.toList <+: s'.trail.lits.toList
  conflicted : s.conflicted = true → s'.conflicted = true
  /-- What the given clauses meant, they mean again. -/
  holds : s'.conflicted = false → ∀ ν, GivenHold s' ν → ∀ c ∈ cs, c.2 = false →
    Clause.holds ν (c.1.map rep) = true
  /-- So do all clauses together. -/
  stored : s'.conflicted = false → ∀ ν, (∀ d, s'.store.Has d → d.holds ν = true) → ∀ c ∈ cs,
    Clause.holds ν (c.1.map rep) = true
  /-- And the given ones are stored as given. -/
  filed : s'.conflicted = false → ∀ ν, s'.store.GivenTrue ν → ∀ c ∈ cs, c.2 = false →
    Clause.holds ν (c.1.map rep) = true
  absent : ∀ v, (∀ l, (rep l).var ≠ v) → s.Absent v → s'.Absent v

/-- At level 0 the root facts are all that is assigned. -/
theorem Reinserted.roots {rep : Lit → Lit} {cs : List (Clause × Bool)}
    (h : Reinserted rep cs s s') (h0 : s.level = 0) :
    ∀ l ∈ s.trail.roots, l ∈ s'.trail.roots := by
  have h0' : s'.trail.level = 0 := (congrArg Array.size h.starts).trans h0
  rw [Trail.roots_of_level_zero h0, Trail.roots_of_level_zero h0']
  exact fun l hl => h.lits.subset hl

/-- A clause that becomes a tautology is left out. -/
theorem Reinserted.skip {c : Clause} {learnt : Bool} {rep : Lit → Lit}
    {cs : List (Clause × Bool)} (htaut : Clause.Tautology (c.map rep))
    (h : Reinserted rep cs s s') : Reinserted rep ((c, learnt) :: cs) s s' where
  others := h.others
  given := h.given
  keeps := h.keeps
  starts := h.starts
  lits := h.lits
  conflicted := h.conflicted
  holds := fun hconf ν hν => List.forall_mem_cons.mpr
    ⟨fun _ => htaut.holds ν, h.holds hconf ν hν⟩
  stored := fun hconf ν hν => List.forall_mem_cons.mpr ⟨htaut.holds ν, h.stored hconf ν hν⟩
  filed := fun hconf ν hν => List.forall_mem_cons.mpr
    ⟨fun _ => htaut.holds ν, h.filed hconf ν hν⟩
  absent := h.absent

/-- A clause that does not is inserted before the others. -/
theorem Reinserted.step {c : Clause} {learnt : Bool} {sorted : Clause} {rep : Lit → Lit}
    {cs : List (Clause × Bool)} {s₁ : Solver} (hsorted : Clause.normalize (c.map rep) = some sorted)
    (h₁ : Inserted sorted learnt s s₁) (h0 : s₁.level = 0) (h : Reinserted rep cs s₁ s') :
    Reinserted rep ((c, learnt) :: cs) s s' := by
  have hconf₁ : s'.conflicted = false → s₁.conflicted = false := fun hconf =>
    Bool.eq_false_iff.mpr fun hc => by
      rw [h.conflicted hc] at hconf
      cases hconf
  exact {
    others := by rw [← h.others, ← h₁.others]
    given := h₁.given.trans h.given
    keeps := fun d hd => h.keeps d (h₁.keepsStored d hd)
    starts := h.starts.trans h₁.starts
    lits := h₁.lits.trans h.lits
    conflicted := fun hc => h.conflicted (h₁.conflicted hc)
    holds := by
      intro hconf ν hν d hd hgiven
      rcases List.mem_cons.mp hd with rfl | hd
      · have hholds := (h₁.kept hgiven (hconf₁ hconf)).holds (hν.of_keeps h.given (h.roots h0))
        rwa [Clause.holds_of_normalize hsorted] at hholds
      · exact h.holds hconf ν hν d hd hgiven
    stored := by
      intro hconf ν hν d hd
      rcases List.mem_cons.mp hd with rfl | hd
      · rcases h₁.stored with ⟨hc, -⟩ | hgains
        · rw [hconf₁ hconf] at hc
          cases hc
        · obtain ⟨d, hd, hperm⟩ := hgains.gained
          have hholds := hν d (h.keeps d hd)
          rwa [Clause.holds_perm hperm, Clause.holds_of_normalize hsorted] at hholds
      · exact h.stored hconf ν hν d hd
    filed := by
      intro hconf ν hν d hd hgiven
      rcases List.mem_cons.mp hd with rfl | hd
      · have hholds := (h₁.filed hgiven (hconf₁ hconf)).holds (h.given.givenTrue hν)
        rwa [Clause.holds_of_normalize hsorted] at hholds
      · exact h.filed hconf ν hν d hd hgiven
    absent := by
      intro v hv hs
      refine h.absent v hv (h₁.absent (fun l hl => ?_) hs)
      obtain ⟨m, -, rfl⟩ := List.mem_map.mp ((Clause.mem_of_normalize hsorted l).mp hl)
      exact hv m }

/-- A literal has the value that its root has. -/
theorem holds_of_root (e : Equivalences) (ν : Valuation) (l : Lit) :
    (e.root l).holds ν = l.holds fun v => (e.root v.pos).holds ν := by
  rw [e.root_eq_flipUnless l, Lit.holds_flipUnless]
  rfl

/-- **The clauses `G` say of the roots what `F` says**, over `count`
variables. -/
structure Carries (e : Equivalences) (count : Nat) (F G : List Clause) : Prop where
  entails : ∀ c, (∀ l ∈ c, l.var.index < count) → Entails F c → Entails G (c.map e.root)
  refuted : ¬ Satisfiable F → ¬ Satisfiable G

/-- Clauses that respect the classes say the same of the roots. -/
theorem Carries.of_respects {count : Nat} (hsize : e.parent.size = count)
    (hresp : ∀ ν, allHold ν F = true → e.Respects ν) : Carries e count F F where
  entails := by
    intro c hin hc ν hν
    rw [Clause.holds_map fun l hl => hresp ν hν l (hsize ▸ hin l hl)]
    exact hc ν hν
  refuted := id

/-- So do the clauses of roots. -/
theorem Carries.map_root (e : Equivalences) (count : Nat) (F : List Clause) :
    Carries e count F (F.map fun c => c.map e.root) := by
  have hback : ∀ ν, allHold ν (F.map fun c => c.map e.root) = true →
      allHold (fun v => (e.root v.pos).holds ν) F = true := by
    refine fun ν hν => allHold_iff.mpr fun c hc => ?_
    rw [← Clause.holds_map fun l _ => holds_of_root e ν l]
    exact allHold_iff.mp hν _ (List.mem_map_of_mem hc)
  refine ⟨fun c _ hc ν hν => ?_, fun hno ⟨ν, hν⟩ => hno ⟨_, hback ν hν⟩⟩
  rw [Clause.holds_map fun l _ => holds_of_root e ν l]
  exact hc _ (hback ν hν)

/-- **Clauses are stored again with replaced literals.** -/
theorem insertReplaced_spec (cs : List (Clause × Bool)) {s : Solver} {e : Equivalences}
    (hs : Sound F s) (h0 : s.level = 0) (hsize : e.parent.size = s.varCount)
    (hcs : ∀ c ∈ cs, Entails F (c.1.map e.root) ∧ ∀ l ∈ c.1, l.var.index < s.varCount) :
    Sound F (s.insertReplaced e cs) ∧ Reinserted e.root cs s (s.insertReplaced e cs) := by
  induction cs generalizing s e with
  | nil =>
    exact ⟨hs, rfl, .refl _, fun _ hd => hd, rfl, List.prefix_refl _, id,
      fun _ _ _ c hc => absurd hc List.not_mem_nil, fun _ _ _ c hc => absurd hc List.not_mem_nil,
      fun _ _ _ c hc => absurd hc List.not_mem_nil, fun _ _ h => h⟩
  | cons clause rest ih =>
    obtain ⟨c, learnt⟩ := clause
    obtain ⟨hent, hin⟩ := hcs _ List.mem_cons_self
    obtain ⟨hfound, hsize', hroot⟩ := Equivalences.findAll_spec c (e := e) fun l hl =>
      hsize ▸ hin l hl
    have hroots : (e.findAll c).2.root = e.root := funext hroot
    rw [← hroots] at hent hcs
    rw [← hroots]
    unfold insertReplaced
    simp only
    rw [hfound, ← hroots]
    cases hsorted : Clause.normalize (c.map (e.findAll c).2.root) with
    | none =>
      obtain ⟨hs', hre⟩ := ih hs h0 (hsize'.trans hsize)
        fun d hd => hcs d (List.mem_cons_of_mem _ hd)
      exact ⟨hs', .skip (Clause.tautology_of_normalize_none hsorted) hre⟩
    | some sorted =>
      have hsorted' := hsorted
      rw [hroots] at hsorted'
      obtain ⟨hs₁, h₁⟩ : Sound F (s.insertClause sorted learnt)
          ∧ Inserted sorted learnt s (s.insertClause sorted learnt) := insertClause_spec hs h0
        (fun ν hν => by
          rw [Clause.holds_of_normalize hsorted]
          exact hent ν hν)
        (Clause.nodup_vars_of_normalize hsorted')
        (fun l hl => by
          obtain ⟨m, hm, rfl⟩ := List.mem_map.mp ((Clause.mem_of_normalize hsorted' l).mp hl)
          exact Nat.lt_of_le_of_lt (e.index_root_le m) (hin m hm))
      have h0₁ : (s.insertClause sorted learnt).level = 0 :=
        (congrArg Array.size h₁.starts).trans h0
      have hcount : (s.insertClause sorted learnt).varCount = s.varCount :=
        (congrArg Solver.varCount h₁.others).symm
      obtain ⟨hs', hre⟩ := ih hs₁ h0₁ ((hsize'.trans hsize).trans hcount.symm)
        fun d hd => by rw [hcount]; exact hcs d (List.mem_cons_of_mem _ hd)
      exact ⟨hs', .step hsorted h₁ h0₁ hre⟩

/-- Every reason of some literals is forgotten. -/
theorem foldl_set_decision (ls : List Lit) (t : VarTable Reason) :
    (ls.foldl (fun t (l : Lit) => t.set l.var .decision) t).size = t.size
      ∧ ∀ v : Var, v.index < t.size → (∃ l ∈ ls, l.var = v) →
        (ls.foldl (fun t (l : Lit) => t.set l.var .decision) t)[v] = .decision := by
  have hvars : ls.foldl (fun t (l : Lit) => t.set l.var .decision) t
      = (ls.map Lit.var).foldl (fun t v => t.set v .decision) t := by rw [List.foldl_map]
  rw [hvars]
  refine ⟨VarTable.size_foldl_set (fun _ _ => .decision) _ t, fun v hv hmem => ?_⟩
  rw [VarTable.get_foldl_set (fun _ => Reason.decision), if_pos ⟨List.mem_map.mpr hmem, hv⟩]

/-- The solver without any clause, and without reasons. -/
def emptied (s : Solver) : Solver :=
  { s with
    store := ClauseStore.empty.resize s.varCount
    watches := LitTable.sized s.varCount
    membership := Membership.empty.resize s.varCount
    trail := { s.trail with
      reasons := s.trail.lits.foldl (fun t l => t.set l.var .decision) s.trail.reasons } }

theorem rebuild_eq (s : Solver) (e : Equivalences) :
    s.rebuild e = s.emptied.insertReplaced e s.store.exported := rfl

theorem blank_emptied (s : Solver) : s.emptied.store.Blank s.varCount where
  size := LitTable.size_resize _ (Nat.zero_le _)
  implications := by
    intro l
    show (LitTable.resize _ _)[l] = _
    rw [LitTable.get_resize _ (Nat.zero_le _), LitTable.get_of_size_le _ (Nat.zero_le _)]
  units := rfl
  long := rfl

/-- At level 0 nothing needs a reason, so the root facts may rest on other
clauses. -/
theorem Sound.emptied (hs : Sound F s) (h0 : s.level = 0)
    (hroots : ∀ l ∈ s.trail.lits.toList, Entails G [l])
    (hunsat : ¬ Satisfiable F → ¬ Satisfiable G) : Sound G s.emptied := by
  have hreasons : s.emptied.trail.reasons
      = s.trail.lits.toList.foldl (fun t (l : Lit) => t.set l.var .decision) s.trail.reasons :=
    (Array.foldl_toList _).symm
  obtain ⟨hsize, hdecision⟩ := foldl_set_decision s.trail.lits.toList s.trail.reasons
  rw [← hreasons] at hsize hdecision
  exact {
    trail := { hs.trail with sizeReasons := hsize.trans hs.trail.sizeReasons }
    store := (blank_emptied s).wf
    watches := (blank_emptied s).watchesExactly (LitTable.size_sized _) (LitTable.get_sized _)
    listed := listed_empty (blank_emptied s).long _
    entailed := (blank_emptied s).entailedBy G
    justified := by
      intro pre l post hsplit
      have hmem : l ∈ s.trail.lits.toList := by
        rw [show s.trail.lits.toList = pre ++ l :: post from hsplit]
        simp
      have hlevel : s.trail.levelOf l.var = 0 := Nat.le_zero.mp (h0 ▸ hs.levelOf_le_level hmem)
      have hreason : s.emptied.trail.reasonOf l.var = .decision :=
        hdecision l.var (hs.trail.sizeReasons ▸ hs.trail.inRange l hmem) ⟨l, hmem, rfl⟩
      have hnone : s.emptied.trail.starts.toList = [] :=
        List.eq_nil_of_length_eq_zero (Array.length_toList.trans h0)
      exact ⟨Or.inl hlevel, fun _ => hroots l hmem, hreason ▸ Or.inl hlevel,
        fun hstart => absurd (hnone ▸ hstart) List.not_mem_nil⟩
    pending := hs.pending
    refuted := fun hc => hunsat (hs.refuted hc) }

/-- **What storing all clauses anew gives**: the valuation of the roots
satisfies the solver before. -/
structure Rebuilt (e : Equivalences) (s s' : Solver) : Prop where
  level : s'.level = 0
  lits : s.trail.lits.toList <+: s'.trail.lits.toList
  conflicted : s'.conflicted = false → s.conflicted = false
  given : s'.conflicted = false → ∀ ν, GivenHold s' ν →
    GivenHold s fun v => (e.root v.pos).holds ν
  satisfied : s'.conflicted = false → ∀ ν, Satisfied s' ν →
    Satisfied s fun v => (e.root v.pos).holds ν
  filed : s'.conflicted = false → ∀ ν, s'.store.GivenTrue ν →
    s.store.GivenTrue fun v => (e.root v.pos).holds ν
  absent : ∀ v, (∀ l, (e.root l).var ≠ v) → s'.Absent v

theorem rebuild_spec (hs : Sound F s) (h0 : s.level = 0) (hsize : e.parent.size = s.varCount)
    (hfixed : ∀ l ∈ s.trail.lits.toList, e.root l = l) (hG : Carries e s.varCount F G) :
    Sound G (s.rebuild e) ∧ Rebuilt e s (s.rebuild e) := by
  have h0' : s.emptied.level = 0 := h0
  have hroots : ∀ l ∈ s.trail.lits.toList, Entails G [l] := by
    intro l hl
    have hent := hG.entails [l] (fun m hm => List.mem_singleton.mp hm ▸ hs.trail.inRange l hl)
      (hs.entails_of_level_zero h0 hl)
    rwa [List.map_singleton, hfixed l hl] at hent
  obtain ⟨hs', hre⟩ := insertReplaced_spec s.store.exported (hs.emptied h0 hroots hG.refuted) h0'
    hsize fun c hc => by
      have hin := hs.store.has_inRange (ClauseStore.has_of_exported hc)
      exact ⟨hG.entails _ hin (hs.entailed.has (ClauseStore.has_of_exported hc)), hin⟩
  rw [← rebuild_eq] at hs' hre
  refine ⟨hs', {
    level := (congrArg Array.size hre.starts).trans h0
    lits := hre.lits
    conflicted := fun hconf => Bool.eq_false_iff.mpr fun hc => ?_
    given := fun hconf ν hν => ⟨fun l hl => ?_, fun c hc => ?_⟩
    satisfied := fun hconf ν hν => ⟨fun c hc => ?_, fun l hl => ?_⟩
    filed := fun hconf ν hν => ⟨fun c hc => ?_, fun l hl => ?_⟩
    absent := fun v hv => hre.absent v hv ⟨fun c hc => ?_, Membership.free_empty _ v⟩ }⟩
  · rw [hre.conflicted hc] at hconf
    cases hconf
  · rw [← holds_of_root, hfixed l (List.mem_of_mem_take hl)]
    exact hν.roots l (hre.roots h0' l hl)
  · obtain ⟨d, hd, hperm⟩ := hs.store.exported_of_given hc
    rw [← Clause.holds_perm hperm, ← Clause.holds_map fun l _ => holds_of_root e ν l]
    exact hre.holds hconf ν hν _ hd rfl
  · obtain ⟨d, hd, hperm⟩ := hs.store.exported_of_has hc
    rw [← Clause.holds_perm hperm, ← Clause.holds_map fun l _ => holds_of_root e ν l]
    exact hre.stored hconf ν hν.stored _ hd
  · rw [← holds_of_root, hfixed l hl]
    exact hν.trail l (hre.lits.subset hl)
  · obtain ⟨d, hd, hperm⟩ := hs.store.exported_of_given hc
    rw [← Clause.holds_perm hperm, ← Clause.holds_map fun l _ => holds_of_root e ν l]
    exact hre.filed hconf ν hν _ hd rfl
  · rw [← holds_of_root]
    exact Clause.holds_singleton.mp
      (hre.filed hconf ν hν ([l], false) (ClauseStore.exported_unit hl) rfl)
  · exact absurd hc (blank_emptied s).not_has

/-- Storing clauses anew concerns neither the scope nor the variables. -/
theorem insertReplaced_scope (cs : List (Clause × Bool)) (s : Solver) (e : Equivalences) :
    (s.insertReplaced e cs).scope = s.scope ∧ (s.insertReplaced e cs).varCount = s.varCount := by
  induction cs generalizing s e with
  | nil => exact ⟨rfl, rfl⟩
  | cons clause rest ih =>
    unfold insertReplaced
    simp only
    split
    · exact ih s _
    · have hothers := insertClause_others s
      exact ⟨(ih _ _).1.trans (congrArg Solver.scope (hothers _ _)).symm,
        (ih _ _).2.trans (congrArg Solver.varCount (hothers _ _)).symm⟩

/-- The solver with all clauses stored anew, before they are propagated. -/
def restarted (s : Solver) (e : Equivalences) (sub : Substitution) : Solver :=
  let s := { s with projection := sub.replaced.foldl moveProjection s.projection }
  let s := s.rebuild e
  { s with order := VarOrder.empty.resize s.varCount, activity := s.activity.reset }

theorem restarted_carries (hs : Sound F s) (h0 : s.level = 0) (he : Classes s e)
    (hG : Carries e s.varCount F G) (sub : Substitution) :
    Sound G (s.restarted e sub) ∧ Rebuilt e s (s.restarted e sub) := by
  obtain ⟨hs', h⟩ := rebuild_spec
    (s := { s with projection := sub.replaced.foldl moveProjection s.projection }) hs h0 he.size
    (fun l hl => he.fixed (hs.trail.inRange l hl) (hs.trail.isAssigned_iff.mpr ⟨l, hl, rfl⟩)) hG
  refine ⟨hs', h.level, h.lits, h.conflicted, fun hconf ν hν => ?_, fun hconf ν hν => ?_,
    fun hconf ν hν => h.filed hconf ν hν, fun v hv => ?_⟩
  · have hν := h.given hconf ν ⟨hν.roots, hν.given⟩
    exact ⟨hν.roots, hν.given⟩
  · have hν := h.satisfied hconf ν ⟨hν.stored, hν.trail⟩
    exact ⟨hν.stored, hν.trail⟩
  · have hv := h.absent v hv
    exact ⟨hv.clauses, hv.index⟩

theorem restarted_spec (hs : Sound F s) (h0 : s.level = 0) (he : Classes s e)
    (sub : Substitution) :
    Sound F (s.restarted e sub) ∧ Rebuilt e s (s.restarted e sub) :=
  restarted_carries hs h0 he (.of_respects he.size fun ν hν =>
    he.respects fun _ hc => hs.entailed.given hc ν hν) sub

/-! ## Propagating again -/

/-- **What propagating everything again at level 0 gives.** -/
structure Repropagated (F : List Clause) (r : Option Conflict) (s s' : Solver) : Prop where
  sound : Sound F s'
  level : s'.level = 0
  lits : s.trail.lits.toList <+: s'.trail.lits.toList
  conflicted : s'.conflicted = s.conflicted
  refuted : r ≠ none → ¬ Satisfiable F
  given : ∀ ν, GivenHold s' ν → GivenHold s ν
  satisfied : ∀ ν, Satisfied s' ν → Satisfied s ν
  keeps : s.store.KeepsGiven s'.store
  absent : ∀ v, s.Absent v → s'.Absent v
  settled : r = none → Settled [] s'.store s'.trail.lits.toList

theorem propagateFrom_spec {r : Option Conflict} (hs : Sound F s) (h0 : s.level = 0)
    (hp : s.propagateFrom 0 = (r, s')) : Repropagated F r s s' := by
  have hs₀ : Sound F { s with trail := s.trail.rewind 0 } := hs.rewind 0
  obtain ⟨hdrawn, -⟩ := propagate_spec hs₀ hp
  have hlevel : s'.level = 0 := hdrawn.grown.level.trans h0
  have hw := (Within.refl hs₀).grown hs₀ hdrawn.grown
  refine {
    sound := hdrawn.sound
    level := hlevel
    lits := hdrawn.grown.lits
    conflicted := (congrArg Solver.conflicted hdrawn.grown.others).symm
    refuted := fun hr => ?_
    given := fun ν hν => ?_
    satisfied := fun ν hν => ?_
    keeps := hdrawn.grown.store.keepsGiven
    absent := fun v hv => hdrawn.grown.absent ⟨hv.clauses, hv.index⟩
    settled := fun hr => ?_ }
  · obtain ⟨c, rfl⟩ := Option.ne_none_iff_exists'.mp hr
    have href := hdrawn.conflict c rfl
    exact hdrawn.sound.not_satisfiable hlevel href.entailed href.isFalse
  · have hgiven := hν.of_keeps hw.given hw.roots
    exact ⟨hgiven.roots, hgiven.given⟩
  · have hsat := hdrawn.grown.satisfied hν
    exact ⟨hsat.stored, hsat.trail⟩
  · exact propagate_settled_all hs₀ (hr ▸ hp) (Nat.le_of_eq (Nat.min_zero _)) (Nat.zero_le _)
      (Settled.nil _ _)

/-! ## The whole substitution -/

/-- **The substitution of the classes found**: it replaces every variable that
is not its own root. -/
structure Replaces (s : Solver) (e : Equivalences) (sub : Substitution) : Prop where
  classes : Classes s e
  complete : ∀ a b, s.Equivalent a b → e.root a = e.root b
  replaced : sub.replaced = ((Var.range s.varCount).filter fun v => (e.root v.pos).var ≠ v).map
    fun v => (v, e.root v.pos)

/-- **How substitution can end.** -/
inductive Substitutes (s : Solver) : Substitution → Solver → Prop
  | conflicted (h : s.conflicted = true) : Substitutes s {} s
  /-- A literal is equivalent to its opposite. -/
  | opposed (h : s.NoneGiven) : Substitutes s {} s.setConflicted
  /-- No two literals are equivalent. -/
  | unchanged {e : Equivalences} (h : s.Replaces e {}) : Substitutes s {} s
  | refuted {e : Equivalences} {sub : Substitution} {c : Conflict} {s' : Solver}
      (h : s.Replaces e sub) (hp : (s.restarted e sub).propagateFrom 0 = (some c, s')) :
      Substitutes s sub s'.setConflicted
  | rebuilt {e : Equivalences} {sub : Substitution} {s' : Solver} (h : s.Replaces e sub)
      (hp : (s.restarted e sub).propagateFrom 0 = (none, s')) : Substitutes s sub s'

/-- At level 0 substitution never fails. -/
theorem exists_substitute (hs : Sound F s) (h0 : s.level = 0) :
    ∃ sub s', s.substitute = .ok (sub, s') ∧ s.Substitutes sub s' := by
  unfold substitute
  rw [if_neg (by simpa using h0)]
  split
  · rename_i hconf
    exact ⟨_, _, rfl, .conflicted hconf⟩
  · have hfound := equivalences?_spec hs
    split
    · rename_i hnone
      rw [hnone] at hfound
      exact ⟨_, _, rfl, .opposed hfound⟩
    · rename_i e hsome
      rw [hsome] at hfound
      obtain ⟨hclasses, hcomplete⟩ := hfound
      obtain ⟨hreplaced, hsize, hroot⟩ := replacedVars_spec (e := e) (Var.range s.varCount)
        fun v hv => hclasses.size ▸ Var.mem_range.mp hv
      have hall : s.Replaces (replacedVars e (Var.range s.varCount)).2
          ⟨(replacedVars e (Var.range s.varCount)).1⟩ :=
        ⟨hclasses.of_roots hsize hroot,
          fun a b hab => (hroot a).trans ((hcomplete a b hab).trans (hroot b).symm),
          hreplaced.trans (by simp only [hroot])⟩
      split
      · rename_i heq
        rw [heq] at hall
        exact ⟨_, _, rfl, .unchanged hall⟩
      · rename_i replaced e' _ heq
        rw [heq] at hall
        simp only
        split
        · rename_i hp
          exact ⟨_, _, rfl, .refuted hall hp⟩
        · rename_i hp
          exact ⟨_, _, rfl, .rebuilt hall hp⟩

theorem substitutes_of_ok {sub : Substitution} (hs : Sound F s)
    (h : s.substitute = .ok (sub, s')) : s.level = 0 ∧ s.Substitutes sub s' := by
  have h0 : s.level = 0 := by
    by_contra h0
    unfold substitute at h
    rw [if_pos h0] at h
    cases h
  obtain ⟨sub', s₁, hok, hsub⟩ := exists_substitute hs h0
  rw [h] at hok
  obtain ⟨rfl, rfl⟩ := Prod.mk.inj (Except.ok.inj hok)
  exact ⟨h0, hsub⟩

/-- **What a change of the clauses keeps**, at level 0: unless it refutes the
formula, the solver had a valuation if it has one now, and is settled if it
was. -/
structure Reduces (s s' : Solver) : Prop where
  level : s'.level = 0
  conflicted : s'.conflicted = false → s.conflicted = false
  valuation : s'.conflicted = false → (∃ ν, GivenHold s' ν) → ∃ ν, GivenHold s ν
  settled : s'.conflicted = false → SettledTo [] s.trail.head s → SettledTo [] s'.trail.head s'

theorem Reduces.refl (h0 : s.level = 0) : Reduces s s := ⟨h0, id, fun _ h => h, fun _ h => h⟩

theorem Reduces.of_conflicted (h0 : s'.level = 0) (hc : s'.conflicted = true) : Reduces s s' where
  level := h0
  conflicted := fun h => absurd (hc ▸ h) (by simp)
  valuation := fun h => absurd (hc ▸ h) (by simp)
  settled := fun h => absurd (hc ▸ h) (by simp)

/-- **Substitution of equivalent literals** keeps the invariant, and the
solver has a valuation afterwards only if it had one before. -/
theorem substitute_spec {sub : Substitution} (hs : Sound F s)
    (h : s.substitute = .ok (sub, s')) : Sound F s' ∧ Reduces s s' := by
  obtain ⟨h0, hsub⟩ := substitutes_of_ok hs h
  cases hsub with
  | conflicted => exact ⟨hs, .refl h0⟩
  | opposed hnone =>
    refine ⟨hs.refute ?_, .of_conflicted h0 rfl⟩
    exact Entails.not_satisfiable fun ν hν => hnone ν fun c hc => hs.entailed.given hc ν hν
  | unchanged => exact ⟨hs, .refl h0⟩
  | refuted hrep hp =>
    obtain ⟨hs₁, h₁⟩ := restarted_spec hs h0 hrep.classes _
    have h₂ := propagateFrom_spec hs₁ h₁.level hp
    exact ⟨h₂.sound.refute (h₂.refuted (by simp)), .of_conflicted h₂.level rfl⟩
  | rebuilt hrep hp =>
    obtain ⟨hs₁, h₁⟩ := restarted_spec hs h0 hrep.classes _
    have h₂ := propagateFrom_spec hs₁ h₁.level hp
    refine ⟨h₂.sound, h₂.level, fun hc => h₁.conflicted (h₂.conflicted ▸ hc), ?_, fun _ _ => ?_⟩
    · rintro hc ⟨ν, hν⟩
      exact ⟨_, h₁.given (h₂.conflicted ▸ hc) ν (h₂.given ν hν)⟩
    · exact ⟨Nat.le_refl _, h₂.sound.trail.headLe,
        (h₂.settled rfl).mono fun l hl => List.mem_of_mem_take hl⟩

/-- Substitution takes place at level 0 and takes nothing from the trail. -/
theorem substitute_keeps_lits {sub : Substitution} (hs : Sound F s)
    (h : s.substitute = .ok (sub, s')) :
    s.level = 0 ∧ s'.level = 0 ∧ s.trail.lits.toList <+: s'.trail.lits.toList := by
  obtain ⟨h0, hsub⟩ := substitutes_of_ok hs h
  refine ⟨h0, ?_⟩
  cases hsub with
  | conflicted => exact ⟨h0, List.prefix_refl _⟩
  | opposed => exact ⟨h0, List.prefix_refl _⟩
  | unchanged => exact ⟨h0, List.prefix_refl _⟩
  | refuted hrep hp =>
    obtain ⟨hs₁, h₁⟩ := restarted_spec hs h0 hrep.classes _
    have h₂ := propagateFrom_spec hs₁ h₁.level hp
    exact ⟨h₂.level, h₁.lits.trans h₂.lits⟩
  | rebuilt hrep hp =>
    obtain ⟨hs₁, h₁⟩ := restarted_spec hs h0 hrep.classes _
    have h₂ := propagateFrom_spec hs₁ h₁.level hp
    exact ⟨h₂.level, h₁.lits.trans h₂.lits⟩

end Solver

end Cleave
