import Cleave.Proofs.Enclosure
import Cleave.Proofs.Solving

/-!
# Valuations of a region

Work on a component touches the clauses of a region only: those over the variables
of the component and over what was assigned before. Everything a propagation
assigns there, and every clause that is learnt there, follows from these clauses.
So a valuation that satisfies them, and the root facts, goes on satisfying what is
stored over the region later (`Solver.HoldsOn`), whether or not the other clauses
can be satisfied at all.

Not even all clauses of the region count. A conflict that nobody reacted to may have
left a clause falsified. If the head has passed the literals that did so, then the
clause has no watch left and takes part in nothing any more, be it propagation,
conflicts or reasons.

A model that a search finds is such a valuation: all clauses are settled then, the
learnt ones among them (`Solver.HoldsOn.of_settled`). A model of this kind is loyal
(`Solver.Loyal`): it has all literals that are found out later.
-/

namespace Cleave

/-- The valuation of a model. What the model leaves open is false. -/
def ModelPool.valuation (pool : ModelPool) (m : Model) : Valuation := fun v =>
  (pool.value m v).getD false

theorem ModelPool.valuation_of_value {pool : ModelPool} {m : Model} {v : Var} {p : Bool}
    (h : pool.value m v = some p) : pool.valuation m v = p := by
  simp [valuation, h]

theorem ModelPool.Extends.valuation {pool pool' : ModelPool} (h : pool.Extends pool') {m : Model}
    (hm : m.buffer < pool.buffers.size) : pool'.valuation m = pool.valuation m := by
  funext v
  unfold ModelPool.valuation
  rw [h.value hm]

/-- **What the head has passed.** -/
abbrev Trail.passed (t : Trail) : List Lit := t.lits.toList.take t.head

namespace ClauseStore

variable {store : ClauseStore} {R : Var → Prop} {ν : Valuation} {done : List Lit}

/-- **A valuation satisfies the clauses over a region** that the literals `done` leave
a watch. -/
def SatisfiedOn (R : Var → Prop) (done : List Lit) (store : ClauseStore) (ν : Valuation) : Prop :=
  ∀ d, store.Unspent done d → (∀ l ∈ d, R l.var) → Clause.holds ν d = true

theorem SatisfiedOn.binary (h : store.SatisfiedOn R done ν) {a d : Lit} (hd : d ∈ store.implied a)
    (hleft : ¬ (a ∈ done ∧ d.neg ∈ done)) (ha : R a.var) (hR : R d.var) :
    a.neg.holds ν = true ∨ d.holds ν = true :=
  Clause.holds_pair.mp (h _ (.binary hd hleft) (by simp [ha, hR]))

theorem SatisfiedOn.long (h : store.SatisfiedOn R done ν) {id : ClauseId}
    (hid : id < store.long.size) (hleft : ¬ store.Falsified done id)
    (hR : ∀ l ∈ store.lits id, R l.var) :
    Clause.holds ν (store.lits id) = true :=
  h _ (.long (ClauseStore.clause_mem hid) fun hf => hleft ⟨hid, hf⟩) hR

end ClauseStore

namespace Solver

variable {F : List Clause} {b s s' : Solver} {R : Var → Prop} {ν : Valuation} {k : Nat}
  {c : Component} {m : Model} {done : List Lit}

/-! ## What heeding the trail is worth -/

/-- **The trail holds up to its decisions**, by induction along it: each literal by
those before it. -/
theorem Sound.holds_of_forced (hs : Sound F s)
    (hforced : ∀ m ∈ s.trail.lits.toList, s.trail.reasonOf m.var ≠ .decision →
      m.holds ν = true ∨ ∃ p ∈ s.antecedents m.var, p.holds ν = true)
    (hdec : ∀ q d r, s.trail.lits.toList = q ++ d :: r → s.trail.reasonOf d.var = .decision →
      d.holds ν = true) : ∀ l ∈ s.trail.lits.toList, l.holds ν = true := by
  suffices hpre : ∀ pre post, s.trail.lits.toList = pre ++ post → ∀ l ∈ pre, l.holds ν = true from
    hpre _ [] (List.append_nil _).symm
  intro pre
  induction pre using List.reverseRecOn with
  | nil => simp
  | append_singleton pre l ih =>
    intro post hsplit m hm
    have hsplit : s.trail.lits.toList = pre ++ l :: post := by simpa using hsplit
    have hbefore := ih _ hsplit
    rcases List.mem_append.mp hm with hm | hm
    · exact hbefore m hm
    · obtain rfl := List.mem_singleton.mp hm
      by_cases hr : s.trail.reasonOf m.var = .decision
      · exact hdec pre m post hsplit hr
      · refine (hforced m (by simp [hsplit]) hr).resolve_right ?_
        rintro ⟨p, hp, hpν⟩
        rw [Lit.not_holds_of_neg (hbefore _ (hs.antecedents hsplit hr p hp))] at hpν
        cases hpν

/-- **What is assigned later at the same level** holds if what was assigned before
does. -/
theorem Heeds.holds_later (h : s'.Heeds ν) (hs : Sound F s) (hs' : Sound F s') (hw : Within s s')
    (hlevel : s'.level = s.level) (hold : ∀ l ∈ s.trail.lits.toList, l.holds ν = true) :
    ∀ l ∈ s'.trail.lits.toList, l.holds ν = true := by
  have hstarts : s'.trail.starts.toList = s.trail.starts.toList := by
    have hlen : s.trail.starts.toList.length = s.level := Array.length_toList
    have hlen' : s'.trail.starts.toList.length = s'.level := Array.length_toList
    exact (hw.starts.eq_of_length (by omega)).symm
  refine hs'.holds_of_forced h.forced fun q d r hsplit hr => ?_
  have hex := (hs'.justified q d r hsplit).explained
  rw [hr] at hex
  refine hex.elim (h.root d (by simp [hsplit])) fun hq => ?_
  -- the decisions are the old ones
  rw [hstarts] at hq
  have hlt : q.length < s.trail.lits.toList.length := by
    rw [Array.length_toList]
    exact hs.trail.startsLt _ hq
  obtain ⟨more, hmore⟩ := hw.lits
  have hget : s'.trail.lits.toList[q.length]? = some d := by simp [hsplit]
  rw [← hmore, List.getElem?_append_left hlt] at hget
  exact hold d (List.mem_of_getElem? hget)

/-! ## The clauses of a region -/

/-- **What forced a literal** of a trail over the region holds. The literal is watched
and true, so that its clause has a watch left. -/
theorem Sound.forced_of_satisfiedOn (hs : Sound F s) (h : s.store.SatisfiedOn R done ν)
    (hR : ∀ l ∈ s.trail.lits.toList, R l.var) (hdone : ∀ l ∈ done, l ∈ s.trail.lits.toList) :
    ∀ m ∈ s.trail.lits.toList, s.trail.reasonOf m.var ≠ .decision →
      m.holds ν = true ∨ ∃ p ∈ s.antecedents m.var, p.holds ν = true := by
  intro m hm hr
  have hno : m.neg ∉ done := fun hd => hs.trail.not_mem_neg hm (hdone _ hd)
  refine hs.forced hm hr (fun other ho hfalse => ?_) fun id hwatch hfalse => ?_
  · have hpair := h.binary ho (fun hd => hno hd.1) (hR m hm) (hR other.neg hfalse)
    rwa [Lit.neg_neg] at hpair
  · refine h.long hwatch.1 (fun hf => hno ((ClauseStore.falsified_iff.mp hf).2 m hwatch))
      fun l hl => ?_
    by_cases hlm : l = m
    · exact hlm ▸ hR m hm
    · exact hR l.neg (hfalse l hl hlm)

/-- A conflict that is news has a clause with a watch left. -/
theorem StoresConflict.unspent {c : Conflict} (h : s.StoresConflict c) (hfresh : s.Fresh done c) :
    s.store.Unspent done (s.conflictLits c) := by
  cases c with
  | binary x y =>
    have hpair := ClauseStore.Unspent.binary h fun hd => hfresh hd.1
    rwa [Lit.neg_neg] at hpair
  | long id =>
    obtain ⟨x, hx, hnew⟩ := hfresh
    refine .long (ClauseStore.clause_mem h) fun hf => hnew ?_
    exact (ClauseStore.falsified_iff.mp ⟨h, hf⟩).2 x hx

/-- **A valuation satisfies what is stored over a region**: these clauses, and the root
facts that were asserted. -/
structure HoldsOn (R : Var → Prop) (done : List Lit) (s : Solver) (ν : Valuation) : Prop where
  clauses : s.store.SatisfiedOn R done ν
  roots : ∀ l ∈ s.trail.lits.toList, s.trail.levelOf l.var = 0 → l.holds ν = true

namespace HoldsOn

section

variable (h : HoldsOn R done s ν) (hs : Sound F s) (hR : ∀ l ∈ s.trail.lits.toList, R l.var)
  (hdone : ∀ l ∈ done, l ∈ s.trail.lits.toList)

include h hs hR hdone

/-- Such a valuation heeds a trail over the region. -/
theorem heeds : s.Heeds ν := ⟨h.roots, hs.forced_of_satisfiedOn h.clauses hR hdone⟩

/-- What follows from a conflict holds, if it is news. -/
theorem follows {c : Conflict} (href : Refutes F s c) (hfresh : s.Fresh done c) {d : Clause}
    (hd : s.Follows c d) : Clause.holds ν d = true := by
  have hin : ∀ l ∈ s.conflictLits c, R l.var := fun l hl => hR l.neg (href.isFalse l hl)
  exact hd ν (h.heeds hs hR hdone) (h.clauses _ (href.stored.unspent hfresh) hin)

end

/-! ## What keeps it -/

/-- The same clauses and no other root facts. -/
theorem congr (h : HoldsOn R done s ν) (hstore : s'.store = s.store)
    (hroots : ∀ l ∈ s'.trail.lits.toList, s'.trail.levelOf l.var = 0 →
      l ∈ s.trail.lits.toList ∧ s.trail.levelOf l.var = 0) : HoldsOn R done s' ν where
  clauses := hstore ▸ h.clauses
  roots := fun l hl h0 => h.roots l (hroots l hl h0).1 (hroots l hl h0).2

/-- **Propagation inside the region**: no clause gets a watch back, and at level 0 what
is added follows. -/
theorem grown (h : HoldsOn R done s ν) (hs : Sound F s) (hs' : Sound F s') (hg : Grown s s')
    (hpinned : s.store.Pinned done s'.store) (hR : ∀ l ∈ s'.trail.lits.toList, R l.var)
    (hdone : ∀ l ∈ done, l ∈ s.trail.lits.toList) : HoldsOn R done s' ν := by
  have hclauses : s'.store.SatisfiedOn R done ν := by
    intro d hd hin
    obtain ⟨e, he, hperm⟩ := hpinned.unspent hs.store hd
    rw [← Clause.holds_perm hperm]
    exact h.clauses e he fun l hl => hin l (hperm.mem_iff.mp hl)
  refine ⟨hclauses, fun l hl h0 => ?_⟩
  by_cases hold : l ∈ s.trail.lits.toList
  · exact h.roots l hold ((hg.levels l hold).symm.trans h0)
  · have hzero : s.level = 0 := (hg.current l hl hold).symm.trans h0
    have hforced := hs'.forced_of_satisfiedOn hclauses hR fun m hm => hg.lits.subset (hdone m hm)
    refine hs'.holds_of_forced hforced (fun q d r hsplit hr => ?_) l hl
    obtain ⟨hd, -⟩ := hg.decisions d (by simp [hsplit]) hr
    exact h.roots d hd (Nat.le_zero.mp (hzero ▸ hs.levelOf_le_level hd))

/-- A clause that holds may be learnt. -/
theorem learns (h : HoldsOn R done s ν) {first : Lit} {rest : List Lit}
    (hl : Learns first rest s s') (hholds : Clause.holds ν (first :: rest) = true) :
    HoldsOn R done s' ν where
  clauses := by
    intro d hd hin
    rcases hl.gains.unspent done d hd with hold | hperm
    · exact h.clauses d hold hin
    · rw [Clause.holds_perm hperm]
      exact hholds
  roots := by
    rw [← hl.others]
    exact h.roots

/-- A decision is no root fact. -/
theorem decided (h : HoldsOn R done s ν) (hs : Sound F s) {l : Lit} (hl : l.var.index < s.varCount)
    (hopen : s.trail.isAssigned l.var = false) : HoldsOn R done (s.openDecision l) ν := by
  refine h.congr rfl fun m hm h0 => ?_
  have hm : m ∈ (s.trail.decided l).lits.toList := hm
  have h0 : (s.trail.decided l).levelOf m.var = 0 := h0
  rw [Trail.lits_decided] at hm
  rcases List.mem_append.mp hm with hm | hm
  · rw [Trail.levelOf_decided_ne _ (hs.trail.var_ne_of_open hopen m hm)] at h0
    exact ⟨hm, h0⟩
  · rw [List.mem_singleton.mp hm, Trail.levelOf_decided_self hs.trail.sizeLevels hl] at h0
    cases h0

/-- Going back asserts only root facts that were there. -/
theorem backtrackTo (h : HoldsOn R done s ν) (hs : Sound F s) (k : Nat) :
    HoldsOn R done (s.backtrackTo k) ν := by
  by_cases hk : k < s.level
  · obtain ⟨-, hcut⟩ := backtrackTo_spec hs hk
    refine h.congr hcut.store fun l hl h0 => ?_
    rw [hcut.levels] at h0
    obtain ⟨more, hlits, hmore⟩ := hcut.lits
    rw [hlits] at hl
    rcases List.mem_append.mp hl with hl | hl
    · exact ⟨List.mem_of_mem_take hl, h0⟩
    · exact ⟨(hs.pending l (hmore l hl).1).1, h0⟩
  · rw [backtrackTo_of_le (Nat.le_of_not_lt hk)]
    exact h

/-- **Asserting the first literal of a clause that holds**: it becomes a root fact
only if the others are false at level 0, or there are none. -/
theorem asserted (h : HoldsOn R done s ν) (hs : Sound F s) {learnt : Learnt} {first : Lit}
    {rest : List Lit} (hv : Learnt.Valid F s learnt) (hlits : learnt.lits = first :: rest)
    (hopen : s.trail.isAssigned first.var = false)
    (hfalse : ∀ m ∈ rest, m.neg ∈ s.trail.lits.toList)
    (hholds : Clause.holds ν (first :: rest) = true) :
    HoldsOn R done (s.assertLearnt learnt) ν := by
  obtain ⟨-, hassert⟩ := assertLearnt_spec hs hv hlits hopen hfalse
  have hstore : (s.assertLearnt learnt).store = s.store :=
    (congrArg Solver.store hassert.others).symm
  refine ⟨hstore ▸ h.clauses, fun l hl h0 => ?_⟩
  rw [hassert.lits] at hl
  rcases List.mem_append.mp hl with hl | hl
  · exact h.roots l hl ((hassert.levels l hl).symm.trans h0)
  · obtain rfl := List.mem_singleton.mp hl
    refine Clause.holds_of_others_false hholds fun m hm hne => ?_
    have hm : m ∈ rest := (List.mem_cons.mp hm).resolve_left hne
    have hlevel : s.level = 0 := by
      obtain ⟨m', more, rfl⟩ : ∃ m' more, rest = m' :: more :=
        List.exists_cons_of_ne_nil (List.ne_nil_of_mem hm)
      have hself : (s.assertLearnt learnt).trail.levelOf l.var = s.level := by
        unfold Solver.assertLearnt
        rw [hlits]
        exact Trail.levelOf_push_self hs.trail.sizeLevels (hv.inRange l (by simp [hlits])) _ _
      exact hself.symm.trans h0
    have hmem := hfalse m hm
    exact Lit.not_holds_of_neg (h.roots m.neg hmem
      (Nat.le_zero.mp (hlevel ▸ hs.levelOf_le_level hmem)))

/-- Forgetting clauses. -/
theorem reduced (h : HoldsOn R done s ν) (hr : Reduced s s') : HoldsOn R done s' ν := by
  have hlits := hr.trail_parts.1
  have hlevels : s'.trail.levels = s.trail.levels := (congrArg (·.trail.levels) hr.others).symm
  refine ⟨fun d hd => h.clauses d (hr.unspent done d hd), fun l hl h0 => h.roots l (hlits ▸ hl) ?_⟩
  unfold Trail.levelOf at h0 ⊢
  exact hlevels ▸ h0

/-- **A valuation of the whole region**, where everything is settled. -/
theorem of_settled {known : List Lit} (hset : Settled done s.store known)
    (hholds : ∀ l ∈ known, l.holds ν = true) (hall : ∀ v, R v → ∃ p, v.lit p ∈ known)
    (hsub : ∀ l ∈ s.trail.lits.toList, l ∈ known) : HoldsOn R done s ν where
  clauses := by
    intro d hd hin
    obtain ⟨l, hl, hk⟩ := hset.satisfies_unspent hd fun l hl =>
      Lit.mem_or_neg_mem (hall l.var (hin l hl))
    exact Clause.holds_iff.mpr ⟨l, hl, hholds l hk⟩
  roots := fun l hl _ => hholds l (hsub l hl)

end HoldsOn

/-! ## Loyal models -/

theorem Within.passed_subset (h : Within b s) : ∀ l ∈ b.trail.passed, l ∈ s.trail.lits.toList :=
  fun _ hl => h.lits.subset (List.mem_of_mem_take hl)

/-- What the head has passed is settled if clauses without a watch do not count. -/
theorem Sound.settledTo_passed (hs : Sound F s) : SettledTo s.trail.passed s.trail.head s :=
  ⟨Nat.le_refl _, hs.trail.headLe, .of_subset _ fun _ hl => hl⟩

/-- **The region of a component**: its variables, and those assigned in `b`. -/
def Region (c : Component) (b : Solver) (v : Var) : Prop :=
  v ∈ c.vars ∨ ∃ l ∈ b.trail.lits.toList, l.var = v

/-- **A loyal model** extends the assignment of `b`, and satisfies what is stored over
the region, but for clauses that had no watch left in `b`. -/
structure Loyal (c : Component) (b s : Solver) (m : Model) : Prop where
  trail : ∀ l ∈ b.trail.lits.toList, l.holds (s.pool.valuation m) = true
  region : HoldsOn (Region c b) b.trail.passed s (s.pool.valuation m)

namespace Loyal

/-- **A loyal model has all that is assigned** over the region at the level of `b`. -/
theorem holds (h : Loyal c b s m) (hb : Sound F b) (hs : Sound F s) (hw : Within b s)
    (hlevel : s.level = b.level) (hR : ∀ l ∈ s.trail.lits.toList, Region c b l.var) :
    ∀ l ∈ s.trail.lits.toList, l.holds (s.pool.valuation m) = true :=
  (h.region.heeds hs hR hw.passed_subset).holds_later hb hs hw hlevel h.trail

/-- A model stays loyal as long as its valuation goes on satisfying the region. -/
theorem grow (h : Loyal c b s m) (hm : m.buffer < s.pool.buffers.size)
    (hpool : s.pool.Extends s'.pool)
    (hregion : HoldsOn (Region c b) b.trail.passed s' (s.pool.valuation m)) :
    Loyal c b s' m := by
  have heq := hpool.valuation hm
  exact ⟨heq ▸ h.trail, heq ▸ hregion⟩

/-- **A model that a search finds** is loyal. -/
theorem of_found {start known : List Lit} (hf : Found c s.pool start known m)
    (hset : Settled b.trail.passed s.store known) (hstart : ∀ l ∈ b.trail.lits.toList, l ∈ known)
    (hsub : ∀ l ∈ s.trail.lits.toList, l ∈ known) : Loyal c b s m := by
  have hholds : ∀ l ∈ known, l.holds (s.pool.valuation m) = true := fun l hl =>
    Lit.holds_iff.mpr (ModelPool.valuation_of_value ((hf.values l).mpr hl))
  refine ⟨fun l hl => hholds l (hstart l hl), .of_settled hset hholds (fun v hv => ?_) hsub⟩
  rcases hv with hv | ⟨l, hl, rfl⟩
  · exact hf.assigned v hv
  · exact ⟨l.positive, hstart l hl⟩

end Loyal

end Solver

end Cleave
