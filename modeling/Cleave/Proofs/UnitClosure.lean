import Cleave.Proofs.Inserting

/-!
# Root propagation computes the unit closure

A literal is in the unit closure of some clauses if a clause has it as its
only literal whose opposite is not in the closure already (`UnitClosure`).
Reading a formula and propagating once computes this set, or notices that it
is contradictory, in whatever order the clauses come and whatever literals of
them are watched (`root_propagation`).

Nothing else gets on the trail, as all stored clauses are clauses of the
formula (`Solver.Grounded`). And nothing is missed: outside of any scope, a
clause whose watched literal is false has its other watched literal true once
the consequences of the former are drawn (`Solver.Saturated`).
-/

namespace Cleave

/-! ## The unit closure -/

/-- **The unit closure** of some clauses, the least set of literals that is
closed under unit resolution with them. Tautologies do not count. -/
inductive UnitClosure (F : List Clause) : Lit → Prop where
  | resolve {c : Clause} {l : Lit} (hc : c ∈ F) (htaut : ¬ c.Tautology) (hl : l ∈ c)
      (hrest : ∀ m ∈ c, m ≠ l → UnitClosure F m.neg) : UnitClosure F l

/-- **A contradictory unit closure**: it has a literal and its opposite, or
falsifies a clause. -/
def UnitRefuted (F : List Clause) : Prop :=
  (∃ l, UnitClosure F l ∧ UnitClosure F l.neg)
    ∨ ∃ c ∈ F, ¬ c.Tautology ∧ ∀ m ∈ c, UnitClosure F m.neg

/-- **The same clauses as sets**: every clause of `F` has the literals of one of
`G`. -/
def ReadsAs (F G : List Clause) : Prop := ∀ c ∈ F, ∃ d ∈ G, ∀ l, l ∈ c ↔ l ∈ d

theorem Clause.Tautology.congr {c d : Clause} (hmem : ∀ l, l ∈ c ↔ l ∈ d) :
    c.Tautology ↔ d.Tautology :=
  ⟨fun h => h.mono fun l => (hmem l).mp, fun h => h.mono fun l => (hmem l).mpr⟩

theorem Clause.not_tautology_of_normalize {c d : Clause} (h : c.normalize = some d) :
    ¬ c.Tautology := fun htaut =>
  not_tautology_of_nodup_vars (nodup_vars_of_normalize h)
    (htaut.mono fun l hl => (mem_of_normalize h l).mpr hl)

theorem UnitClosure.readsAs {F G : List Clause} (h : ReadsAs F G) {l : Lit}
    (hl : UnitClosure F l) : UnitClosure G l := by
  induction hl with
  | resolve hc htaut hl _ ih =>
    obtain ⟨d, hd, hmem⟩ := h _ hc
    exact .resolve hd (fun ht => htaut ((Clause.Tautology.congr hmem).mpr ht)) ((hmem _).mp hl)
      fun m hm hne => ih m ((hmem m).mpr hm) hne

theorem UnitRefuted.readsAs {F G : List Clause} (h : ReadsAs F G) (hF : UnitRefuted F) :
    UnitRefuted G := by
  rcases hF with ⟨l, hl, hneg⟩ | ⟨c, hc, htaut, hfalse⟩
  · exact Or.inl ⟨l, hl.readsAs h, hneg.readsAs h⟩
  · obtain ⟨d, hd, hmem⟩ := h c hc
    exact Or.inr ⟨d, hd, fun ht => htaut ((Clause.Tautology.congr hmem).mpr ht),
      fun m hm => (hfalse m ((hmem m).mpr hm)).readsAs h⟩

/-- **The clauses in another order**, with their literals in another order. -/
def Shuffled (F G : List Clause) : Prop := ∃ H, F.Perm H ∧ List.Forall₂ List.Perm H G

theorem ReadsAs.of_forall₂ {F G : List Clause}
    (h : List.Forall₂ (fun c d : Clause => ∀ l, l ∈ c ↔ l ∈ d) F G) : ReadsAs F G := by
  induction h with
  | nil => exact fun c hc => absurd hc List.not_mem_nil
  | @cons c d _ _ hcd _ ih =>
    intro e he
    rcases List.mem_cons.mp he with rfl | he
    · exact ⟨d, List.mem_cons_self, hcd⟩
    · obtain ⟨f, hf, hmem⟩ := ih e he
      exact ⟨f, List.mem_cons_of_mem _ hf, hmem⟩

theorem Shuffled.readsAs {F G : List Clause} (h : Shuffled F G) :
    ReadsAs F G ∧ ReadsAs G F := by
  obtain ⟨H, hperm, hall⟩ := h
  have hthere : ReadsAs H G := .of_forall₂ (hall.imp fun c d hcd l => hcd.mem_iff)
  have hback : ReadsAs G H := .of_forall₂ (hall.flip.imp fun d c hcd l => hcd.mem_iff.symm)
  refine ⟨fun c hc => hthere c (hperm.mem_iff.mp hc), fun d hd => ?_⟩
  obtain ⟨c, hc, hmem⟩ := hback d hd
  exact ⟨c, hperm.mem_iff.mpr hc, hmem⟩

namespace Solver

variable {F G : List Clause} {s s' : Solver}

/-! ## Nothing but the closure -/

/-- **A solver at rest that has nothing but the clauses `F`** and literals of
their unit closure, all of it still to be propagated. -/
structure Grounded (F : List Clause) (s : Solver) : Prop where
  stored : ∀ d, s.store.Has d → ∃ c ∈ F, ¬ c.Tautology ∧ ∀ l, l ∈ d ↔ l ∈ c
  closure : ∀ l ∈ s.trail.lits.toList, UnitClosure F l
  refuted : s.conflicted = true → UnitRefuted F
  head : s.trail.head = 0
  scope : s.scope.current = none

theorem grounded_new (F : List Clause) (options : Options) : Grounded F (new options) where
  stored := fun _ hd => absurd hd (blank_empty options options.maxLearnts).not_has
  closure := fun _ hl => absurd hl List.not_mem_nil
  refuted := fun h => nomatch h
  head := rfl
  scope := rfl

namespace Grounded

theorem withProjection (h : Grounded F s) (projection : VarTable Bool) :
    Grounded F { s with projection := projection } :=
  ⟨h.stored, h.closure, h.refuted, h.head, h.scope⟩

theorem growTo (h : Grounded F s) (hs : Sound G s) (count : Nat) :
    Grounded F (s.growTo count) := by
  unfold Solver.growTo
  split
  · exact h
  · rename_i hlt
    refine ⟨fun d hd => h.stored d ?_, h.closure, h.refuted, h.head, h.scope⟩
    have hget : ∀ l : Lit, (s.store.resize count).implications[l] = s.store.implications[l] :=
      fun l => LitTable.get_resize _ (by rw [hs.store.sizeImplications]; omega) l
    cases hd with
    | unit hl => exact .unit hl
    | binary hb =>
      refine .binary ?_
      unfold ClauseStore.implied at hb ⊢
      rwa [hget] at hb
    | long hc => exact .long hc

theorem project (h : Grounded F s) (hs : Sound G s) (vars : List Var) :
    Grounded F (s.project vars) :=
  (h.growTo hs _).withProjection _

theorem setProjection (h : Grounded F s) (hs : Sound G s) (vars : List Var) :
    Grounded F (s.setProjection vars) := by
  let grown := s.growTo (vars.foldl (fun bound (v : Var) => max bound (v.index + 1)) 0)
  have hcleared : Grounded F { grown with projection := grown.projection.fill false } :=
    (h.growTo hs _).withProjection _
  exact hcleared.project (G := G) (hs.growTo _) vars

/-- Inserting a clause of `F`: a single literal is in the closure by this clause,
and a clause that is false is so under the closure. -/
theorem inserted {c d : Clause} (h : Grounded F s) (hc : c ∈ F) (htaut : ¬ c.Tautology)
    (hmem : ∀ l, l ∈ d ↔ l ∈ c) (hins : Inserted d false s s') : Grounded F s' where
  stored := by
    intro e he
    rcases hins.stored with ⟨-, hstore⟩ | hgains
    · exact h.stored e (hstore ▸ he)
    · rcases hgains.only e he with he | hperm
      · exact h.stored e he
      · exact ⟨c, hc, htaut, fun l => hperm.mem_iff.trans (hmem l)⟩
  closure := by
    intro l hl
    rcases hins.added l hl with hl | hperm
    · exact h.closure l hl
    · have hone : ∀ m, m ∈ c ↔ m = l := fun m =>
        (hmem m).symm.trans (hperm.mem_iff.symm.trans List.mem_singleton)
      exact .resolve hc htaut ((hone l).mpr rfl) fun m hm hne => absurd ((hone m).mp hm) hne
  refuted := by
    intro hconf
    rcases hins.refuted hconf with hold | hfalse
    · exact h.refuted hold
    · exact Or.inr ⟨c, hc, htaut, fun m hm => h.closure _ (hfalse m ((hmem m).mpr hm))⟩
  head := by
    rcases hins.head with hzero | ⟨-, htrail⟩
    · exact hzero
    · rw [htrail]
      exact h.head
  scope := (congrArg (·.scope.current) hins.others).symm.trans h.scope

/-- Adding a clause of `F`. -/
theorem addNormalized {c : Clause} (h : Grounded F s) (hs : Sound F s) (h0 : s.level = 0)
    (hc : c ∈ F) : Grounded F (s.addNormalized c) := by
  have hgrow := h.growTo hs c.varBound
  unfold Solver.addNormalized
  simp only
  split
  · exact hgrow
  · rename_i d hd
    have hadds := Adds.growTo hs c.varBound
    have hent : Entails F d := fun ν hν => by
      rw [Clause.holds_of_normalize hd]
      exact Entails.of_mem hc ν hν
    have hrange : ∀ l ∈ d, l.var.index < (s.growTo c.varBound).varCount := fun l hl =>
      Nat.lt_of_lt_of_le (Clause.index_lt_varBound ((Clause.mem_of_normalize hd l).mp hl))
        (growTo_same hs c.varBound).2.2.2.2.2.2
    have hins : Inserted d false _ ((s.growTo c.varBound).insertClause d false) :=
      (insertClause_spec hadds.sound (hadds.level.trans h0) hent
        (Clause.nodup_vars_of_normalize hd) hrange).2
    exact hgrow.inserted hc (Clause.not_tautology_of_normalize hd) (Clause.mem_of_normalize hd) hins

/-- **Adding clauses of `F` one by one**, by induction. -/
theorem addAll (cs : List Clause) (h : Grounded F s) (hs : Sound F s) (h0 : s.level = 0)
    (hcs : ∀ c ∈ cs, c ∈ F) : Grounded F (cs.foldl Solver.addNormalized s) := by
  induction cs generalizing s with
  | nil => exact h
  | cons c rest ih =>
    have hc := hcs c List.mem_cons_self
    have hadds : Adds F (F ++ [c]) s (s.addNormalized c) := addNormalized_adds hs h0
    have hs' : Sound F (s.addNormalized c) := hadds.sound.mono fun d hd => by
      rcases List.mem_append.mp hd with hd | hd
      · exact hd
      · rw [List.mem_singleton.mp hd]
        exact hc
    exact ih (h.addNormalized hs h0 hc) hs' (hadds.level.trans h0)
      fun d hd => hcs d (List.mem_cons_of_mem _ hd)

end Grounded

/-- **The solver for a formula** has nothing but its clauses and their
closure. -/
theorem grounded_ofFormula (f : Formula) (options : Options) :
    Grounded f.clauses (ofFormula f options) := by
  have hs : Sound f.clauses (new options) :=
    (sound_blank options options.maxLearnts).mono fun _ hc => absurd hc List.not_mem_nil
  have hgrow := (grounded_new f.clauses options).growTo hs f.numVariables
  have hadds := Adds.growTo hs f.numVariables
  have hall := hgrow.addAll f.clauses hadds.sound hadds.level fun _ hc => hc
  have hsound := (foldl_addNormalized_adds f.clauses hadds.sound hadds.level).sound
  unfold ofFormula
  simp only
  split
  · exact hall.setProjection hsound _
  · exact hall

/-- What the clauses force is in the closure. -/
theorem Grounded.unitClosed (h : Grounded F s) : s.UnitClosed (UnitClosure F) where
  binary := by
    intro l hl b hb _
    obtain ⟨c, hc, htaut, hmem⟩ := h.stored _ (.binary hb)
    refine .resolve hc htaut ((hmem b).mp (by simp)) fun m hm hne => ?_
    rcases List.mem_pair.mp ((hmem m).mpr hm) with rfl | rfl
    · rw [Lit.neg_neg]
      exact hl
    · exact absurd rfl hne
  long := by
    intro id hid l hl _ hrest
    obtain ⟨c, hc, htaut, hmem⟩ := h.stored _ (.long (ClauseStore.clause_mem hid))
    exact .resolve hc htaut ((hmem l).mp hl) fun m hm hne => hrest m ((hmem m).mpr hm) hne

/-- The clause of a conflict is stored. -/
theorem StoresConflict.has {conflict : Conflict} (h : s.StoresConflict conflict) :
    s.store.Has (s.conflictLits conflict) := by
  cases conflict with
  | binary a b =>
    have hb : s.store.Has [a.neg.neg, b] := .binary h
    rwa [Lit.neg_neg] at hb
  | long id => exact .long (ClauseStore.clause_mem h)

/-- **Propagation stays in the closure**, and a conflict refutes it. -/
theorem Grounded.propagate {r : Option Conflict} (h : Grounded F s) (hs : Sound F s)
    (hp : s.propagate = (r, s')) :
    (∀ l ∈ s'.trail.lits.toList, UnitClosure F l) ∧ (r ≠ none → UnitRefuted F) := by
  obtain ⟨hdrawn, -, -⟩ := propagate_spec hs hp
  have hclosure := hdrawn.grown.forced _ h.unitClosed h.closure
  refine ⟨hclosure, fun hr => ?_⟩
  obtain ⟨conflict, rfl⟩ := Option.ne_none_iff_exists'.mp hr
  have href := hdrawn.conflict conflict rfl
  obtain ⟨d, hd, hperm⟩ := hdrawn.grown.store.symm.has href.stored.has
  obtain ⟨c, hc, htaut, hmem⟩ := h.stored d hd
  refine Or.inr ⟨c, hc, htaut, fun m hm => hclosure _ (href.isFalse m ?_)⟩
  exact hperm.mem_iff.mp ((hmem m).mpr hm)

/-! ## All of the closure -/

/-- **The consequences of some literals are drawn**: what they imply is true,
and no clause has a loose end from them. -/
structure Saturated (s : Solver) (known : List Lit) : Prop where
  implied : ∀ l ∈ known, ∀ b ∈ s.store.implied l, b ∈ s.trail.lits.toList
  long : ∀ id, ¬ s.Loose known id

theorem Saturated.mono {known fewer : List Lit} (h : Saturated s known)
    (hsub : ∀ l ∈ fewer, l ∈ known) : Saturated s fewer where
  implied := fun l hl => h.implied l (hsub l hl)
  long := fun id ⟨hid, hend⟩ => h.long id
    ⟨hid, hend.imp (fun he => ⟨hsub _ he.1, he.2⟩) fun he => ⟨hsub _ he.1, he.2⟩⟩

/-- What is saturated stays so while the trail grows. -/
theorem Saturated.grown {known : List Lit} (h : Saturated s known) (hg : Grown s s')
    (hk : ∀ m ∈ known, m ∈ s.trail.lits.toList) : Saturated s' known where
  implied := fun l hl b hb => hg.lits.subset (h.implied l hl b (hg.store.implied l ▸ hb))
  long := fun id hloose => h.long id (hg.loose known hk id hloose)

/-- **One literal more**, if the scope admits its consequences. -/
theorem propagateLit_saturated {l : Lit} {known : List Lit} (hs : Sound F s)
    (hadmits : s.AdmitsFrom l) (hl : l ∈ s.trail.lits.toList)
    (hk : ∀ m ∈ known, m ∈ s.trail.lits.toList) (hp : s.propagateLit l = (none, s'))
    (h : Saturated s known) : Saturated s' (l :: known) := by
  have hpursued := propagateLit_spec hs hl hp
  have hgrown := hpursued.drawn.grown
  refine ⟨fun m hm b hb => ?_, fun id hloose => ?_⟩
  · rcases List.mem_cons.mp hm with rfl | hm
    · exact hpursued.implied rfl hadmits b (hgrown.store.implied m ▸ hb)
    · exact (h.grown hgrown hk).implied m hm b hb
  · exact h.long id (hpursued.tight rfl hadmits known hk id hloose)

/-- Behind a position stand the literal at the position and what is behind
it. -/
theorem eq_or_mem_drop {xs ys : List Lit} (hpre : xs <+: ys) {pos n : Nat} {l m : Lit}
    (hl : xs[pos]? = some l) (hm : m ∈ (ys.take n).drop pos) :
    m = l ∨ m ∈ (ys.take n).drop (pos + 1) := by
  rw [List.drop_eq_getElem?_toList_append] at hm
  refine (List.mem_append.mp hm).imp_left fun hm => ?_
  have hget : (ys.take n)[pos]? = some m := by simpa using hm
  rw [List.getElem?_take] at hget
  split at hget
  · obtain ⟨rest, rfl⟩ := hpre
    obtain ⟨hlt, -⟩ := List.getElem?_eq_some_iff.mp hl
    rw [List.getElem?_append_left hlt, hl] at hget
    exact (Option.some.inj hget).symm
  · cases hget

/-- No literal stands between the head and itself. -/
theorem Saturated.pass_none {known more : List Lit} (h : Saturated s known)
    (hmore : ∀ m ∈ more, m ∈ (s.trail.lits.toList.take s.trail.head).drop s.trail.head) :
    Saturated s (known ++ more) := by
  refine h.mono fun m hm => (List.mem_append.mp hm).resolve_right fun hm => ?_
  have hm := hmore m hm
  rw [List.drop_take, Nat.sub_self, List.take_zero] at hm
  cases hm

/-- **A run of propagation without a conflict**, by induction on its length:
what was saturated stays so, and the literals that the head passes join it as
far as the scope admits their consequences. -/
theorem propagateWithin_saturated (fuel : Nat) {known more : List Lit} (hs : Sound F s)
    (hp : propagateWithin fuel s = (none, s')) (hk : ∀ m ∈ known, m ∈ s.trail.lits.toList)
    (h : Saturated s known)
    (hmore : ∀ m ∈ more, m ∈ (s'.trail.lits.toList.take s'.trail.head).drop s.trail.head
      ∧ s.AdmitsFrom m) : Saturated s' (known ++ more) := by
  induction fuel generalizing s known more with
  | zero =>
    obtain ⟨-, rfl⟩ := Prod.mk.inj hp
    exact h.pass_none fun m hm => (hmore m hm).1
  | succ fuel ih =>
    have hrun := hp
    unfold propagateWithin at hp
    split at hp
    · obtain ⟨-, rfl⟩ := Prod.mk.inj hp
      exact h.pass_none fun m hm => (hmore m hm).1
    · rename_i l s₁ hnext
      obtain ⟨hs₁, hg₁, hhead₁, hlits₁, -, hl⟩ := hs.next hnext
      obtain ⟨hget, -⟩ := nextToPropagate_some hnext
      have hk₁ : ∀ m ∈ known, m ∈ s₁.trail.lits.toList := fun m hm => hlits₁ ▸ hk m hm
      have h₁ := h.grown hg₁ hk
      rcases hlit : s₁.propagateLit l with ⟨r₂, s₂⟩
      rw [hlit] at hp
      cases r₂ with
      | some conflict => cases hp
      | none =>
        have hpursued := propagateLit_spec hs₁ (hlits₁ ▸ hl) hlit
        have hg₂ := hpursued.drawn.grown
        -- the literal at the head joins what is saturated, if it is asked for
        obtain ⟨known₂, hk₂, h₂, hold, hjoins⟩ : ∃ known₂,
            (∀ m ∈ known₂, m ∈ s₂.trail.lits.toList) ∧ Saturated s₂ known₂
              ∧ (∀ m ∈ known, m ∈ known₂) ∧ (l ∈ more → l ∈ known₂) := by
          by_cases hin : l ∈ more
          · refine ⟨l :: known, fun m hm => hg₂.lits.subset ?_, propagateLit_saturated hs₁
              ((hmore l hin).2.grown hg₁) (hlits₁ ▸ hl) hk₁ hlit h₁,
              fun m hm => List.mem_cons_of_mem _ hm, fun _ => List.mem_cons_self⟩
            rcases List.mem_cons.mp hm with rfl | hm
            · exact hlits₁ ▸ hl
            · exact hk₁ m hm
          · exact ⟨known, fun m hm => hg₂.lits.subset (hk₁ m hm), h₁.grown hg₂ hk₁,
              fun m hm => hm, fun h => absurd h hin⟩
        have hpre := (propagateWithin_spec _ hs hrun).1.grown.lits
        have hbehind : ∀ m ∈ more.filter (fun m => m ≠ l),
            m ∈ (s'.trail.lits.toList.take s'.trail.head).drop s₂.trail.head ∧ s₂.AdmitsFrom m := by
          intro m hm
          obtain ⟨hm, hne⟩ := List.mem_filter.mp hm
          obtain ⟨hpos, hadmits⟩ := hmore m hm
          rw [hpursued.head, hhead₁]
          refine ⟨(eq_or_mem_drop hpre ?_ hpos).resolve_left (of_decide_eq_true hne),
            (hadmits.grown hg₁).grown hg₂⟩
          rw [Array.getElem?_toList]
          exact hget
        refine (ih hpursued.drawn.sound hp hk₂ h₂ hbehind).mono fun m hm => ?_
        rcases List.mem_append.mp hm with hm | hm
        · exact List.mem_append_left _ (hold m hm)
        · by_cases hml : m = l
          · exact List.mem_append_left _ (hml ▸ hjoins (hml ▸ hm))
          · exact List.mem_append_right _ (List.mem_filter.mpr ⟨hm, decide_eq_true hml⟩)

/-- **After a propagation without a conflict** the literals from the head on are
saturated as far as the scope admits their consequences. -/
theorem propagate_saturated {known more : List Lit} (hs : Sound F s)
    (hp : s.propagate = (none, s')) (hk : ∀ m ∈ known, m ∈ s.trail.lits.toList)
    (h : Saturated s known)
    (hmore : ∀ m ∈ more, m ∈ s'.trail.lits.toList.drop s.trail.head ∧ s.AdmitsFrom m) :
    Saturated s' (known ++ more) := by
  refine propagateWithin_saturated _ hs hp hk h fun m hm => ?_
  rw [(propagate_spec hs hp).2.1 rfl, List.take_of_length_le (by simp)]
  exact hmore m hm

theorem saturated_nil (s : Solver) : Saturated s [] :=
  ⟨fun _ hl => absurd hl List.not_mem_nil,
    fun _ ⟨_, hend⟩ => hend.elim (fun he => nomatch he.1) fun he => nomatch he.1⟩

/-- Outside of any scope, a propagation of all literals saturates them. -/
theorem propagate_saturated_all (hs : Sound F s) (hnone : s.scope.current = none)
    (hhead : s.trail.head = 0) (hp : s.propagate = (none, s')) :
    Saturated s' s'.trail.lits.toList :=
  propagate_saturated hs hp (fun m hm => absurd hm List.not_mem_nil) (saturated_nil s)
    fun m hm => ⟨by rwa [hhead, List.drop_zero], admitsFrom_of_none hnone m⟩

/-- **The last literal of a clause is true** if the others are false: the
watched ones among them are known to be, so the other watch is true, and can
only be the last literal. -/
theorem Saturated.last {known : List Lit} (h : Saturated s known) (hs : Sound F s)
    {id : ClauseId} (hid : id < s.store.long.size) {m : Lit}
    (hrest : ∀ k ∈ s.store.lits id, k ≠ m → k.neg ∈ s.trail.lits.toList)
    (hknown : ∀ w, s.store.Watches id w → w ≠ m → w.neg ∈ known) : m ∈ s.trail.lits.toList := by
  have hfirst : s.store.Watches id (s.store.clause id).first := ⟨hid, Or.inl rfl⟩
  have hsecond : s.store.Watches id (s.store.clause id).second := ⟨hid, Or.inr rfl⟩
  have htrue : ∀ {w}, s.store.Watches id w → w ∈ s.trail.lits.toList →
      m ∈ s.trail.lits.toList := by
    intro w hw hin
    by_cases hne : w = m
    · exact hne ▸ hin
    · exact absurd (hrest w hw.mem_lits hne) (hs.trail.not_mem_neg hin)
  by_contra hno
  by_cases hne : (s.store.clause id).first = m
  · have hdistinct := hs.store.first_ne_second hid
    exact h.long id ⟨hid, Or.inr ⟨hknown _ hsecond fun he => hdistinct (hne.trans he.symm),
      fun hin => hno (htrue hfirst hin)⟩⟩
  · exact h.long id ⟨hid, Or.inl ⟨hknown _ hfirst hne, fun hin => hno (htrue hsecond hin)⟩⟩

/-- **A given clause is closed**: if all but one of its literals are false, the
last one is true. -/
theorem Saturated.closed (h : Saturated s s.trail.lits.toList) (hs : Sound F s) {d : Clause}
    (hd : s.store.Given d) {l : Lit} (hl : l ∈ d)
    (hrest : ∀ m ∈ d, m ≠ l → m.neg ∈ s.trail.lits.toList) : l ∈ s.trail.lits.toList := by
  rcases hd with ⟨id, hid, -, rfl⟩ | ⟨a, b, hb, rfl⟩
  · exact h.last hs hid hrest fun w hw hne => hrest w hw.mem_lits hne
  · -- either direction of a binary clause is an implication
    have himplied : ∀ x y, y ∈ s.store.partners x → x.neg ∈ s.trail.lits.toList →
        y ∈ s.trail.lits.toList := fun x y hy hneg =>
      h.implied _ hneg y (ClauseStore.mem_implied_of_partner hy)
    have hne : b ≠ a := by
      have := hs.store.distinct a.neg b (ClauseStore.mem_implied_of_partner hb)
      rintro rfl
      exact this rfl
    rcases List.mem_pair.mp hl with rfl | rfl
    · exact himplied b l (hs.store.symmetric l b hb) (hrest b (by simp) hne)
    · exact himplied a l hb (hrest a (by simp) hne.symm)

/-- A given clause is not false. -/
theorem Saturated.not_falsified (h : Saturated s s.trail.lits.toList) (hs : Sound F s) {d : Clause}
    (hd : s.store.Given d) : ¬ ∀ m ∈ d, m.neg ∈ s.trail.lits.toList := by
  intro hfalse
  have hne : ∃ l, l ∈ d := by
    rcases hd with ⟨id, -, -, rfl⟩ | ⟨a, b, -, rfl⟩
    · exact ⟨_, List.mem_cons_self⟩
    · exact ⟨a, List.mem_cons_self⟩
  obtain ⟨l, hl⟩ := hne
  have hin := h.closed hs hd hl fun m hm _ => hfalse m hm
  exact hs.trail.not_mem_neg hin (hfalse l hl)

/-- **A saturated solver for some clauses**: each is kept as a given one, or has
a true literal, unless it is a tautology. -/
structure Drained (F : List Clause) (s : Solver) : Prop where
  sound : Sound F s
  saturated : Saturated s s.trail.lits.toList
  kept : ∀ c ∈ F, ¬ c.Tautology →
    (∃ l ∈ c, l ∈ s.trail.lits.toList) ∨ ∃ d, s.store.Given d ∧ ∀ l, l ∈ d ↔ l ∈ c

/-- **The closure is on the trail**, by induction on how a literal got into
it. -/
theorem Drained.mem_of_unitClosure (h : Drained F s) {l : Lit} (hl : UnitClosure F l) :
    l ∈ s.trail.lits.toList := by
  induction hl with
  | @resolve c l hc htaut hl _ ih =>
    rcases h.kept c hc htaut with ⟨m, hm, htrue⟩ | ⟨d, hd, hmem⟩
    · by_cases hml : m = l
      · exact hml ▸ htrue
      · exact absurd (ih m hm hml) (h.sound.trail.not_mem_neg htrue)
    · exact h.saturated.closed h.sound hd ((hmem l).mpr hl) fun m hm hne =>
        ih m ((hmem m).mp hm) hne

/-- So it is not contradictory. -/
theorem Drained.not_unitRefuted (h : Drained F s) : ¬ UnitRefuted F := by
  rintro (⟨l, hl, hneg⟩ | ⟨c, hc, htaut, hfalse⟩)
  · exact h.sound.trail.not_mem_neg (h.mem_of_unitClosure hl) (h.mem_of_unitClosure hneg)
  · have hfalse : ∀ m ∈ c, m.neg ∈ s.trail.lits.toList := fun m hm =>
      h.mem_of_unitClosure (hfalse m hm)
    rcases h.kept c hc htaut with ⟨m, hm, htrue⟩ | ⟨d, hd, hmem⟩
    · exact h.sound.trail.not_mem_neg htrue (hfalse m hm)
    · exact h.saturated.not_falsified h.sound hd fun m hm => hfalse m ((hmem m).mp hm)

/-- **Reading a formula and propagating once** leads to such a solver, unless
there is a conflict. -/
theorem drained_ofFormula {f : Formula} {options : Options}
    (hconf : (ofFormula f options).conflicted = false)
    (hp : (ofFormula f options).propagate = (none, s')) : Drained f.clauses s' := by
  have hs := sound_ofFormula f options
  have hground := grounded_ofFormula f options
  have hdrawn := (propagate_spec hs hp).1
  refine ⟨hdrawn.sound, propagate_saturated_all hs hground.scope hground.head hp,
    fun c hc htaut => ?_⟩
  rcases represents_ofFormula f options hconf c hc with ht | ⟨l, hl, hroot⟩ | ⟨d, hd, hmem⟩
  · exact absurd ht htaut
  · exact Or.inl ⟨l, hl, hdrawn.grown.lits.subset (List.mem_of_mem_take hroot)⟩
  · obtain ⟨e, he, hperm⟩ := hdrawn.grown.store.keepsGiven.clauses d hd
    exact Or.inr ⟨e, he, fun l => hperm.mem_iff.trans (hmem l)⟩

/-! ## The outcome -/

/-- **A conflict at the root**: while the clauses are read, or when they are
propagated for the first time. -/
def RootConflict (f : Formula) (options : Options) : Prop :=
  (ofFormula f options).conflicted = true ∨ (ofFormula f options).propagate.1.isSome = true

/-- **The true literals** after the first propagation. -/
def RootTrue (f : Formula) (options : Options) (l : Lit) : Prop :=
  (ofFormula f options).propagate.2.trail.isTrue l = true

theorem drained_of_not_rootConflict {f : Formula} {options : Options}
    (h : ¬ RootConflict f options) : Drained f.clauses (ofFormula f options).propagate.2 := by
  obtain ⟨hconf, hnone⟩ := not_or.mp h
  refine drained_ofFormula (by simpa using hconf) (Prod.ext ?_ rfl)
  simpa using hnone

theorem rootConflict_iff (f : Formula) (options : Options) :
    RootConflict f options ↔ UnitRefuted f.clauses := by
  have hground := grounded_ofFormula f options
  constructor
  · rintro (hconf | hsome)
    · exact hground.refuted hconf
    · refine (hground.propagate (sound_ofFormula f options) (Prod.eta _).symm).2 fun hnone => ?_
      rw [hnone] at hsome
      cases hsome
  · exact fun href => by_contra fun hno => (drained_of_not_rootConflict hno).not_unitRefuted href

theorem rootTrue_iff {f : Formula} {options : Options} (h : ¬ RootConflict f options) (l : Lit) :
    RootTrue f options l ↔ UnitClosure f.clauses l := by
  have hdrained := drained_of_not_rootConflict h
  have hclosure := ((grounded_ofFormula f options).propagate (sound_ofFormula f options)
    (Prod.eta _).symm).1
  exact hdrained.sound.trail.isTrue_iff.trans ⟨hclosure l, hdrained.mem_of_unitClosure⟩

/-- **Root propagation computes the unit closure.** There is a conflict exactly
if the closure is contradictory, and otherwise the true literals are those of
the closure. So the outcome is the same for every order of the clauses and of
the literals inside them. -/
theorem root_propagation (f : Formula) (options : Options) :
    (RootConflict f options ↔ UnitRefuted f.clauses)
      ∧ (¬ RootConflict f options → ∀ l, RootTrue f options l ↔ UnitClosure f.clauses l)
      ∧ ∀ (g : Formula) (options' : Options), Shuffled f.clauses g.clauses →
          (RootConflict f options ↔ RootConflict g options')
            ∧ (¬ RootConflict f options →
              ∀ l, RootTrue f options l ↔ RootTrue g options' l) := by
  refine ⟨rootConflict_iff f options, rootTrue_iff, fun g options' hshuffled => ?_⟩
  obtain ⟨hfg, hgf⟩ := hshuffled.readsAs
  have hsame : RootConflict f options ↔ RootConflict g options' := by
    rw [rootConflict_iff, rootConflict_iff]
    exact ⟨.readsAs hfg, .readsAs hgf⟩
  refine ⟨hsame, fun hno l => ?_⟩
  rw [rootTrue_iff hno, rootTrue_iff fun hg => hno (hsame.mpr hg)]
  exact ⟨.readsAs hfg, .readsAs hgf⟩

/-- An implication, then its antecedent. -/
def factLast : Formula := { clauses := [[Var.neg ⟨0⟩, Var.pos ⟨1⟩], [Var.pos ⟨0⟩]] }

/-- The same the other way round. -/
def factFirst : Formula := { clauses := [[Var.pos ⟨0⟩], [Var.pos ⟨1⟩, Var.neg ⟨0⟩]] }

theorem root_propagation_reordered : Shuffled factLast.clauses factFirst.clauses
    ∧ ¬ RootConflict factLast {} ∧ RootTrue factLast {} (Var.pos ⟨1⟩)
    ∧ ¬ RootConflict factFirst {} ∧ RootTrue factFirst {} (Var.pos ⟨1⟩) := by
  have hshuffled : Shuffled factLast.clauses factFirst.clauses :=
    ⟨_, .swap _ _ _, .cons (.refl _) (.cons (.swap _ _ _) .nil)⟩
  have hn : Clause.normalize [Var.neg ⟨0⟩, Var.pos ⟨1⟩] = some [Var.neg ⟨0⟩, Var.pos ⟨1⟩] := by cbv
  have hs : ofFormula factLast {} = ((((new {}).growTo 2).growTo 2).insertClause
      [Var.neg ⟨0⟩, Var.pos ⟨1⟩] false).addNormalized [Var.pos ⟨0⟩] := by
    show (Solver.addNormalized _ [Var.neg ⟨0⟩, Var.pos ⟨1⟩]).addNormalized _ = _
    rw [addNormalized_of_normalize hn]
    rfl
  have hno : ¬ RootConflict factLast {} := by
    unfold RootConflict
    rw [hs]
    decide +kernel
  have htrue : RootTrue factLast {} (Var.pos ⟨1⟩) := by
    unfold RootTrue
    rw [hs]
    decide +kernel
  obtain ⟨hconf, hlits⟩ := (root_propagation factLast {}).2.2 factFirst {} hshuffled
  exact ⟨hshuffled, hno, htrue, fun h => hno (hconf.mpr h), (hlits hno _).mp htrue⟩

end Solver

end Cleave
