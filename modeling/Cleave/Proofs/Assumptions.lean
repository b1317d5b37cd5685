import Cleave.Proofs.Backbone
import Cleave.Proofs.Engine

/-!
# Implied literals by assumptions

The external engine works on a renamed copy of the open part of a component.
Every valuation that completes the assignment, read through the renaming,
satisfies the copy if the component has all open variables of its clauses
(`Spans`). So what the engine finds is true in all completing valuations, and
follows from the clauses together with the current decisions. It is stored as
clauses that name these decisions, which are sound at every level.
-/

namespace Cleave

namespace Renaming

variable {r : Renaming} {vs : List Var} {l m : Lit}

/-! ## Renaming -/

/-- **A renaming of some variables** leads back from every new variable. -/
structure Numbers (r : Renaming) (vs : List Var) : Prop where
  known : ∀ v ∈ vs, ∃ w, r.renamed[v] = some w
  old : ∀ v w : Var, r.renamed[v] = some w → r.oldVars[w.index]? = some v
  listed : ∀ v ∈ r.oldVars.toList, v ∈ vs ∧ ∃ w, r.renamed[v] = some w
  nodup : r.oldVars.toList.Nodup

theorem Numbers.insert (h : r.Numbers vs) {v : Var} (hv : v.index < r.renamed.size) :
    (r.insert v).Numbers (vs ++ [v]) ∧ (r.insert v).renamed.size = r.renamed.size := by
  unfold Renaming.insert
  split
  · rename_i hsome
    obtain ⟨w, hw⟩ := Option.isSome_iff_exists.mp hsome
    refine ⟨⟨fun u hu => ?_, h.old, fun u hu => ?_, h.nodup⟩, rfl⟩
    · rcases List.mem_append.mp hu with hu | hu
      · exact h.known u hu
      · exact List.mem_singleton.mp hu ▸ ⟨w, hw⟩
    · exact ⟨List.mem_append_left _ (h.listed u hu).1, (h.listed u hu).2⟩
  · rename_i hnone
    have hnew : ∀ u, (r.renamed.set v (some ⟨r.oldVars.size⟩))[u]
        = if v = u then some ⟨r.oldVars.size⟩ else r.renamed[u] := by
      intro u
      rw [VarTable.get_set]
      simp [hv]
    have hfresh : v ∉ r.oldVars.toList := by
      intro hin
      obtain ⟨w, hw⟩ := (h.listed v hin).2
      exact hnone (by rw [hw]; rfl)
    refine ⟨⟨fun u hu => ?_, fun u w hw => ?_, fun u hu => ?_, ?_⟩, VarTable.size_set _ _ _⟩
    · rw [hnew]
      split
      · exact ⟨_, rfl⟩
      · rename_i hne
        rcases List.mem_append.mp hu with hu | hu
        · exact h.known u hu
        · exact absurd (List.mem_singleton.mp hu).symm hne
    · rw [hnew] at hw
      split at hw
      · rename_i heq
        rw [← Option.some.inj hw, ← heq]
        simp
      · have hold := h.old u w hw
        have hlt := (Array.getElem?_eq_some_iff.mp hold).1
        rw [Array.getElem?_push_lt (by omega)]
        rw [← hold]
        exact (Array.getElem?_eq_getElem _).symm
    · rw [hnew]
      rw [Array.toList_push, List.mem_append] at hu
      rcases hu with hu | hu
      · refine ⟨List.mem_append_left _ (h.listed u hu).1, ?_⟩
        split
        · exact ⟨_, rfl⟩
        · exact (h.listed u hu).2
      · obtain rfl := List.mem_singleton.mp hu
        exact ⟨List.mem_append_right _ List.mem_cons_self, by simp⟩
    · rw [Array.toList_push, List.nodup_append]
      refine ⟨h.nodup, List.nodup_singleton v, fun a ha b hb hab => hfresh ?_⟩
      rw [← List.mem_singleton.mp hb, ← hab]
      exact ha

/-- More variables, one after the other, by induction on them. -/
theorem Numbers.foldl_insert {ws : List Var} (h : r.Numbers vs)
    (hws : ∀ v ∈ ws, v.index < r.renamed.size) : (ws.foldl Renaming.insert r).Numbers (vs ++ ws) := by
  induction ws generalizing r vs with
  | nil => exact (List.append_nil vs).symm ▸ h
  | cons v rest ih =>
    obtain ⟨hnext, hsize⟩ := h.insert (hws v List.mem_cons_self)
    rw [List.append_cons]
    exact ih hnext fun w hw => hsize ▸ hws w (List.mem_cons_of_mem _ hw)

/-- **Variables are numbered** one after the other. -/
theorem numbers_ofVars (vs : List Var) {count : Nat} (hvs : ∀ v ∈ vs, v.index < count) :
    (ofVars vs count).Numbers vs := by
  have hstart : (⟨VarTable.sized count, #[]⟩ : Renaming).Numbers [] := by
    refine ⟨by simp, fun v w hw => ?_, by simp, List.nodup_nil⟩
    rw [VarTable.get_sized] at hw
    cases hw
  refine hstart.foldl_insert ?_
  rw [VarTable.size_sized]
  exact hvs

namespace Numbers

variable (h : r.Numbers vs)
include h

/-- A renamed literal is restored. -/
theorem restore_of_rename (hm : r.rename? l = some m) : r.restore m = l := by
  obtain ⟨w, hw, rfl⟩ := Option.map_eq_some_iff.mp hm
  unfold restore
  have hget : r.oldVars.getD w.index default = l.var := by
    rw [Array.getD_eq_getD_getElem?, h.old _ _ hw]
    rfl
  show (r.oldVars.getD w.index default).lit l.positive = l
  rw [hget]
  rfl

theorem rename_of_mem (hl : l.var ∈ vs) : ∃ m, r.rename? l = some m := by
  obtain ⟨w, hw⟩ := h.known l.var hl
  exact ⟨w.lit l.positive, by unfold rename?; rw [hw]; rfl⟩

theorem restore_mem (hm : m.var.index < r.size) : (r.restore m).var ∈ vs := by
  have hin : m.var.index < r.oldVars.size := hm
  show r.oldVars.getD m.var.index default ∈ vs
  rw [Array.getD_eq_getD_getElem?, Array.getElem?_eq_getElem hin]
  exact (h.listed _ (Array.getElem_mem_toList hin)).1

/-- Different variables are restored to different ones. -/
theorem restore_ne (hl : l.var.index < r.size) (hm : m.var.index < r.size)
    (hne : l.var ≠ m.var) : (r.restore l).var ≠ (r.restore m).var := by
  have hinl : l.var.index < r.oldVars.size := hl
  have hinm : m.var.index < r.oldVars.size := hm
  show r.oldVars.getD l.var.index default ≠ r.oldVars.getD m.var.index default
  rw [Array.getD_eq_getD_getElem?, Array.getD_eq_getD_getElem?, Array.getElem?_eq_getElem hinl,
    Array.getElem?_eq_getElem hinm]
  intro heq
  have hget : r.oldVars.toList[l.var.index]? = r.oldVars.toList[m.var.index]? := by
    rw [Array.getElem?_toList, Array.getElem?_toList, Array.getElem?_eq_getElem hinl,
      Array.getElem?_eq_getElem hinm]
    exact congrArg some heq
  have hlen : l.var.index < r.oldVars.toList.length := by
    rw [Array.length_toList]
    exact hinl
  exact hne (Var.index_inj.mp ((List.getElem?_inj hlen h.nodup).mp hget))

end Numbers

/-- Only the listed variables are renamed, and to new ones below the count. -/
theorem Numbers.of_rename (h : r.Numbers vs) (hm : r.rename? l = some m) :
    l.var ∈ vs ∧ m.var.index < r.size := by
  obtain ⟨w, hw, rfl⟩ := Option.map_eq_some_iff.mp hm
  have hold := h.old _ _ hw
  have hlt := (Array.getElem?_eq_some_iff.mp hold).1
  exact ⟨(h.listed _ (Array.mem_toList_iff.mpr (Array.mem_of_getElem? hold))).1, hlt⟩

/-- A valuation read through a renaming. -/
def pull (r : Renaming) (ν : Valuation) : Valuation :=
  fun w => ν (r.oldVars.getD w.index default)

theorem holds_restore (r : Renaming) (ν : Valuation) (l : Lit) :
    (r.restore l).holds ν = l.holds (r.pull ν) := rfl

end Renaming

namespace Trail

/-! ## The clause of all decisions -/

variable {t : Trail} {count : Nat}

theorem decisionClause_eq (t : Trail) :
    t.decisionClause = (t.decisionsTo t.level).map Lit.neg := by
  unfold decisionClause decisionsTo
  rw [List.map_filterMap]

theorem decision?_eq_some {k : Nat} {d : Lit} (h : t.decision? (k + 1) = some d) :
    ∃ p, t.starts[k]? = some p ∧ t.lits[p]? = some d := by
  unfold decision? at h
  exact Option.bind_eq_some_iff.mp h

theorem mem_of_mem_decisionsTo {k : Nat} {d : Lit} (h : d ∈ t.decisionsTo k) :
    d ∈ t.lits.toList := by
  obtain ⟨i, -, hi⟩ := List.mem_filterMap.mp h
  obtain ⟨p, -, hp⟩ := decision?_eq_some hi
  exact Array.mem_toList_iff.mpr (Array.mem_of_getElem? hp)

/-- No variable is decided twice. -/
theorem Wf.nodup_decisionsTo (h : t.Wf count) (k : Nat) :
    ((t.decisionsTo k).map Lit.var).Nodup := by
  unfold decisionsTo
  rw [List.map_filterMap]
  refine List.Nodup.filterMap (fun i j v hi hj => ?_) List.nodup_range
  obtain ⟨d, hd, rfl⟩ := Option.map_eq_some_iff.mp hi
  obtain ⟨d', hd', hvar⟩ := Option.map_eq_some_iff.mp hj
  obtain ⟨p, hp, hpd⟩ := decision?_eq_some hd
  obtain ⟨q, hq, hqd⟩ := decision?_eq_some hd'
  obtain rfl : d' = d := h.eq_of_var_eq (Array.mem_toList_iff.mpr (Array.mem_of_getElem? hqd))
    (Array.mem_toList_iff.mpr (Array.mem_of_getElem? hpd)) hvar
  rw [← Array.getElem?_toList] at hp hq hpd hqd
  obtain rfl : p = q := (List.getElem?_inj (List.getElem?_eq_some_iff.mp hpd).1
    (h.nodup.of_map _)).mp (hpd.trans hqd.symm)
  exact (List.getElem?_inj (List.getElem?_eq_some_iff.mp hp).1
    (h.startsSorted.imp Nat.ne_of_lt)).mp (hp.trans hq.symm)

end Trail

namespace Solver

variable {F : List Clause} {b s s' : Solver} {n₀ : Nat} {c : Component}

/-- **The component has all open variables of its clauses**, as far as these
are not satisfied. -/
def Spans (s : Solver) (c : Component) : Prop :=
  ∀ id ∈ c.clauses, s.isSatisfied id = false → ∀ l ∈ s.store.lits id,
    s.trail.isAssigned l.var = false → l.var ∈ c.vars

theorem Sound.isSatisfied_iff (hs : Sound F s) (id : ClauseId) :
    s.isSatisfied id = true ↔ ∃ l ∈ s.store.lits id, l ∈ s.trail.lits.toList := by
  unfold isSatisfied
  rw [List.any_eq_true]
  exact exists_congr fun l => and_congr_right fun _ => hs.trail.isTrue_iff

theorem index_lt_of_mem_initComponent {v : Var} (h : v ∈ s.initComponent.vars) :
    v.index < s.varCount :=
  Var.mem_range.mp (List.mem_of_mem_filter (Component.mem_vars_ofLists.mp h))

theorem mem_clauses_initComponent {id : ClauseId} (h : id ∈ s.initComponent.clauses) :
    id < s.store.long.size ∧ (s.store.clause id).learnt = false := by
  obtain ⟨⟨id', d⟩, hd, rfl⟩ := List.mem_map.mp (Component.mem_clauses_ofLists.mp h)
  obtain ⟨hlong, hgiven⟩ := List.mem_filter.mp (List.mem_of_mem_filter hd)
  obtain ⟨k, hk, heq⟩ := List.mem_map.mp hlong
  obtain ⟨rfl, rfl⟩ := Prod.mk.inj heq
  exact ⟨List.mem_range.mp hk, by simpa using hgiven⟩

theorem Sound.spans_initComponent (hs : Sound F s) : s.Spans s.initComponent := by
  intro id hid _ l hl hopen
  obtain ⟨hlt, hgiven⟩ := mem_clauses_initComponent hid
  exact hs.mem_initComponent (Or.inl ⟨id, hlt, hgiven, rfl⟩) hl hopen

/-- Propagation leaves fewer open variables. -/
theorem Grown.isOpen {v : Var} (hg : Grown s s') (hs : Sound F s) (hs' : Sound F s')
    (hopen : s'.trail.isAssigned v = false) : s.trail.isAssigned v = false := by
  by_contra hyes
  obtain ⟨m, hm, hv⟩ := hs.trail.isAssigned_iff.mp (by simpa using hyes)
  rw [hs'.trail.isAssigned_iff.mpr ⟨m, hg.lits.subset hm, hv⟩] at hopen
  cases hopen

theorem Spans.grown (h : s.Spans c) (hs : Sound F s) (hs' : Sound F s') (hg : Grown s s') :
    s'.Spans c := by
  intro id hid hsat l hl hopen
  refine h id hid ?_ l ((hg.store.perm id).mem_iff.mp hl) (hg.isOpen hs hs' hopen)
  by_contra hyes
  obtain ⟨m, hm, ht⟩ := (hs.isSatisfied_iff id).mp (by simpa using hyes)
  have := (hs'.isSatisfied_iff id).mpr
    ⟨m, (hg.store.perm id).mem_iff.mpr hm, hg.lits.subset ht⟩
  rw [this] at hsat
  cases hsat

/-- **The renamed copy holds** under every valuation that completes the
assignment. -/
theorem renamedClauses_hold {r : Renaming} {ν : Valuation} (hs : Sound F s)
    (hr : r.Numbers (c.vars.filter fun v => !s.trail.isAssigned v)) (hspans : s.Spans c)
    (hids : ∀ id ∈ c.clauses, id < s.store.long.size) (hν : Completes F s ν) :
    ∀ d ∈ s.renamedClauses c (c.vars.filter fun v => !s.trail.isAssigned v) r,
      d.holds (r.pull ν) = true := by
  intro d hd
  rcases List.mem_append.mp hd with hd | hd
  · obtain ⟨id, hid, rfl⟩ := List.mem_map.mp hd
    obtain ⟨hid, hsat⟩ := List.mem_filter.mp hid
    obtain ⟨l, hl, hholds⟩ := Clause.holds_iff.mp (hs.entailed.clause (hids id hid) ν hν.1)
    -- the true literal is open, as it is not on the trail
    have hopen : s.trail.isAssigned l.var = false := by
      by_contra hassigned
      obtain ⟨x, hx, hv⟩ := hs.trail.isAssigned_iff.mp (by simpa using hassigned)
      obtain rfl : x = l := Lit.eq_of_holds hv (hν.2 x hx) hholds
      have := (hs.isSatisfied_iff id).mpr ⟨x, hl, hx⟩
      simp [this] at hsat
    have hv : l.var ∈ c.vars.filter fun v => !s.trail.isAssigned v :=
      List.mem_filter.mpr ⟨hspans id hid (by simpa using hsat) l hl hopen, by simpa using hopen⟩
    obtain ⟨m, hm⟩ := hr.rename_of_mem hv
    refine Clause.holds_iff.mpr ⟨m, List.mem_filterMap.mpr ⟨l, hl, hm⟩, ?_⟩
    rw [← r.holds_restore, hr.restore_of_rename hm]
    exact hholds
  · obtain ⟨v, -, hd⟩ := List.mem_flatMap.mp hd
    obtain ⟨l, -, hd⟩ := List.mem_flatMap.mp hd
    obtain ⟨other, hother, hsome⟩ := List.mem_filterMap.mp hd
    split at hsome
    · rename_i x y hx hy
      split at hsome
      · obtain rfl := Option.some.inj hsome
        have hpair := hs.entailed.given (Or.inr ⟨l, other, hother, rfl⟩) ν hν.1
        rw [Clause.holds_pair, ← hr.restore_of_rename hx, ← hr.restore_of_rename hy] at hpair
        exact Clause.holds_pair.mpr hpair
      · cases hsome
    · cases hsome

/-- The copy is over new variables. -/
theorem rename_of_mem_renamedClauses {r : Renaming} {vs : List Var} {d : Clause}
    (hd : d ∈ s.renamedClauses c vs r) {k : Lit} (hk : k ∈ d) : ∃ l, r.rename? l = some k := by
  rcases List.mem_append.mp hd with hd | hd
  · obtain ⟨id, -, rfl⟩ := List.mem_map.mp hd
    obtain ⟨l, -, hl⟩ := List.mem_filterMap.mp hk
    exact ⟨l, hl⟩
  · obtain ⟨v, -, hd⟩ := List.mem_flatMap.mp hd
    obtain ⟨l, -, hd⟩ := List.mem_flatMap.mp hd
    obtain ⟨m, -, hsome⟩ := List.mem_filterMap.mp hd
    split at hsome
    · rename_i x y hx hy
      split at hsome
      · obtain rfl := Option.some.inj hsome
        rcases List.mem_pair.mp hk with rfl | rfl
        · exact ⟨l, hx⟩
        · exact ⟨m, hy⟩
      · cases hsome
    · cases hsome

theorem over_renamedClauses {r : Renaming} (hr : r.Numbers (s.openVars c)) :
    BackboneEngine.Over (s.renamedClauses c (s.openVars c) r) r.size := by
  intro d hd k hk
  obtain ⟨l, hl⟩ := rename_of_mem_renamedClauses hd hk
  exact (hr.of_rename hl).2

/-! ## Storing what was found -/

/-- **What is true in all completing valuations** follows from the clauses, if
the decisions are named. -/
theorem Sound.entails_of_completes (hs : Sound F s) {d : Clause}
    (hd : ∀ ν, Completes F s ν → d.holds ν = true) :
    Entails F (d ++ s.trail.decisionClause.reverse) := by
  intro ν hν
  by_cases hdec : ∀ l ∈ s.trail.decisionsTo s.trail.level, l.holds ν = true
  · have hall : ∀ l ∈ s.trail.lits.toList, l.holds ν = true := by
      have hlits : s.trail.lits.toList = s.trail.lits.toList ++ [] := (List.append_nil _).symm
      refine hs.holds_of_decisions hν hlits
        fun q l r hsplit hstart => hdec l (hs.trail.mem_decisionsTo hsplit hstart ?_)
      rw [Trail.levelStart_of_level_lt (Nat.lt_succ_self _), ← Array.length_toList, hsplit,
        List.length_append, List.length_cons]
      omega
    exact Clause.holds_mono (fun _ => List.mem_append_left _) (hd ν ⟨hν, hall⟩)
  · -- a decision is false, so its opposite is true
    push Not at hdec
    obtain ⟨l, hl, hfalse⟩ := hdec
    refine Clause.holds_iff.mpr ⟨l.neg, List.mem_append_right _ (List.mem_reverse.mpr ?_),
      Lit.neg_holds_of_not (by simpa using hfalse)⟩
    rw [Trail.decisionClause_eq]
    exact List.mem_map_of_mem hl

/-- Learning a clause whose first literal is open keeps the level, and what is
settled. -/
theorem AtLevel.learns {first : Lit} {rest : List Lit} (h : AtLevel F b n₀ s)
    (hs' : Sound F s') (hl : Learns first rest s s') (hopen : s.trail.isAssigned first.var = false) :
    AtLevel F b n₀ s' := by
  have htrail : s'.trail = s.trail := (congrArg Solver.trail hl.others).symm
  refine ⟨hs', h.within.learns hl, (congrArg Trail.level htrail).trans h.level,
    fun done hb => ?_⟩
  obtain ⟨n, hn₀, hn⟩ := h.settled done hb
  have hno := h.sound.trail.not_mem_of_not_assigned (l := first.neg) hopen
  exact ⟨n, hn₀, htrail ▸ hn.head, htrail ▸ hn.size,
    htrail ▸ hl.settled _ _ (fun hm => hno (List.mem_of_mem_take hm)) hn.settled⟩

theorem AtLevel.withStats (h : AtLevel F b n₀ s) (stats : Statistics) :
    AtLevel F b n₀ { s with stats := stats } :=
  ⟨h.sound, h.within, h.level, fun done hb => (h.settled done hb).imp fun _ hn =>
    ⟨hn.1, hn.2.head, hn.2.size, hn.2.settled⟩⟩

/-- The opposites of the decisions are false. -/
theorem neg_mem_of_mem_decisionClause {l : Lit} (hl : l ∈ s.trail.decisionClause) :
    l.neg ∈ s.trail.lits.toList := by
  rw [Trail.decisionClause_eq] at hl
  obtain ⟨d, hd, rfl⟩ := List.mem_map.mp hl
  rw [Lit.neg_neg]
  exact Trail.mem_of_mem_decisionsTo hd

/-- **Open literals are learnt together with the decisions**, if one of them is
true in every completing valuation. -/
theorem learnImplied_spec (first : Lit) (more : List Lit) {learnt : Learnt} (hs : Sound F s)
    (hd : ∀ ν, Completes F s ν → Clause.holds ν (first :: more) = true)
    (hopen : ∀ l ∈ first :: more, s.trail.isAssigned l.var = false)
    (hnodup : ((first :: more).map Lit.var).Nodup)
    (hrange : ∀ l ∈ first :: more, l.var.index < s.varCount)
    (h : s.learnImplied first more = (learnt, s')) :
    Sound F s' ∧ Learns first (more ++ s.trail.decisionClause.reverse) s s'
      ∧ Learnt.Valid F s' learnt
      ∧ learnt.lits = first :: (more ++ s.trail.decisionClause.reverse) := by
  obtain ⟨rfl, rfl⟩ := Prod.mk.inj h
  have hfalse : ∀ l ∈ s.trail.decisionClause.reverse, l.neg ∈ s.trail.lits.toList := fun l hl =>
    neg_mem_of_mem_decisionClause (List.mem_reverse.mp hl)
  have hall : ((first :: (more ++ s.trail.decisionClause.reverse)).map Lit.var).Nodup := by
    rw [← List.cons_append, List.map_append, List.nodup_append]
    refine ⟨hnodup, ?_, ?_⟩
    · rw [List.map_reverse, List.nodup_reverse, Trail.decisionClause_eq, List.map_map]
      exact hs.trail.nodup_decisionsTo s.trail.level
    · -- the decisions are assigned, the others are not
      rintro v hv w hw rfl
      obtain ⟨l, hl, rfl⟩ := List.mem_map.mp hv
      obtain ⟨m, hm, hvar⟩ := List.mem_map.mp hw
      have := hs.trail.isAssigned_iff.mpr ⟨m.neg, hfalse m hm, hvar⟩
      rw [hopen l hl] at this
      cases this
  have hin : ∀ l ∈ first :: (more ++ s.trail.decisionClause.reverse),
      l.var.index < s.varCount := by
    intro l hl
    rw [← List.cons_append, List.mem_append] at hl
    exact hl.elim (hrange l) fun hl => hs.trail.inRange l.neg (hfalse l hl)
  obtain ⟨hs', hl, hval⟩ := storeClause_valid hs (hs.entails_of_completes hd) hall hin rfl
  exact ⟨hs', hl, hval, rfl⟩

/-- What completes more of the assignment completes less of it. -/
theorem Completes.of_subset {ν : Valuation} (h : Completes F s' ν)
    (hsub : ∀ l ∈ s.trail.lits.toList, l ∈ s'.trail.lits.toList) : Completes F s ν :=
  ⟨h.1, fun l hl => h.2 l (hsub l hl)⟩

/-- A sure literal is learnt and asserted. -/
theorem AtLevel.assertSure {l : Lit} {learnt : Learnt} (h : AtLevel F b n₀ s)
    (hl : l.var.index < s.varCount) (hopen : s.trail.isAssigned l.var = false)
    (hsure : ∀ ν, Completes F s ν → l.holds ν = true) (hr : s.learnImplied l [] = (learnt, s')) :
    AtLevel F b n₀ (s'.assertLearnt learnt)
      ∧ (s'.assertLearnt learnt).trail.lits.toList = s.trail.lits.toList ++ [l] := by
  obtain ⟨hs', hlearns, hval, hlits⟩ := learnImplied_spec l [] h.sound
    (fun ν hν => Clause.holds_singleton.mpr (hsure ν hν)) (by simpa using hopen) (by simp)
    (by simpa using hl) hr
  have htrail : s'.trail = s.trail := (congrArg Solver.trail hlearns.others).symm
  have hopen' : s'.trail.isAssigned l.var = false := by rw [htrail]; exact hopen
  have hrest : ∀ m ∈ [] ++ s.trail.decisionClause.reverse, m.neg ∈ s'.trail.lits.toList := by
    intro m hm
    rw [htrail]
    exact neg_mem_of_mem_decisionClause (List.mem_reverse.mp hm)
  obtain ⟨-, hasserted⟩ := assertLearnt_spec hs' hval hlits hopen' hrest
  refine ⟨(h.learns hs' hlearns hopen).asserted hlits hval hrest hopen', ?_⟩
  rw [← htrail]
  exact hasserted.lits

/-- **Asserting an implied literal.** Its variable has a value then, unless it
is to be left out. -/
theorem AtLevel.assertImplied {l : Lit} (h : AtLevel F b n₀ s) (hl : l.var.index < s.varCount)
    (hsure : ∀ ν, Completes F s ν → l.holds ν = true) (projected : Bool) :
    AtLevel F b n₀ (s.assertImplied projected l)
      ∧ s.trail.lits.toList <+: (s.assertImplied projected l).trail.lits.toList
      ∧ ((projected = true → s.isProjected l.var = true) →
        (s.assertImplied projected l).trail.isAssigned l.var = true) := by
  unfold Solver.assertImplied
  split
  · rename_i hcond
    refine ⟨h, List.prefix_refl _, fun hproj => ?_⟩
    cases projected <;> simp_all
  · rename_i hcond
    have hopen : s.trail.isAssigned l.var = false := by
      by_contra ha
      exact hcond (by simp [ha])
    have h₀ : AtLevel F b n₀ (s.countBackbone fun b => { b with forced := b.forced + 1 }) :=
      h.withStats _
    obtain ⟨hnext, hlits⟩ := h₀.assertSure hl hopen hsure (Prod.eta _).symm
    refine ⟨hnext, ⟨[l], hlits.symm⟩, fun _ => hnext.sound.trail.isAssigned_iff.mpr ⟨l, ?_, rfl⟩⟩
    rw [hlits]
    exact List.mem_append_right _ List.mem_cons_self

/-- **Storing an implied binary clause.** -/
theorem AtLevel.storeImplied {d : Lit × Lit} (h : AtLevel F b n₀ s)
    (hleft : d.1.var.index < s.varCount) (hright : d.2.var.index < s.varCount)
    (hne : d.2.var ≠ d.1.var)
    (hsure : ∀ ν, Completes F s ν → d.1.holds ν = true ∨ d.2.holds ν = true) :
    AtLevel F b n₀ (s.storeImplied d) ∧ (s.storeImplied d).trail = s.trail := by
  unfold Solver.storeImplied
  simp only
  split
  · exact ⟨h, rfl⟩
  · rename_i hcond
    have hopen₁ : s.trail.isAssigned d.1.var = false := by
      by_contra ha
      exact hcond (by simp [ha])
    have hopen₂ : s.trail.isAssigned d.2.var = false := by
      by_contra ha
      exact hcond (by simp [ha])
    have h₀ := h.withStats
      (s.countBackbone fun b => { b with impliedBinaries := b.impliedBinaries + 1 }).stats
    obtain ⟨hs₁, hlearns, -, -⟩ := learnImplied_spec d.1 [d.2] h₀.sound
      (fun ν hν => Clause.holds_pair.mpr (hsure ν hν)) (by simp [hopen₁, hopen₂])
      (by simpa using hne.symm) (by simp [hleft, hright]) rfl
    exact ⟨h₀.learns hs₁ hlearns hopen₁, (congrArg Solver.trail hlearns.others).symm⟩

/-- **All implied literals are asserted**, what is true in the valuations that
complete `s₁` being true later on as well. -/
theorem AtLevel.assertAll (units : List Lit) {s₁ : Solver} (h : AtLevel F b n₀ s)
    (hsub : ∀ l ∈ s₁.trail.lits.toList, l ∈ s.trail.lits.toList)
    (hunits : ∀ l ∈ units, l.var.index < b.varCount
      ∧ ∀ ν, Completes F s₁ ν → l.holds ν = true) (projected : Bool) :
    AtLevel F b n₀ (units.foldl (Solver.assertImplied projected) s)
      ∧ s.trail.lits.toList
        <+: (units.foldl (Solver.assertImplied projected) s).trail.lits.toList
      ∧ ∀ l ∈ units, (projected = true → b.isProjected l.var = true) →
        (units.foldl (Solver.assertImplied projected) s).trail.isAssigned l.var = true := by
  induction units generalizing s with
  | nil => exact ⟨h, List.prefix_refl _, fun _ hl => absurd hl List.not_mem_nil⟩
  | cons l rest ih =>
    obtain ⟨hrange, hsure⟩ := hunits l List.mem_cons_self
    obtain ⟨hnext, hpre, hassigned⟩ := h.assertImplied (h.within.varCount ▸ hrange)
      (fun ν hν => hsure ν (hν.of_subset hsub)) projected
    obtain ⟨hall, hpre', hrest⟩ := ih hnext (fun m hm => hpre.subset (hsub m hm))
      fun m hm => hunits m (List.mem_cons_of_mem _ hm)
    refine ⟨hall, hpre.trans hpre', fun m hm hproj => ?_⟩
    rcases List.mem_cons.mp hm with rfl | hm
    · have hsame : s.isProjected m.var = b.isProjected m.var :=
        congrArg (fun t : VarTable Bool => t[m.var]) h.within.projection
      obtain ⟨x, hx, hv⟩ := hnext.sound.trail.isAssigned_iff.mp
        (hassigned fun hp => hsame.trans (hproj hp))
      exact hall.sound.trail.isAssigned_iff.mpr ⟨x, hpre'.subset hx, hv⟩
    · exact hrest m hm hproj

/-- **All that the engine found is stored.** -/
theorem AtLevel.storeAll (units : List Lit) (binaries : List (Lit × Lit)) {s₁ : Solver}
    (h : AtLevel F b n₀ s) (hsub : ∀ l ∈ s₁.trail.lits.toList, l ∈ s.trail.lits.toList)
    (hunits : ∀ l ∈ units, l.var.index < b.varCount
      ∧ ∀ ν, Completes F s₁ ν → l.holds ν = true)
    (hbinaries : ∀ d ∈ binaries, d.1.var.index < b.varCount ∧ d.2.var.index < b.varCount
      ∧ d.2.var ≠ d.1.var
      ∧ ∀ ν, Completes F s₁ ν → d.1.holds ν = true ∨ d.2.holds ν = true) (projected : Bool) :
    AtLevel F b n₀ (binaries.foldl Solver.storeImplied
        (units.foldl (Solver.assertImplied projected) s))
      ∧ s.trail.lits.toList <+: (binaries.foldl Solver.storeImplied
        (units.foldl (Solver.assertImplied projected) s)).trail.lits.toList
      ∧ ∀ l ∈ units, (projected = true → b.isProjected l.var = true) →
        (binaries.foldl Solver.storeImplied
          (units.foldl (Solver.assertImplied projected) s)).trail.isAssigned l.var = true := by
  obtain ⟨hasserted, hpre, hassigned⟩ := h.assertAll units hsub hunits projected
  -- binary clauses are stored only, so the trail stays
  obtain ⟨hstored, htrail⟩ := List.foldlRecOn binaries _ (motive := fun t => AtLevel F b n₀ t
    ∧ t.trail = (units.foldl (Solver.assertImplied projected) s).trail) ⟨hasserted, rfl⟩
    fun t ht d hd => by
      obtain ⟨ht, heq⟩ := ht
      obtain ⟨hleft, hright, hne, hsure⟩ := hbinaries d hd
      have hsub' : ∀ l ∈ s₁.trail.lits.toList, l ∈ t.trail.lits.toList := fun l hl =>
        heq ▸ hpre.subset (hsub l hl)
      obtain ⟨hnext, hsame⟩ := ht.storeImplied (ht.within.varCount ▸ hleft)
        (ht.within.varCount ▸ hright) hne fun ν hν => hsure ν (hν.of_subset hsub')
      exact ⟨hnext, hsame.trans heq⟩
  exact ⟨hstored, htrail ▸ hpre, fun l hl hproj => htrail ▸ hassigned l hl hproj⟩

/-! ## Entering the models -/

/-- Entering a model touches the pool alone. -/
theorem enterModel_spec (r : Renaming) (ledger : ModelLedger) (s : Solver) (model : List Lit) :
    ∃ pool stats, (enterModel r ledger s model).2 = { s with pool := pool, stats := stats }
      ∧ s.pool.Extends pool := by
  refine ⟨_, _, rfl, ?_⟩
  -- the model is filled from the trail and then from the engine's literals
  have happend : ∀ (p : ModelPool) (m : Model) (xs ys : List Lit),
      (p.assignAll m xs).2.assignAll (p.assignAll m xs).1 ys = p.assignAll m (xs ++ ys) := by
    intro p m xs ys
    unfold ModelPool.assignAll
    rw [List.foldl_append]
  have halloc : s.pool.allocate s.varCount
      = ((s.pool.allocate s.varCount).1, (s.pool.allocate s.varCount).2) := rfl
  exact (ModelPool.fill_extends halloc
    (happend _ _ s.trail.lits.toList (model.map r.restore)).symm).1

/-- The pool may grow. -/
theorem Ready.withPool (h : Ready F b n₀ s) {pool : ModelPool} (hext : s.pool.Extends pool)
    (stats : Statistics) : Ready F b n₀ { s with pool := pool, stats := stats } :=
  ⟨h.sound, { h.within with pool := h.within.pool.trans hext }, h.level, h.settled⟩

theorem Ready.enterModels {r : Renaming} (models : List (List Lit)) (ledger : ModelLedger)
    (h : Ready F b n₀ s) :
    Ready F b n₀ (models.foldl (fun (ledger, s) model => enterModel r ledger s model)
        (ledger, s)).2
      ∧ (models.foldl (fun (ledger, s) model => enterModel r ledger s model) (ledger, s)).2.trail
        = s.trail := by
  induction models generalizing ledger s with
  | nil => exact ⟨h, rfl⟩
  | cons model rest ih =>
    obtain ⟨pool, stats, heq, hext⟩ := enterModel_spec r ledger s model
    obtain ⟨hready, htrail⟩ := ih (enterModel r ledger s model).1
      (s := (enterModel r ledger s model).2) (heq ▸ h.withPool hext stats)
    refine ⟨hready, htrail.trans ?_⟩
    rw [heq]

/-! ## The call -/

/-- **What a call gives with either engine.** It ends with a clause that was
derived from a conflict, or with everything settled. Any clause it reports
follows and is false. -/
structure Concluded (F : List Clause) (b : Solver) (n₀ : Nat)
    (result : Except ToolError ImpliedLiterals) (s : Solver) : Prop where
  state : (∃ clause, result = .ok (.unsatisfiable clause) ∧ Disproved F b n₀ clause s)
    ∨ Ready F b n₀ s
  refuted : ∀ clause, result = .ok (.unsatisfiable clause) →
    Entails F clause ∧ ∀ l ∈ clause, l.neg ∈ s.trail.lits.toList

namespace Concluded

variable {result : Except ToolError ImpliedLiterals}

theorem of_disproved {clause : Clause} (h : Disproved F b n₀ clause s) :
    Concluded F b n₀ (.ok (.unsatisfiable clause)) s := by
  refine ⟨Or.inl ⟨clause, rfl, h⟩, fun clause' hc => ?_⟩
  obtain rfl := ImpliedLiterals.unsatisfiable.inj (Except.ok.inj hc)
  exact ⟨h.entailed, h.isFalse⟩

theorem of_ready (h : Ready F b n₀ s) (hno : ∀ clause, result ≠ .ok (.unsatisfiable clause)) :
    Concluded F b n₀ result s :=
  ⟨Or.inr h, fun clause hc => absurd hc (hno clause)⟩

variable (h : Concluded F b n₀ result s)

include h

theorem sound : Sound F s := by
  rcases h.state with ⟨clause, -, hd⟩ | hready
  · exact hd.sound
  · exact hready.sound

theorem within : Within b s := by
  rcases h.state with ⟨clause, -, hd⟩ | hready
  · exact hd.within
  · exact hready.within

theorem level : s.level = b.level := by
  rcases h.state with ⟨clause, -, hd⟩ | hready
  · exact hd.level
  · exact hready.level

/-- The head may go back, and the scope and the list of literals change. -/
theorem rewind {c : Component} {start : Nat} (t : Solver) (scope : ScopeTable) (pos : Nat) :
    Concluded F b n₀ (result.map (t.reported c start))
      { s with scope := scope, trail := s.trail.rewind pos } := by
  have hsame : ∀ clause, result.map (t.reported c start) = .ok (.unsatisfiable clause) ↔
      result = .ok (.unsatisfiable clause) := by
    intro clause
    cases result with
    | error e => simp [Except.map]
    | ok implied => cases implied <;> simp [Except.map, reported]
  refine ⟨?_, fun clause hc => h.refuted clause ((hsame clause).mp hc)⟩
  rcases h.state with ⟨clause, hc, hd⟩ | hready
  · exact Or.inl ⟨clause, (hsame clause).mpr hc, hd.rewind scope pos⟩
  · exact Or.inr (hready.rewind scope pos)

end Concluded

/-- Without a completing valuation the decisions are refuted. -/
theorem Sound.entails_decisionClause (hs : Sound F s) (hno : ∀ ν, ¬ Completes F s ν) :
    Entails F s.trail.decisionClause := by
  have hent := hs.entails_of_completes (d := []) fun ν hν => absurd hν (hno ν)
  exact hent.perm (List.reverse_perm _)

/-! ### The engine on the open part of a component -/

/-- The numbers of a component's open variables in the engine. -/
def openNumbers (s : Solver) (c : Component) : Renaming :=
  Renaming.ofVars (s.openVars c) s.varCount

/-- The engine with the open clauses of a component and the models known. -/
def openEngine (P : SatProcedure) (s : Solver) (c : Component) (ledger : ModelLedger) :
    BackboneEngine P :=
  (ledger.models.filterMap (s.renamedModel (s.openVars c) (s.openNumbers c))).foldl
    BackboneEngine.addModel
    ((s.renamedClauses c (s.openVars c) (s.openNumbers c)).foldl BackboneEngine.addClause
      (BackboneEngine.new P (s.openNumbers c).size))

/-- The models of an answer are entered. -/
def enterAnswer (s : Solver) (r : Renaming) (ledger : ModelLedger) (answer : EngineAnswer) :
    ModelLedger × Solver :=
  answer.models.foldl (fun (ledger, s) model => enterModel r ledger s model) (ledger, s)

/-- Its literals and clauses are stored. -/
def storeAnswer (s : Solver) (r : Renaming) (projected : Bool) (answer : EngineAnswer) : Solver :=
  (answer.binaries.map fun (a, b) => (r.restore a, r.restore b)).foldl storeImplied
    ((answer.units.map r.restore).foldl (assertImplied projected) s)

/-- **A propagation that fails**, with the clause that is learnt from it. -/
def Fails (s : Solver) (result : Except ToolError ImpliedLiterals) (s' : Solver) : Prop :=
  ∃ conflict s₁ learnt, s.propagate = (some conflict, s₁)
    ∧ s₁.refute conflict = .ok (learnt, s') ∧ result = .ok (.unsatisfiable learnt.lits)

theorem AtLevel.fails {result : Except ToolError ImpliedLiterals} (h : AtLevel F b n₀ s)
    (hf : s.Fails result s') : Concluded F b n₀ result s' := by
  obtain ⟨conflict, s₁, learnt, hp, href, rfl⟩ := hf
  obtain ⟨hcon, hlevel⟩ := (h.propagate hp).2 conflict rfl
  exact .of_disproved (hcon.disproved hlevel href)

/-- **The parts of a call**: a propagation, a run of the engine, and what it
found stored and propagated. -/
theorem backboneByAssumptions_eq_ok {P : SatProcedure} {projected : Bool}
    {ledger ledger' : ModelLedger} {result : Except ToolError ImpliedLiterals}
    (hr : s.backboneByAssumptions P c ledger projected = .ok (result, ledger', s')) :
    s.Fails result s' ∨ ∃ s₁, s.propagate = (none, s₁)
      ∧ (∀ id ∈ c.clauses, id < s₁.store.long.size)
      ∧ ((∃ e, result = .error e ∧ s' = s₁)
        ∨ ∃ request answer e, (s₁.openEngine P c ledger).run request = .ok (answer, e)
          ∧ ((answer.satisfiable = false ∧ result = .ok (.unsatisfiable s₁.trail.decisionClause)
              ∧ s' = s₁)
            ∨ ∃ s₂ s₃, s₂ = (s₁.enterAnswer (s₁.openNumbers c) ledger answer).2
              ∧ s₃ = s₂.storeAnswer (s₁.openNumbers c) projected answer
              ∧ (({ s₃ with trail := s₃.trail.rewind s₂.trail.size } : Solver).Fails result s'
                ∨ (result = .ok (.forced [] true)
                  ∧ ({ s₃ with trail := s₃.trail.rewind s₂.trail.size } : Solver).propagate
                    = (none, s'))))) := by
  unfold backboneByAssumptions at hr
  split at hr
  · rename_i conflict s₁ hp
    obtain ⟨⟨learnt, s₂⟩, href, hr⟩ := Except.bind_eq_ok.mp hr
    obtain ⟨rfl, heq⟩ := Prod.mk.inj (Except.ok.inj hr)
    obtain ⟨rfl, rfl⟩ := Prod.mk.inj heq
    exact Or.inl ⟨conflict, s₁, learnt, hp, href, rfl⟩
  · rename_i s₁ hp
    obtain ⟨⟨⟩, hreq, hr⟩ := Except.bind_eq_ok.mp hr
    refine Or.inr ⟨s₁, hp, requireClauses_iff.mp hreq, ?_⟩
    simp only at hr
    split at hr
    · obtain ⟨rfl, heq⟩ := Prod.mk.inj (Except.ok.inj hr)
      obtain ⟨rfl, rfl⟩ := Prod.mk.inj heq
      exact Or.inl ⟨_, rfl, rfl⟩
    · rename_i answer e hrun
      refine Or.inr ⟨_, answer, e, hrun, ?_⟩
      split at hr
      · rename_i hdenied
        obtain ⟨rfl, heq⟩ := Prod.mk.inj (Except.ok.inj hr)
        obtain ⟨rfl, rfl⟩ := Prod.mk.inj heq
        exact Or.inl ⟨by simpa using hdenied, rfl, rfl⟩
      · refine Or.inr ⟨_, _, rfl, rfl, ?_⟩
        split at hr
        · rename_i conflict s₄ hp₄
          obtain ⟨⟨learnt, s₅⟩, href, hr⟩ := Except.bind_eq_ok.mp hr
          obtain ⟨rfl, heq⟩ := Prod.mk.inj (Except.ok.inj hr)
          obtain ⟨rfl, rfl⟩ := Prod.mk.inj heq
          exact Or.inl ⟨conflict, s₄, learnt, hp₄, href, rfl⟩
        · rename_i s₄ hp₄
          obtain ⟨rfl, heq⟩ := Prod.mk.inj (Except.ok.inj hr)
          obtain ⟨rfl, rfl⟩ := Prod.mk.inj heq
          exact Or.inr ⟨rfl, hp₄⟩

theorem numbers_open (hvars : ∀ v ∈ c.vars, v.index < s.varCount) :
    (s.openNumbers c).Numbers (s.openVars c) :=
  Renaming.numbers_ofVars _ fun v hv => hvars v (List.mem_of_mem_filter hv)

/-- **What the engine answers** is right for the completing valuations, read
through the renaming. -/
theorem openEngine_spec {P : SatProcedure} {ledger : ModelLedger} {request : EngineRequest}
    {answer : EngineAnswer} {e : BackboneEngine P} (hs : Sound F s)
    (hP : (P.Trusted ∧ s.Spans c) ∨ ¬ Satisfiable F) (hvars : ∀ v ∈ c.vars, v.index < s.varCount)
    (hids : ∀ id ∈ c.clauses, id < s.store.long.size)
    (hrun : (s.openEngine P c ledger).run request = .ok (answer, e)) :
    BackboneEngine.Right (fun μ => ∃ ν, Completes F s ν ∧ μ = (s.openNumbers c).pull ν)
      (s.openNumbers c).size answer := by
  let V : Valuation → Prop := fun μ => ∃ ν, Completes F s ν ∧ μ = (s.openNumbers c).pull ν
  have hP' : P.TrustedOn V := by
    refine hP.imp And.left fun hno μ hμ => ?_
    obtain ⟨ν, hν, -⟩ := hμ
    exact hno ⟨ν, hν.1⟩
  obtain ⟨hserves, hcount⟩ := (BackboneEngine.serves_new V P (s.openNumbers c).size).addClauses hP'
    (s.renamedClauses c (s.openVars c) (s.openNumbers c)) (over_renamedClauses (numbers_open hvars))
    fun d hd μ hμ => by
      obtain ⟨ν, hν, rfl⟩ := hμ
      have hspans := (hP.resolve_right fun hno => hno ⟨ν, hν.1⟩).2
      exact renamedClauses_hold hs (numbers_open hvars) hspans hids hν d hd
  obtain ⟨hmodels, hcount'⟩ := hserves.addModels
    (ledger.models.filterMap (s.renamedModel (s.openVars c) (s.openNumbers c)))
  have hright := BackboneEngine.run_spec hP' hmodels hrun
  rw [hcount', hcount] at hright
  exact hright

/-- What a right answer has is over open variables of the component. -/
theorem mem_restore {l : Lit} (hvars : ∀ v ∈ c.vars, v.index < s.varCount)
    (hl : l.var.index < (s.openNumbers c).size) :
    ((s.openNumbers c).restore l).var ∈ c.vars :=
  List.mem_of_mem_filter ((numbers_open hvars).restore_mem hl)

/-- **A right answer is stored** at the level of `b`. -/
theorem Ready.storeAnswer {answer : EngineAnswer} (ledger : ModelLedger) (projected : Bool)
    (h : Ready F b n₀ s) (hvars : ∀ v ∈ c.vars, v.index < s.varCount)
    (hright : BackboneEngine.Right
      (fun μ => ∃ ν, Completes F s ν ∧ μ = (s.openNumbers c).pull ν)
      (s.openNumbers c).size answer) :
    AtLevel F b n₀ ((s.enterAnswer (s.openNumbers c) ledger answer).2.storeAnswer
        (s.openNumbers c) projected answer)
      ∧ s.trail.lits.toList <+: ((s.enterAnswer (s.openNumbers c) ledger answer).2.storeAnswer
        (s.openNumbers c) projected answer).trail.lits.toList
      ∧ ∀ l ∈ answer.units.map (s.openNumbers c).restore,
        (projected = true → b.isProjected l.var = true) →
        ((s.enterAnswer (s.openNumbers c) ledger answer).2.storeAnswer
          (s.openNumbers c) projected answer).trail.isAssigned l.var = true := by
  obtain ⟨hentered, htrail⟩ := h.enterModels (r := s.openNumbers c) answer.models ledger
  have hrange : ∀ l : Lit, l.var.index < (s.openNumbers c).size →
      ((s.openNumbers c).restore l).var.index < b.varCount :=
    fun l hl => h.within.varCount ▸ hvars _ (mem_restore hvars hl)
  have hkept : ∀ l ∈ s.trail.lits.toList,
      l ∈ (s.enterAnswer (s.openNumbers c) ledger answer).2.trail.lits.toList := fun l hl =>
    (congrArg (fun t : Trail => t.lits.toList) htrail).symm ▸ hl
  have hstored := hentered.atLevel.storeAll (answer.units.map (s.openNumbers c).restore)
    (answer.binaries.map fun (x, y) => ((s.openNumbers c).restore x, (s.openNumbers c).restore y))
    hkept (fun l hl => ?_) (fun d hd => ?_) projected
  · rw [htrail] at hstored
    exact hstored
  · obtain ⟨m, hm, rfl⟩ := List.mem_map.mp hl
    have hsure := hright.units m hm
    exact ⟨hrange m hsure.inRange, fun ν hν => hsure.holds _ ⟨ν, hν, rfl⟩⟩
  · obtain ⟨m, hm, rfl⟩ := List.mem_map.mp hd
    have hsure := hright.binaries m hm
    exact ⟨hrange _ hsure.left, hrange _ hsure.right,
      (numbers_open hvars).restore_ne hsure.right hsure.left hsure.distinct,
      fun ν hν => hsure.holds _ ⟨ν, hν, rfl⟩⟩

theorem AtLevel.rewind (h : AtLevel F b n₀ s) (pos : Nat) :
    AtLevel F b n₀ { s with trail := s.trail.rewind pos } :=
  ⟨h.sound.rewind _, h.within.withHead _, h.level, fun done hb =>
    (h.settled done hb).imp fun _ hn =>
      ⟨hn.1, Nat.le_trans (Nat.min_le_left _ _) hn.2.head, hn.2.size, hn.2.settled⟩⟩

/-- **Implied literals by a SAT procedure**, in a state that starts from
`b`. -/
theorem backboneByAssumptions_spec {P : SatProcedure} {projected : Bool}
    {ledger ledger' : ModelLedger} {result : Except ToolError ImpliedLiterals}
    (hP : (P.Trusted ∧ s.Spans c) ∨ ¬ Satisfiable F)
    (hvars : ∀ v ∈ c.vars, v.index < b.varCount) (h : AtLevel F b n₀ s)
    (hr : s.backboneByAssumptions P c ledger projected = .ok (result, ledger', s')) :
    Concluded F b n₀ result s' := by
  rcases backboneByAssumptions_eq_ok hr with hf | ⟨s₁, hp, hids, hengine⟩
  · exact h.fails hf
  have hready := (h.propagate hp).1 rfl
  have hs₁ := hready.sound
  have hP₁ : (P.Trusted ∧ s₁.Spans c) ∨ ¬ Satisfiable F :=
    hP.imp_left fun ht => ⟨ht.1, ht.2.grown h.sound hs₁ (propagate_spec h.sound hp).1.grown⟩
  have hvars₁ : ∀ v ∈ c.vars, v.index < s₁.varCount := hready.within.varCount ▸ hvars
  rcases hengine with ⟨e, rfl, rfl⟩ | ⟨request, answer, e, hrun, hans⟩
  · exact .of_ready hready fun clause hc => (nomatch hc)
  have hright := openEngine_spec hs₁ hP₁ hvars₁ hids hrun
  rcases hans with ⟨hdenied, rfl, rfl⟩ | ⟨s₂, s₃, rfl, rfl, hend⟩
  · -- the component has no model under the assignment
    refine ⟨Or.inr hready, fun clause hc => ?_⟩
    obtain rfl := ImpliedLiterals.unsatisfiable.inj (Except.ok.inj hc)
    refine ⟨hs₁.entails_decisionClause fun ν hν => ?_, fun l hl =>
      neg_mem_of_mem_decisionClause hl⟩
    exact hright.refuted hdenied _ ⟨ν, hν, rfl⟩
  · have hstored := (hready.storeAnswer ledger projected hvars₁ hright).1.rewind
      (s₁.enterAnswer (s₁.openNumbers c) ledger answer).2.trail.size
    rcases hend with hf | ⟨rfl, hp₄⟩
    · exact hstored.fails hf
    · exact .of_ready ((hstored.propagate hp₄).1 rfl) fun clause hc => (nomatch hc)

/-- **An engine that may be called** on a component: the native one, or a
trusted procedure if the component has all open variables of its clauses. -/
def Callable (s : Solver) (P : SatProcedure) (c : Component) : Prop :=
  s.options.engine = .native ∨ (P.Trusted ∧ s.Spans c)

/-- **Implied literals with either engine**, in any state. Without a model of
`F` any engine will do. -/
theorem impliedLiterals_concludes {P : SatProcedure} {fuel : Nat} {projected : Bool}
    {ledger ledger' : ModelLedger} {result : Except ToolError ImpliedLiterals} (hs : Sound F s)
    (hcall : s.Callable P c ∨ ¬ Satisfiable F)
    (h : s.impliedLiterals P fuel c ledger projected = .ok (result, ledger', s')) (n₀ : Nat) :
    Concluded F s n₀ result s' := by
  cases hengine : s.options.engine with
  | native =>
    have himp := impliedLiterals_spec hs hengine h n₀
    obtain ⟨implied, rfl⟩ := himp.answered
    cases implied with
    | unsatisfiable clause => exact .of_disproved (himp.disproved clause rfl)
    | forced lits complete =>
      exact .of_ready (himp.forced lits complete rfl).1 fun clause hc => (nomatch hc)
  | external =>
    have hP : (P.Trusted ∧ s.Spans c) ∨ ¬ Satisfiable F := hcall.imp_left fun hc =>
      hc.resolve_left fun hn => nomatch hengine.symm.trans hn
    rcases impliedLiterals_eq_ok h with ⟨hconf, rfl, rfl, stats, rfl⟩
      | ⟨-, hvars, stats, r, s₂, hback, rfl, rfl⟩
    · exact .of_disproved (disproved_of_conflicted hs hconf n₀ stats)
    · unfold backbone at hback
      simp only [hengine] at hback
      have hstart : AtLevel F s n₀ { s with scope := s.scopeOf c, stats := stats } :=
        .start hs n₀ _ stats
      have hcon := backboneByAssumptions_spec (s := { s with scope := s.scopeOf c,
                                                             stats := stats }) hP hvars hstart hback
      rw [backtrackTo_of_le (Nat.le_of_eq hcon.level)]
      exact hcon.rewind _ _ _

theorem impliedLiterals_concluded {P : SatProcedure} {fuel : Nat} {projected : Bool}
    {ledger ledger' : ModelLedger} {result : Except ToolError ImpliedLiterals} (hs : Sound F s)
    (hcall : s.Callable P c)
    (h : s.impliedLiterals P fuel c ledger projected = .ok (result, ledger', s')) (n₀ : Nat) :
    Concluded F s n₀ result s' :=
  impliedLiterals_concludes hs (Or.inl hcall) h n₀

end Solver

end Cleave
