import Cleave.Proofs.Branching
import Cleave.Proofs.Forgetting
import Cleave.Proofs.Models

/-!
# Work above a level

Searches and probes start in some state `b` and never go below its level.
`Solver.Within b s` says what this leaves: the trail of `s` is that of `b`
with more behind it, its levels included, and the given clauses, the options
and the models known in `b` are still there. Everything that a search does keeps it, backtracking
included as long as it stops at the level of `b`.

Root facts that are learnt meanwhile and kept for later stand in the part of
the trail that belongs to `b`, so going back to that level or above asserts
nothing again (`Solver.Within.backtrackTo`). None of them is lost: a literal of
level 0 stands in the part of level 0 or is among the facts that are kept
(`Trail.Remembers`).
-/

namespace Cleave

/-! ## Parts of the trail -/

namespace Trail

variable {t t' : Trail} {count k : Nat}

/-- A part of the trail stays part of it while literals are added behind. -/
theorem take_levelStart_grow (hwf : t.Wf count) (hlits : t.lits.toList <+: t'.lits.toList)
    (hstarts : t'.starts = t.starts) {l : Lit} (hl : l ∈ t.lits.toList.take (t.levelStart k)) :
    l ∈ t'.lits.toList.take (t'.levelStart k) := by
  have hsize : t.lits.size ≤ t'.lits.size := by simpa using hlits.length_le
  have hn : t.levelStart k ≤ t'.levelStart k := by
    unfold levelStart
    split
    · exact Nat.le_refl _
    · rw [hstarts]
      cases t.starts[k - 1]? with
      | none => exact hsize
      | some p => exact Nat.le_refl _
  obtain ⟨more, hmore⟩ := hlits
  have hle := hwf.levelStart_le k
  have htake : t'.lits.toList.take (t.levelStart k) = t.lits.toList.take (t.levelStart k) := by
    rw [← hmore, List.take_append_of_le_length (by simpa using hle)]
  rw [← htake] at hl
  exact (List.take_subset_take_left _ hn) hl

theorem levelStart_decided (t : Trail) (l : Lit) (hk : k ≤ t.level) :
    (t.decided l).levelStart (k + 1) = t.levelStart (k + 1) := by
  have hlen : t.starts.toList.length = t.level := Array.length_toList
  rw [levelStart_succ, levelStart_succ, starts_decided]
  by_cases hlt : k < t.level
  · rw [List.getElem?_append_left (by omega)]
    rw [List.getElem?_eq_getElem (by omega)]
    rfl
  · have he : k = t.starts.toList.length := by omega
    rw [he]
    simp

/-- Above the current level nothing starts. -/
theorem levelStart_of_level_lt (hk : t.level < k) : t.levelStart k = t.lits.size := by
  obtain ⟨k, rfl⟩ : ∃ j, k = j + 1 := ⟨k - 1, by omega⟩
  have hlen : t.starts.toList.length = t.level := Array.length_toList
  rw [levelStart_succ, List.getElem?_eq_none (by omega)]
  rfl

theorem Wf.levelStart_mono (h : t.Wf count) {j : Nat} (hjk : j ≤ k) :
    t.levelStart j ≤ t.levelStart k := by
  cases j with
  | zero => exact Nat.zero_le _
  | succ j =>
    obtain ⟨k, rfl⟩ : ∃ i, k = i + 1 := ⟨k - 1, by omega⟩
    have hlen : t.starts.toList.length = t.level := Array.length_toList
    by_cases hk : k < t.starts.toList.length
    · rw [levelStart_eq_getElem hk, levelStart_eq_getElem (by omega)]
      rcases Nat.lt_or_eq_of_le (Nat.le_of_succ_le_succ hjk) with hlt | rfl
      · exact Nat.le_of_lt (List.pairwise_iff_getElem.mp h.startsSorted j k _ hk hlt)
      · exact Nat.le_refl _
    · rw [levelStart_of_level_lt (k := k + 1) (by omega)]
      exact h.levelStart_le _

/-! ## Root facts -/

/-- **No literal of level 0 is lost** when levels are taken back: it stands in
the part of level 0, or among the facts that are asserted again. -/
def Remembers (t : Trail) (facts : List Lit) : Prop :=
  ∀ l ∈ t.lits.toList, t.levelOf l.var = 0 → l ∈ t.roots ∨ l ∈ facts

theorem Remembers.of_level_zero (h0 : t.level = 0) (facts : List Lit) : t.Remembers facts :=
  fun _ hl _ => Or.inl (roots_of_level_zero h0 ▸ hl)

/-- Literals are added behind the trail. Above level 0 the root facts among
them are kept. -/
theorem Remembers.grow {facts facts' : List Lit} (h : t.Remembers facts) (hwf : t.Wf count)
    (hlits : t.lits.toList <+: t'.lits.toList) (hstarts : t'.starts = t.starts)
    (hlevels : ∀ l ∈ t.lits.toList, t'.levelOf l.var = t.levelOf l.var)
    (hfacts : ∀ l ∈ facts, l ∈ facts')
    (hnew : ∀ l ∈ t'.lits.toList, l ∉ t.lits.toList → t'.levelOf l.var = 0 →
      t.level = 0 ∨ l ∈ facts') : t'.Remembers facts' := by
  intro l hl h0
  by_cases hold : l ∈ t.lits.toList
  · exact (h l hold (hlevels l hold ▸ h0)).imp
      (fun hroot => take_levelStart_grow hwf hlits hstarts hroot) (hfacts l)
  · refine (hnew l hl hold h0).imp_left fun hlevel => ?_
    rw [roots_of_level_zero ((congrArg Array.size hstarts).trans hlevel)]
    exact hl

/-- A decision is no root fact. -/
theorem Remembers.decided {facts : List Lit} (h : t.Remembers facts) (hwf : t.Wf count) {l : Lit}
    (hl : l.var.index < count) (hopen : t.isAssigned l.var = false) :
    (t.decided l).Remembers facts := by
  intro m hm h0
  rw [lits_decided] at hm
  rcases List.mem_append.mp hm with hm | hm
  · rw [levelOf_decided_ne t (hwf.var_ne_of_open hopen m hm)] at h0
    refine (h m hm h0).imp_left fun hroot => ?_
    show m ∈ (t.decided l).lits.toList.take ((t.decided l).levelStart 1)
    rw [levelStart_decided t l (Nat.zero_le _), lits_decided, List.take_append]
    exact List.mem_append_left _ hroot
  · rw [List.mem_singleton.mp hm, levelOf_decided_self hwf.sizeLevels hl] at h0
    exact absurd h0 (Nat.succ_ne_zero _)

/-! ## Decisions -/

/-- The decisions of the levels from 1 to `k`. -/
def decisionsTo (t : Trail) (k : Nat) : List Lit :=
  (List.range k).filterMap fun i => t.decision? (i + 1)

/-- What starts a level is its decision. -/
theorem Wf.mem_decisionsTo {t : Trail} {count : Nat} (h : t.Wf count) {k : Nat}
    {pre post : List Lit} {d : Lit} (hsplit : t.lits.toList = pre ++ d :: post)
    (hstart : pre.length ∈ t.starts.toList) (hlt : pre.length < t.levelStart (k + 1)) :
    d ∈ t.decisionsTo k := by
  obtain ⟨i, hi, hget⟩ := List.mem_iff_getElem.mp hstart
  -- a level above `k` would start later
  have hik : i < k := by
    by_contra hki
    have hmono := h.levelStart_mono (j := k + 1) (k := i + 1) (by omega)
    rw [levelStart_eq_getElem hi, hget] at hmono
    omega
  refine List.mem_filterMap.mpr ⟨i, List.mem_range.mpr hik, ?_⟩
  rw [decision?_succ, List.getElem?_eq_getElem hi, hget, Option.bind_some, hsplit]
  simp

end Trail

namespace Solver

variable {F : List Clause} {b s s' : Solver}

/-- Backtracking keeps the root facts. -/
theorem Cut.roots {k : Nat} (hc : Cut k s s') (hs : Sound F s) (hk : k < s.level) :
    ∀ l ∈ s.trail.roots, l ∈ s'.trail.roots := by
  intro l hl
  cases k with
  | zero =>
    obtain ⟨more, hlits, -⟩ := hc.lits
    rw [Trail.roots_of_level_zero (hc.level hk), hlits]
    exact List.mem_append_left _ hl
  | succ k =>
    unfold Trail.roots at hl ⊢
    have hbelow := hc.take_eq (hs.trail.levelStart_mono (by omega)) (hs.trail.levelStart_le 1)
    rw [hc.levelStart_eq hk (Nat.succ_pos k), hbelow]
    exact hl

/-- Whatever has level 0 before backtracking is on the trail afterwards. -/
theorem Cut.mem_of_level_zero {k : Nat} (hc : Cut k s s') (hs : Sound F s) (hk : k < s.level)
    (h : s.trail.Remembers s.pendingFacts) {l : Lit} (hl : l ∈ s.trail.lits.toList)
    (h0 : s.trail.levelOf l.var = 0) : l ∈ s'.trail.lits.toList :=
  (h l hl h0).elim (fun hroot => List.mem_of_mem_take (hc.roots hs hk l hroot)) (hc.restored l)

/-- Backtracking brings every fact back that it takes away. -/
theorem Cut.remembers {k : Nat} (hc : Cut k s s') (hs : Sound F s) (hk : k < s.level)
    (h : s.trail.Remembers s.pendingFacts) : s'.trail.Remembers s'.pendingFacts := by
  rcases Nat.eq_zero_or_pos k with rfl | hpos
  · exact .of_level_zero (hc.level hk) _
  · intro l hl h0
    have hold : l ∈ s.trail.lits.toList := by
      obtain ⟨more, hlits, hmore⟩ := hc.lits
      rw [hlits] at hl
      rcases List.mem_append.mp hl with hl | hl
      · exact List.mem_of_mem_take hl
      · exact (hs.pending l (hmore l hl).1).1
    rw [hc.pending, if_neg (Nat.ne_of_gt hpos)]
    exact (h l hold (hc.levels l.var ▸ h0)).imp_left (hc.roots hs hk l)

/-- What the parts of a state have in common with the state `b` it started
from. -/
structure Above (b : Solver) (count : Nat) (options : Options) (projection : VarTable Bool)
    (pool : ModelPool) (store : ClauseStore) (t : Trail) (facts : List Lit) : Prop where
  varCount : count = b.varCount
  options : options = b.options
  projection : projection = b.projection
  pool : b.pool.Extends pool
  given : b.store.KeepsGiven store
  starts : b.trail.starts.toList <+: t.starts.toList
  lits : b.trail.lits.toList <+: t.lits.toList
  levels : ∀ l ∈ b.trail.lits.toList, t.levelOf l.var = b.trail.levelOf l.var
  above : ∀ p ∈ t.starts.toList.drop b.level, b.trail.lits.size ≤ p
  pending : ∀ l ∈ facts, l ∈ t.lits.toList.take (t.levelStart (b.level + 1))
  remembers : b.trail.Remembers b.pendingFacts → t.Remembers facts

/-- **Work above a level.** -/
abbrev Within (b s : Solver) : Prop :=
  Above b s.varCount s.options s.projection s.pool s.store s.trail s.pendingFacts

namespace Within

theorem refl (hs : Sound F s) : Within s s where
  varCount := rfl
  options := rfl
  projection := rfl
  pool := .refl _
  given := .refl _
  starts := List.prefix_refl _
  lits := List.prefix_refl _
  levels := fun _ _ => rfl
  above := by
    intro p hp
    have hlen : s.trail.starts.toList.length = s.level := Array.length_toList
    rw [List.drop_of_length_le (by omega)] at hp
    exact absurd hp List.not_mem_nil
  pending := by
    intro l hl
    have hend : s.trail.levelStart (s.level + 1) = s.trail.lits.size :=
      Trail.levelStart_of_level_lt (Nat.lt_succ_self _)
    rw [hend, List.take_of_length_le (by simp)]
    exact (hs.pending l hl).1
  remembers := id

theorem level_le (h : Within b s) : b.level ≤ s.level := by
  have hlen : b.trail.starts.toList.length = b.level := Array.length_toList
  have hlen' : s.trail.starts.toList.length = s.level := Array.length_toList
  rw [← hlen, ← hlen']
  exact h.starts.length_le

theorem size_le (h : Within b s) : b.trail.lits.size ≤ s.trail.lits.size := by
  simpa using h.lits.length_le

/-- A level above that of `b` starts behind the trail of `b`. -/
theorem size_le_levelStart (h : Within b s) {k : Nat} (hk : b.level ≤ k) :
    b.trail.lits.size ≤ s.trail.levelStart (k + 1) := by
  rw [Trail.levelStart_succ]
  cases hget : s.trail.starts.toList[k]? with
  | none => exact h.size_le
  | some p =>
    refine h.above p (List.mem_iff_getElem?.mpr ⟨k - b.level, ?_⟩)
    rw [List.getElem?_drop, show b.level + (k - b.level) = k by omega]
    exact hget

/-- The trail of `b` stands in front. -/
theorem mem_take (h : Within b s) {l : Lit} (hl : l ∈ b.trail.lits.toList) {n : Nat}
    (hn : b.trail.lits.size ≤ n) : l ∈ s.trail.lits.toList.take n := by
  obtain ⟨more, hmore⟩ := h.lits
  rw [← hmore, List.take_append, List.take_of_length_le (by simpa using hn)]
  exact List.mem_append_left _ hl

/-- Literals behind the trail, no new level. -/
theorem grow (h : Within b s) {t : Trail} {facts : List Lit}
    (hlits : s.trail.lits.toList <+: t.lits.toList) (hstarts : t.starts = s.trail.starts)
    (hlevels : ∀ l ∈ s.trail.lits.toList, t.levelOf l.var = s.trail.levelOf l.var)
    (hpending : ∀ l ∈ facts, l ∈ t.lits.toList.take (t.levelStart (b.level + 1)))
    (hremembers : s.trail.Remembers s.pendingFacts → t.Remembers facts) :
    Within b { s with trail := t, pendingFacts := facts } where
  varCount := h.varCount
  options := h.options
  projection := h.projection
  pool := h.pool
  given := h.given
  starts := hstarts ▸ h.starts
  lits := h.lits.trans hlits
  levels := fun l hl => (hlevels l (h.lits.subset hl)).trans (h.levels l hl)
  above := hstarts ▸ h.above
  pending := hpending
  remembers := fun hb => hremembers (h.remembers hb)

theorem grown (h : Within b s) (hs : Sound F s) (hg : Grown s s') : Within b s' := by
  have hremembers : s.trail.Remembers s.pendingFacts → s'.trail.Remembers s.pendingFacts :=
    fun hr => hr.grow hs.trail hg.lits hg.starts hg.levels (fun _ hl => hl)
      fun l hl hno h0 => Or.inl ((hg.current l hl hno).symm.trans h0)
  have hgrow := h.grow hg.lits hg.starts hg.levels
    (fun l hl => Trail.take_levelStart_grow hs.trail hg.lits hg.starts (h.pending l hl)) hremembers
  rw [← hg.others]
  exact { hgrow with given := h.given.trans hg.store.keepsGiven }

theorem learns (h : Within b s) {first : Lit} {rest : List Lit}
    (hl : Learns first rest s s') : Within b s' := by
  rw [← hl.others]
  exact { h with given := h.given.trans hl.given }

theorem reduced (h : Within b s) (hr : Reduced s s') : Within b s' := by
  rw [← hr.others]
  exact { h with given := h.given.trans hr.given }

/-- A literal is asserted. A root fact above level 0 stands in the part of
`b`. -/
theorem asserted (h : Within b s) (hwf : s.trail.Wf s.varCount) {l : Lit}
    (ha : Asserted l s s') (hlow : s'.pendingFacts ≠ s.pendingFacts → s.level = b.level) :
    Within b s' := by
  have hprefix : s.trail.lits.toList <+: s'.trail.lits.toList := ⟨[l], ha.lits.symm⟩
  rw [← ha.others]
  refine h.grow hprefix ha.starts ha.levels (fun m hm => ?_) fun hr =>
    hr.grow hwf hprefix ha.starts ha.levels ha.kept fun m hm hno h0 => ?_
  · by_cases hsame : s'.pendingFacts = s.pendingFacts
    · exact Trail.take_levelStart_grow hwf hprefix ha.starts (h.pending m (hsame ▸ hm))
    · have hlevel : s'.level = s.level := congrArg Array.size ha.starts
      have hend : s'.trail.levelStart (b.level + 1) = s'.trail.lits.size :=
        Trail.levelStart_of_level_lt (by
          show s'.level < _
          rw [hlevel, hlow hsame]
          exact Nat.lt_succ_self _)
      rw [hend, List.take_of_length_le (by simp), ha.lits]
      rcases ha.pending m hm with hm | rfl
      · exact List.mem_append_left _ (List.mem_of_mem_take (h.pending m hm))
      · simp
  · rw [ha.lits] at hm
    have hml : m = l := List.mem_singleton.mp ((List.mem_append.mp hm).resolve_left hno)
    rw [hml] at h0 ⊢
    exact ha.remembered h0

theorem decided (h : Within b s) (hwf : s.trail.Wf s.varCount) {l : Lit}
    (hl : l.var.index < s.varCount) (hopen : s.trail.isAssigned l.var = false) :
    Within b (s.openDecision l) where
  varCount := h.varCount
  options := h.options
  projection := h.projection
  pool := h.pool
  given := h.given
  starts := by
    show _ <+: (s.trail.decided l).starts.toList
    rw [Trail.starts_decided]
    exact h.starts.trans (List.prefix_append _ _)
  lits := by
    show _ <+: (s.trail.decided l).lits.toList
    rw [Trail.lits_decided]
    exact h.lits.trans (List.prefix_append _ _)
  levels := fun m hm =>
    (Trail.levelOf_decided_ne _ (hwf.var_ne_of_open hopen m (h.lits.subset hm))).trans
      (h.levels m hm)
  above := by
    intro p hp
    have hp : p ∈ (s.trail.decided l).starts.toList.drop b.level := hp
    have hlen : s.trail.starts.toList.length = s.level := Array.length_toList
    rw [Trail.starts_decided, List.drop_append_of_le_length (by rw [hlen]; exact h.level_le)] at hp
    rcases List.mem_append.mp hp with hp | hp
    · exact h.above p hp
    · rw [List.mem_singleton.mp hp]
      exact h.size_le
  pending := by
    intro m hm
    have hm := h.pending m hm
    show m ∈ (s.trail.decided l).lits.toList.take ((s.trail.decided l).levelStart (b.level + 1))
    rw [Trail.levelStart_decided _ _ h.level_le, Trail.lits_decided]
    rw [List.take_append]
    exact List.mem_append_left _ hm
  remembers := fun hb => (h.remembers hb).decided hwf hl hopen

/-- **Going back to a level above that of `b`** asserts nothing again. -/
theorem lits_cut (h : Within b s) (hs : Sound F s) {j : Nat} (hj : b.level ≤ j)
    (hc : Cut j s s') :
    s'.trail.lits.toList = s.trail.lits.toList.take (s.trail.levelStart (j + 1)) := by
  obtain ⟨more, hlits, hmore⟩ := hc.lits
  have hnil : more = [] := by
    refine List.eq_nil_iff_forall_not_mem.mpr fun l hl => ?_
    obtain ⟨hp, hno⟩ := hmore l hl
    have hmono : s.trail.levelStart (b.level + 1) ≤ s.trail.levelStart (j + 1) :=
      hs.trail.levelStart_mono (Nat.succ_le_succ hj)
    exact hno ((List.take_subset_take_left _ hmono) (h.pending l hp))
  rw [hlits, hnil, List.append_nil]

theorem cut (h : Within b s) (hs : Sound F s) {j : Nat} (hj : b.level ≤ j) (hlt : j < s.level)
    (hc : Cut j s s') : Within b s' := by
  have hlits := h.lits_cut hs hj hc
  have hsize := h.size_le_levelStart hj
  have hlen : b.trail.starts.toList.length = b.level := Array.length_toList
  have hlen' : s.trail.starts.toList.length = s.level := Array.length_toList
  have hwf : s'.trail.lits.size = s.trail.levelStart (j + 1) := by
    have := congrArg List.length hlits
    rw [List.length_take, Array.length_toList, Array.length_toList] at this
    rw [this]
    exact Nat.min_eq_left (hs.trail.levelStart_le _)
  -- the part of b ends where it did
  have hpart : s'.trail.levelStart (b.level + 1) = s.trail.levelStart (b.level + 1) := by
    by_cases hbj : b.level < j
    · exact hc.levelStart_eq hlt hbj
    · have he : j = b.level := by omega
      rw [Trail.levelStart_of_level_lt (by rw [← he]; exact Nat.lt_succ_of_le (hc.level hlt).le),
        hwf, he]
  rw [← hc.others]
  refine { h with
    starts := ?_
    lits := ?_
    levels := fun l hl => (hc.levels l.var).trans (h.levels l hl)
    above := ?_
    pending := ?_
    remembers := fun hb => hc.remembers hs hlt (h.remembers hb) }
  · rw [hc.starts]
    exact List.prefix_take_iff.mpr ⟨h.starts, by omega⟩
  · rw [hlits]
    exact List.prefix_take_iff.mpr ⟨h.lits, by simpa using hsize⟩
  · intro p hp
    rw [hc.starts, List.drop_take] at hp
    exact h.above p (List.mem_of_mem_take hp)
  · intro l hl
    have hl : l ∈ s'.pendingFacts := hl
    rw [hc.pending] at hl
    split at hl
    · exact absurd hl List.not_mem_nil
    · show l ∈ s'.trail.lits.toList.take (s'.trail.levelStart (b.level + 1))
      rw [hpart, hlits, List.take_take, Nat.min_eq_left
        (hs.trail.levelStart_mono (Nat.succ_le_succ hj))]
      exact h.pending l hl

/-- Moving the head. -/
theorem withHead (h : Within b s) (head : Nat) :
    Within b { s with trail := { s.trail with head := head } } :=
  ⟨h.varCount, h.options, h.projection, h.pool, h.given, h.starts, h.lits, h.levels, h.above,
    h.pending, h.remembers⟩

/-- Root facts of `b` stay root facts. -/
theorem roots (h : Within b s) : ∀ l ∈ b.trail.roots, l ∈ s.trail.roots := by
  intro l hl
  have hle : b.trail.levelStart 1 ≤ s.trail.levelStart 1 := by
    by_cases h0 : b.level = 0
    · have hend : b.trail.levelStart 1 = b.trail.lits.size :=
        Trail.levelStart_of_level_lt (by show b.level < 1; omega)
      rw [hend]
      exact h.size_le_levelStart (Nat.le_of_eq h0)
    · have hlen : b.trail.starts.toList.length = b.level := Array.length_toList
      obtain ⟨more, hmore⟩ := h.starts
      rw [Trail.levelStart_eq_getElem (t := b.trail) (by omega), Trail.levelStart_succ, ← hmore,
        List.getElem?_append_left (by omega), List.getElem?_eq_getElem (by omega)]
      exact Nat.le_refl _
  obtain ⟨more, hmore⟩ := h.lits
  unfold Trail.roots at hl ⊢
  rw [← hmore, List.take_append]
  refine List.mem_append_left _ ?_
  exact (List.take_subset_take_left _ hle) hl

end Within

end Solver

end Cleave
