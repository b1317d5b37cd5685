import Cleave.Proofs.Reachable
import Mathlib.Logic.Relation

/-!
# The trail from call to call

What the trail holds at one time follows from the invariant: it is the current
assignment without repetition, every level starts with its decision, and a
literal stands behind the opposites of all other literals of its reason
(`Solver.TrailConsistent`).

What it holds at a later time is a matter of the calls in between
(`Solver.Later`). A call opens at most one level, with the literal it decides,
and leaves the decisions of all other levels as they are. A literal of level 0
stays true and keeps its level for good, also one that is asserted above level
0: there it is remembered, and every call that takes it back asserts it again
(`Solver.Continues`).
-/

namespace Cleave

namespace Trail

variable {t t' : Trail} {count k : Nat}

/-- The levels of a trail keep their decisions while it grows. -/
theorem Wf.decision?_grow (h : t.Wf count) (hstarts : t.starts.toList <+: t'.starts.toList)
    (hlits : t.lits.toList <+: t'.lits.toList) (hk : k ≤ t.level) :
    t'.decision? k = t.decision? k := by
  cases k with
  | zero => rfl
  | succ i =>
    have hlen : t.starts.toList.length = t.level := Array.length_toList
    have hi : i < t.starts.toList.length := by omega
    have hlt : t.starts.toList[i] < t.lits.toList.length := by
      rw [Array.length_toList]
      exact h.startsLt _ (List.getElem_mem hi)
    rw [decision?_succ, decision?_succ, List.prefix_iff_getElem?.mp hstarts i hi,
      List.getElem?_eq_getElem hi, Option.bind_some, Option.bind_some,
      List.prefix_iff_getElem?.mp hlits _ hlt, List.getElem?_eq_getElem hlt]

/-- A decision is the first literal of the level it opens. -/
theorem decision?_decided (t : Trail) (l : Lit) :
    (t.decided l).decision? (t.level + 1) = some l := by
  have hlen : t.starts.toList.length = t.level := Array.length_toList
  have hlen' : t.lits.toList.length = t.lits.size := Array.length_toList
  rw [decision?_succ, starts_decided, lits_decided, ← hlen, List.getElem?_concat_length,
    Option.bind_some, ← hlen', List.getElem?_concat_length]

namespace Wf

variable (h : t.Wf count) {i : Nat} (hi : i < t.level)

include h hi

/-- No level is empty. -/
theorem levelStart_lt_levelStart : t.levelStart (i + 1) < t.levelStart (i + 2) := by
  have hlen : t.starts.toList.length = t.level := Array.length_toList
  have hi : i < t.starts.toList.length := by omega
  rw [levelStart_eq_getElem hi]
  by_cases hlast : i + 1 < t.starts.toList.length
  · rw [levelStart_eq_getElem hlast]
    exact List.pairwise_iff_getElem.mp h.startsSorted i (i + 1) hi hlast (Nat.lt_succ_self i)
  · rw [levelStart_succ, List.getElem?_eq_none (Nat.le_of_not_lt hlast), Option.getD_none]
    exact h.startsLt _ (List.getElem_mem hi)

/-- A level starts in its own part of the trail. -/
theorem depth_levelStart : t.depth (t.levelStart (i + 1)) = i + 1 := by
  have hlt := h.levelStart_lt_levelStart hi
  have hsize : t.levelStart (i + 1) < t.lits.size :=
    Nat.lt_of_lt_of_le hlt (h.levelStart_le (i + 2))
  have hle := (h.lt_levelStart_iff hsize (i + 1)).mp hlt
  have hge := mt (h.lt_levelStart_iff hsize i).mpr (Nat.lt_irrefl _)
  omega

/-- **A level starts with its decision.** -/
theorem segment_eq : ∃ pre d post rest, t.lits.toList = pre ++ d :: post
    ∧ pre.length = t.levelStart (i + 1) ∧ t.levelStart (i + 1) ∈ t.starts.toList
    ∧ t.decision? (i + 1) = some d ∧ t.segment (i + 1) = d :: rest := by
  have hlen : t.starts.toList.length = t.level := Array.length_toList
  have hstart := levelStart_eq_getElem (t := t) (k := i) (by omega)
  have hnext := h.levelStart_lt_levelStart hi
  have hlt : t.levelStart (i + 1) < t.lits.toList.length :=
    Nat.lt_of_lt_of_le hnext (Array.length_toList ▸ h.levelStart_le (i + 2))
  have hlt' : t.levelStart (i + 1) < (t.lits.toList.take (t.levelStart (i + 2))).length := by
    rw [List.length_take]
    omega
  refine ⟨t.lits.toList.take (t.levelStart (i + 1)), t.lits.toList[t.levelStart (i + 1)],
    t.lits.toList.drop (t.levelStart (i + 1) + 1),
    (t.lits.toList.take (t.levelStart (i + 2))).drop (t.levelStart (i + 1) + 1), ?_, ?_, ?_, ?_, ?_⟩
  · rw [← List.drop_eq_getElem_cons hlt, List.take_append_drop]
  · rw [List.length_take]
    exact Nat.min_eq_left (Nat.le_of_lt hlt)
  · rw [hstart]
    exact List.getElem_mem _
  · rw [decision?_succ, List.getElem?_eq_getElem (by omega), Option.bind_some, ← hstart,
      List.getElem?_eq_getElem hlt]
  · unfold segment
    rw [List.drop_eq_getElem_cons hlt', List.getElem_take]

end Wf

end Trail

namespace Solver

variable {F F' : List Clause} {s s' : Solver}

/-! ## At one time -/

/-- **A consistent trail.** -/
structure TrailConsistent (s : Solver) : Prop where
  /-- No variable is on it twice. -/
  nodup : (s.trail.lits.toList.map Lit.var).Nodup
  /-- It holds exactly the variables that are assigned. -/
  assigned : ∀ v, s.trail.isAssigned v = true ↔ ∃ l ∈ s.trail.lits.toList, l.var = v
  /-- It holds them as the literals that are true. -/
  values : ∀ l, s.trail.value l = some true ↔ l ∈ s.trail.lits.toList
  /-- The first literal of an open level is its decision. -/
  decisions : ∀ k, 1 ≤ k → k ≤ s.level → ∃ d rest, s.trail.segment k = d :: rest
    ∧ s.trail.decision? k = some d ∧ s.trail.reasonOf d.var = .decision
    ∧ s.trail.levelOf d.var = k
  /-- The other literal of a binary reason became false before. -/
  binary : ∀ pre l post other, s.trail.lits.toList = pre ++ l :: post →
    s.trail.reasonOf l.var = .binary other → other ∈ s.store.implied l.neg
      ∧ s.trail.value other = some false ∧ other.neg ∈ pre
  /-- So did all other literals of a long one. -/
  long : ∀ pre l post id, s.trail.lits.toList = pre ++ l :: post →
    s.trail.reasonOf l.var = .long id → id < s.store.long.size ∧ l ∈ s.store.lits id
      ∧ ∀ m ∈ s.store.lits id, m ≠ l → s.trail.value m = some false ∧ m.neg ∈ pre

theorem Sound.trailConsistent (hs : Sound F s) : s.TrailConsistent := by
  have hfalse : ∀ {pre post : List Lit} {l m : Lit}, s.trail.lits.toList = pre ++ l :: post →
      m.neg ∈ pre → s.trail.value m = some false := fun hsplit hm =>
    hs.trail.value_false.mpr (hsplit ▸ List.mem_append_left _ hm)
  refine ⟨hs.trail.nodup, fun _ => hs.trail.isAssigned_iff, fun _ => hs.trail.value_true,
    ?_, ?_, ?_⟩
  · intro k hpos hk
    obtain ⟨i, rfl⟩ : ∃ i, k = i + 1 := ⟨k - 1, by omega⟩
    obtain ⟨pre, d, post, rest, hsplit, hlength, hstart, hdecision, hsegment⟩ :=
      hs.trail.segment_eq hk
    have hj := hs.justified pre d post hsplit
    rw [← hlength] at hstart
    obtain ⟨hlevel, hreason⟩ := hj.opened hstart
    refine ⟨d, rest, hsegment, hdecision, hreason, ?_⟩
    rw [hj.level.resolve_left hlevel, hlength, hs.trail.depth_levelStart hk]
  · intro pre l post other hsplit hr
    have hex := (hs.justified pre l post hsplit).explained
    rw [hr] at hex
    exact ⟨hex.1, hfalse hsplit hex.2, hex.2⟩
  · intro pre l post id hsplit hr
    have hex := (hs.justified pre l post hsplit).explained
    rw [hr] at hex
    obtain ⟨hwatch, hrest⟩ := hex
    exact ⟨hwatch.1, hwatch.mem_lits, fun m hm hne =>
      ⟨hfalse hsplit (hrest m hm hne), hrest m hm hne⟩⟩

/-! ## From one call to the next -/

/-- **What a call keeps of the trail**: what has level 0, and the decisions of
the levels that stay open. A new level is opened by a decision. -/
structure Continues (s s' : Solver) : Prop where
  rootFacts : ∀ l ∈ s.trail.lits.toList, s.trail.levelOf l.var = 0 →
    l ∈ s'.trail.lits.toList ∧ s'.trail.levelOf l.var = 0
  remembers : s'.trail.Remembers s'.pendingFacts
  decisions : ∀ k, k ≤ s.level → k ≤ s'.level → s'.trail.decision? k = s.trail.decision? k
  opened : s'.level ≤ s.level ∨ ∃ l r, s.decide l = .ok (r, s') ∧ s'.level = s.level + 1
    ∧ s'.trail.decision? s'.level = some l

/-- **The same trail**, up to reasons and the head. -/
structure SameTrail (s s' : Solver) : Prop where
  lits : s'.trail.lits = s.trail.lits
  starts : s'.trail.starts = s.trail.starts
  levels : ∀ v, s'.trail.levelOf v = s.trail.levelOf v
  pending : s'.pendingFacts = s.pendingFacts

theorem SameTrail.trans {s'' : Solver} (h : SameTrail s s') (h' : SameTrail s' s'') :
    SameTrail s s'' :=
  ⟨h'.lits.trans h.lits, h'.starts.trans h.starts, fun v => (h'.levels v).trans (h.levels v),
    h'.pending.trans h.pending⟩

theorem SameTrail.growTo (hs : Sound F s) (count : Nat) : SameTrail s (s.growTo count) := by
  unfold Solver.growTo
  split
  · exact ⟨rfl, rfl, fun _ => rfl, rfl⟩
  · rename_i hlt
    exact ⟨rfl, rfl, hs.trail.levelOf_resize (Nat.le_of_lt (Nat.lt_of_not_le hlt)), rfl⟩

theorem SameTrail.project (hs : Sound F s) (vars : List Var) : SameTrail s (s.project vars) :=
  (SameTrail.growTo hs _).trans ⟨rfl, rfl, fun _ => rfl, rfl⟩

theorem SameTrail.setProjection (hs : Sound F s) (vars : List Var) :
    SameTrail s (s.setProjection vars) := by
  let grown := s.growTo (vars.foldl (fun bound (v : Var) => max bound (v.index + 1)) 0)
  have hs' : Sound F { grown with projection := grown.projection.fill false } := hs.growTo _
  have hcleared : SameTrail s { grown with projection := grown.projection.fill false } :=
    (SameTrail.growTo hs _).trans ⟨rfl, rfl, fun _ => rfl, rfl⟩
  exact hcleared.trans (.project hs' vars)

namespace Continues

theorem of_same (h : SameTrail s s') (hr : s.trail.Remembers s.pendingFacts) :
    Continues s s' := by
  have hlevel : s'.level = s.level := congrArg Array.size h.starts
  refine ⟨fun l hl h0 => ⟨h.lits ▸ hl, (h.levels l.var).trans h0⟩, fun l hl h0 => ?_,
    fun k _ _ => ?_, Or.inl (Nat.le_of_eq hlevel)⟩
  · have hroots : s'.trail.roots = s.trail.roots := by
      unfold Trail.roots Trail.levelStart
      rw [h.lits, h.starts]
    rw [hroots, h.pending]
    exact hr l (h.lits ▸ hl) (h.levels l.var ▸ h0)
  · unfold Trail.decision?
    rw [h.lits, h.starts]

/-- At level 0 everything is a root fact. -/
theorem of_level_zero {G : List Clause} (hs' : Sound G s') (h0 : s'.level = 0)
    (hlits : ∀ l ∈ s.trail.lits.toList, s.trail.levelOf l.var = 0 → l ∈ s'.trail.lits.toList) :
    Continues s s' where
  rootFacts := fun l hl hzero => by
    have hl' := hlits l hl hzero
    exact ⟨hl', Nat.le_zero.mp (h0 ▸ hs'.levelOf_le_level hl')⟩
  remembers := .of_level_zero h0 _
  decisions := fun k _ hk => by
    obtain rfl : k = 0 := Nat.le_zero.mp (h0 ▸ hk)
    rfl
  opened := Or.inl (h0 ▸ Nat.zero_le _)

/-- Work above the level of a state. -/
theorem of_within (hs : Sound F s) (h : Within s s') (hr : s.trail.Remembers s.pendingFacts)
    (hopened : s'.level ≤ s.level ∨ ∃ l r, s.decide l = .ok (r, s') ∧ s'.level = s.level + 1
      ∧ s'.trail.decision? s'.level = some l) : Continues s s' where
  rootFacts := fun l hl h0 => ⟨h.lits.subset hl, (h.levels l hl).trans h0⟩
  remembers := h.remembers hr
  decisions := fun _ hk _ => hs.trail.decision?_grow h.starts h.lits hk
  opened := hopened

theorem backtrackTo (hs : Sound F s) (hr : s.trail.Remembers s.pendingFacts) (k : Nat) :
    Continues s (s.backtrackTo k) := by
  by_cases hk : s.level ≤ k
  · rw [backtrackTo_of_le hk]
    exact of_same ⟨rfl, rfl, fun _ => rfl, rfl⟩ hr
  have hk : k < s.level := Nat.lt_of_not_le hk
  obtain ⟨hs', hc⟩ := backtrackTo_spec hs hk
  refine ⟨fun l hl h0 => ⟨hc.mem_of_level_zero hs hk hr hl h0, (hc.levels l.var).trans h0⟩,
    hc.remembers hs hk hr, fun j _ hj => ?_, Or.inl (by rw [hc.level hk]; exact Nat.le_of_lt hk)⟩
  -- the part that is kept is where both trails start
  have hwf := hs.trail.backtrackTo k
  have hj : j ≤ (s.trail.backtrackTo k).level := by
    rw [Trail.level_backtrackTo hk, ← hc.level hk]
    exact hj
  obtain ⟨more, hlits, -⟩ := hc.lits
  have hbefore : s.trail.decision? j = (s.trail.backtrackTo k).decision? j :=
    hwf.decision?_grow (Trail.starts_backtrackTo hk ▸ List.take_prefix _ _)
      (Trail.lits_backtrackTo hk ▸ List.take_prefix _ _) hj
  have hstarts := (Trail.starts_backtrackTo hk).trans hc.starts.symm
  have hafter : (s.backtrackTo k).trail.decision? j = (s.trail.backtrackTo k).decision? j :=
    hwf.decision?_grow (hstarts ▸ List.prefix_refl _)
      ⟨more, by rw [Trail.lits_backtrackTo hk, hlits]⟩ hj
  rw [hafter, hbefore]

end Continues

/-- A decision is the first literal of the level it opens. -/
theorem decide_continues {l : Lit} {r : Option Conflict} (hs : Sound F s)
    (hr : s.trail.Remembers s.pendingFacts) (hopen : s.trail.isAssigned l.var = false)
    (h : s.decide l = .ok (r, s')) : Continues s s' := by
  obtain ⟨hl, stats, hprop⟩ := decide_eq_ok h
  have hdecided := hs.decided hl hopen
  have hgrown := (propagate_spec hdecided hprop).1.grown
  have hwithin : Within s (({ s with stats := stats } : Solver).openDecision l) :=
    (Within.refl hs).decided hs.trail hl hopen
  have hlevel : s'.level = s.level + 1 := hgrown.level.trans (Trail.level_decided _ _)
  refine .of_within hs (hwithin.grown hdecided hgrown) hr (Or.inr ⟨l, r, h, hlevel, ?_⟩)
  rw [hlevel, ← Trail.decision?_decided s.trail l]
  exact hdecided.trail.decision?_grow (hgrown.starts ▸ List.prefix_refl _) hgrown.lits
    (Nat.le_of_eq (Trail.level_decided _ _).symm)

/-- Solving goes back to level 0 and searches there. -/
theorem solve_continues {fuel : Nat} {v : Verdict} (hs : Sound F s)
    (hr : s.trail.Remembers s.pendingFacts) (h : s.solve fuel = .ok (v, s')) : Continues s s' := by
  have hs' := (solve_spec hs h).1
  unfold solve at h
  split at h
  · obtain ⟨-, rfl⟩ := Prod.mk.inj (Except.ok.inj h)
    exact .of_same ⟨rfl, rfl, fun _ => rfl, rfl⟩ hr
  · obtain ⟨⟨r, s₁⟩, hsearch, h⟩ := Except.bind_eq_ok.mp h
    have hs₀ := hs.backtrackTo 0
    have hlevel : (s.backtrackTo 0).level = 0 := (hs.level_backtrackTo 0).trans (Nat.min_zero _)
    have hspec := (search_spec hs₀ (.refl hs₀) (fun _ hn => ⟨0, Nat.le_refl 0, hn⟩) hsearch).1
    have htrail : s'.trail = s₁.trail := by
      cases r with
      | satisfiable m =>
        obtain ⟨-, rfl⟩ := Prod.mk.inj (Except.ok.inj h)
        rfl
      | refuted learnt =>
        obtain ⟨-, rfl⟩ := Prod.mk.inj (Except.ok.inj h)
        rfl
      | unknown =>
        obtain ⟨-, rfl⟩ := Prod.mk.inj (Except.ok.inj h)
        rfl
    have h0 : s'.level = 0 := by
      show s'.trail.level = 0
      rw [htrail]
      exact hspec.level.trans hlevel
    refine .of_level_zero hs' h0 fun l hl hzero => htrail ▸ hspec.own.lits.subset ?_
    exact ((Continues.backtrackTo hs hr 0).rootFacts l hl hzero).1

/-- **Every call continues the trail.** -/
theorem Call.continues (hcall : Call F s F' s') (hs : Sound F s)
    (hr : s.trail.Remembers s.pendingFacts) : Continues s s' := by
  cases hcall with
  | add h =>
    obtain ⟨h0, hadds⟩ := addClause_adds hs h
    have h0' : s'.level = 0 := hadds.level.trans h0
    refine .of_level_zero hadds.sound h0' fun l hl _ => ?_
    rw [← Trail.roots_of_level_zero h0']
    exact hadds.roots l (Trail.roots_of_level_zero h0 ▸ hl)
  | grow count => exact .of_same (.growTo hs count) hr
  | project vars => exact .of_same (.project hs vars) hr
  | setProjection vars => exact .of_same (.setProjection hs vars) hr
  | decide hopen h => exact decide_continues hs hr hopen h
  | propagate h =>
    have hgrown := (propagate_spec hs h).1.grown
    exact .of_within hs ((Within.refl hs).grown hs hgrown) hr (Or.inl (Nat.le_of_eq hgrown.level))
  | backtrack k => exact .backtrackTo hs hr k
  | enter h =>
    obtain ⟨-, -, rfl⟩ := enterScope_spec h
    exact .of_same ⟨rfl, rfl, fun _ => rfl, rfl⟩ hr
  | restore => exact .of_same ⟨rfl, rfl, fun _ => rfl, rfl⟩ hr
  | search h =>
    have hspec := (search_spec hs (.refl hs) (fun _ hn => ⟨0, Nat.le_refl 0, hn⟩) h).1
    exact .of_within hs hspec.own hr (Or.inl (Nat.le_of_eq hspec.level))
  | implied hengine h =>
    have hspec := impliedLiterals_concluded hs hengine h 0
    exact .of_within hs hspec.within hr (Or.inl (Nat.le_of_eq hspec.level))
  | solve h => exact solve_continues hs hr h
  | substitute h =>
    obtain ⟨-, h0', hlits⟩ := substitute_keeps_lits hs h
    exact .of_level_zero (substitute_spec hs h).1 h0' fun l hl _ => hlits.subset hl
  | order h =>
    obtain ⟨_, _, rfl⟩ := computeOrder_eq_ok h
    exact .of_same ⟨rfl, rfl, fun _ => rfl, rfl⟩ hr
  | decompose h =>
    obtain ⟨_, rfl⟩ := decompose_eq_ok h
    exact .of_same ⟨rfl, rfl, fun _ => rfl, rfl⟩ hr
  | models pool => exact .of_same ⟨rfl, rfl, fun _ => rfl, rfl⟩ hr

/-! ## Any number of calls -/

/-- **One call, whatever engine answers.** -/
inductive Next (s s' : Solver) : Prop where
  | call {F F' : List Clause} (hcall : Call F s F' s')
  | implied {P : SatProcedure} {fuel : Nat} {c : Component} {ledger ledger' : ModelLedger}
      {projected : Bool} {r : Except ToolError ImpliedLiterals}
      (hr : s.impliedLiterals P fuel c ledger projected = .ok (r, ledger', s'))

/-- **Later states**: any number of calls in any order. -/
abbrev Later : Solver → Solver → Prop := Relation.ReflTransGen Next

theorem Attained.next (h : Attained s) (hnext : Next s s') : Attained s' := by
  cases hnext with
  | call hcall => exact .call h hcall
  | implied hr => exact .implied h hr

theorem Next.continues (hnext : Next s s') (hs : Sound [[]] s)
    (hr : s.trail.Remembers s.pendingFacts) : Continues s s' := by
  cases hnext with
  | call hcall =>
    obtain ⟨G', hcall⟩ := hcall.relabel [[]]
    exact hcall.continues hs hr
  | implied h =>
    have hspec := impliedLiterals_concludes hs (Or.inr not_satisfiable_nil) h 0
    exact .of_within hs hspec.within hr (Or.inl (Nat.le_of_eq hspec.level))

/-- **No root fact is ever lost**, whatever is called. -/
theorem Attained.remembers (h : Attained s) : s.trail.Remembers s.pendingFacts := by
  induction h with
  | blank options limit => exact .of_level_zero rfl _
  | ofFormula f options => exact .of_level_zero (level_ofFormula f options) _
  | call h hcall ih => exact ((Next.call hcall).continues h.sound ih).remembers
  | implied h hr ih => exact ((Next.implied hr).continues h.sound ih).remembers

theorem Attained.continues (h : Attained s) (hnext : Next s s') : Continues s s' :=
  hnext.continues h.sound h.remembers

/-- What has level 0 is true and has level 0 from then on. -/
theorem Attained.rootFact_later (h : Attained s) (hlater : Later s s') {l : Lit}
    (hl : l ∈ s.trail.lits.toList) (h0 : s.trail.levelOf l.var = 0) :
    Attained s' ∧ l ∈ s'.trail.lits.toList ∧ s'.trail.levelOf l.var = 0 := by
  induction hlater with
  | refl => exact ⟨h, hl, h0⟩
  | tail _ hnext ih =>
    obtain ⟨h', hl', h0'⟩ := ih
    exact ⟨h'.next hnext, (h'.continues hnext).rootFacts l hl' h0'⟩

/-- **The trail from call to call.** In every state the trail is consistent.
After a call every open level has the decision it had before, unless the call
is the decision that opens it. And a literal of level 0 is true with level 0
in every later state. -/
theorem Attained.trail_history (h : Attained s) :
    s.TrailConsistent
      ∧ (∀ s', Next s s' → ∀ k, 1 ≤ k → k ≤ s'.level →
          (k ≤ s.level ∧ s'.trail.decision? k = s.trail.decision? k)
            ∨ ∃ l r, s.decide l = .ok (r, s') ∧ k = s.level + 1
                ∧ s'.trail.decision? k = some l)
      ∧ ∀ l, s.trail.value l = some true → s.trail.levelOf l.var = 0 → ∀ s', Later s s' →
          s'.trail.value l = some true ∧ s'.trail.levelOf l.var = 0 := by
  refine ⟨h.sound.trailConsistent, fun s' hnext k _ hk => ?_, fun l hl h0 s' hlater => ?_⟩
  · have hcont := h.continues hnext
    by_cases hold : k ≤ s.level
    · exact Or.inl ⟨hold, hcont.decisions k hold hk⟩
    · -- only a decision opens a level
      obtain hle | ⟨l, r, hdecide, hlevel, hfirst⟩ := hcont.opened
      · exact absurd (Nat.le_trans hk hle) hold
      · obtain rfl : k = s'.level := by omega
        exact Or.inr ⟨l, r, hdecide, hlevel, hfirst⟩
  · obtain ⟨h', hl', h0'⟩ := h.rootFact_later hlater (h.sound.trail.value_true.mp hl) h0
    exact ⟨h'.sound.trail.value_true.mpr hl', h0'⟩

/-- Two clauses that force their common literal, and a clause apart from
them. -/
def aside : Formula :=
  { clauses := [[Var.pos ⟨0⟩, Var.pos ⟨1⟩], [Var.pos ⟨0⟩, Var.neg ⟨1⟩],
      [Var.pos ⟨2⟩, Var.pos ⟨3⟩]] }

/-- Two models of the clauses that force a literal, in a pool of their own. -/
def asideModels : Model × Model × ModelPool :=
  let (m, pool) := ModelPool.allocate {} 4
  let (m, pool) := pool.assignAll m [Var.pos ⟨0⟩, Var.pos ⟨1⟩]
  let (m', pool) := pool.allocate 4
  let (m', pool) := pool.assignAll m' [Var.pos ⟨0⟩, Var.neg ⟨1⟩]
  (m, m', pool)

/-- The solver for `aside`, with its models. -/
def asideSolver : Solver := { ofFormula aside {} with pool := asideModels.2.2 }

theorem asideSolver_eq : asideSolver =
    { (((((((new {}).growTo 4).growTo 2).insertClause [Var.pos ⟨0⟩, Var.pos ⟨1⟩] false).growTo
        2).insertClause [Var.pos ⟨0⟩, Var.neg ⟨1⟩] false).growTo 4).insertClause
          [Var.pos ⟨2⟩, Var.pos ⟨3⟩] false with pool := asideModels.2.2 } := by
  rw [asideSolver, ofFormula_of_ascending (by decide) rfl]
  rfl

/-- A unit that a probe learns at level 1 has level 0 there, behind the
decision, and is true for good. -/
theorem Attained.trail_history_aside : ∃ s, Attained s ∧ s.level = 1
    ∧ s.trail.lits.toList = [Var.neg ⟨2⟩, Var.pos ⟨3⟩, Var.pos ⟨0⟩]
    ∧ s.trail.reasonOf ⟨3⟩ = .binary (Var.pos ⟨2⟩) ∧ s.TrailConsistent
    ∧ ∀ s', Later s s' →
        s'.trail.value (Var.pos ⟨0⟩) = some true ∧ s'.trail.levelOf ⟨0⟩ = 0 := by
  have hopen : asideSolver.trail.isAssigned ⟨2⟩ = false := by
    rw [asideSolver_eq]
    decide +kernel
  have hrun : (asideSolver.decide (Var.neg ⟨2⟩)).toOption.any (fun decided =>
      (decided.2.impliedLiterals splitting 5 ⟨[⟨0⟩, ⟨1⟩], []⟩
        ⟨[asideModels.1, asideModels.2.1]⟩ false).toOption.any fun r =>
          let t := r.2.2.trail
          (t.level = 1 ∧ t.lits.toList = [Var.neg ⟨2⟩, Var.pos ⟨3⟩, Var.pos ⟨0⟩])
            ∧ t.reasonOf ⟨3⟩ = .binary (Var.pos ⟨2⟩) ∧ t.value (Var.pos ⟨0⟩) = some true
            ∧ t.levelOf ⟨0⟩ = 0) = true := by
    rw [asideSolver_eq]
    decide +kernel
  obtain ⟨⟨r₁, s₁⟩, hdecide, hrun⟩ := (Option.any_eq_true _ _).mp hrun
  obtain ⟨⟨r₂, ledger, s₂⟩, himplied, hresult⟩ := (Option.any_eq_true _ _).mp hrun
  obtain ⟨⟨hlevel, hlits⟩, hreason, hvalue, h0⟩ := of_decide_eq_true hresult
  have hstart : Attained asideSolver :=
    .call (.ofFormula aside {}) (.models aside.clauses _ asideModels.2.2)
  have hattained : Attained s₂ := .implied
    (.call hstart (.decide (F := aside.clauses) hopen (Except.toOption_eq_some.mp hdecide)))
    (Except.toOption_eq_some.mp himplied)
  obtain ⟨hconsistent, -, hforever⟩ := hattained.trail_history
  exact ⟨s₂, hattained, hlevel, hlits, hreason, hconsistent, hforever _ hvalue h0⟩

end Solver

end Cleave
