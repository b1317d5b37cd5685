import Cleave.Proofs.Enclosure
import Cleave.Proofs.Reachable

/-!
# A decision taken back

A decision is taken, propagated, and taken back right away. What was true
before is true again, and propagation meets no conflict where it would have met
none without the decision. But it may find less.

The literals that waited when the decision was taken have been propagated on
its level. Their consequences are taken back with it, and the head, which has
passed the literals, is lowered to the cut only. So these consequences are lost
(`lost_consequence`), and the decision leaves no trace exactly if nothing was to
be added in the first place: whenever it leads to no conflict, the trail is as
it was (`Driven.retraction`).
-/

namespace Cleave

namespace Solver

variable {F : List Clause} {s s' s₁ s₂ : Solver} {l : Lit}

/-! ## Driving a solver without scopes -/

/-- **The states that clauses, decisions and propagations lead to**, without
scopes and without searches. -/
inductive Driven : Solver → Prop where
  | ofFormula (f : Formula) (options : Options) : Driven (ofFormula f options)
  | add {s s' : Solver} {c : Clause} (h : Driven s) (hr : s.addClause c = .ok s') : Driven s'
  | decide {s s' : Solver} {l : Lit} {r : Option Conflict} (h : Driven s)
      (hopen : s.trail.isAssigned l.var = false) (hr : s.decide l = .ok (r, s')) : Driven s'
  | propagate {s s' : Solver} {r : Option Conflict} (h : Driven s) (hr : s.propagate = (r, s')) :
      Driven s'
  | backtrack {s : Solver} (h : Driven s) (k : Nat) : Driven (s.backtrackTo k)

theorem Driven.reachable (h : Driven s) : ∃ F, Reachable F s := by
  induction h with
  | ofFormula f options => exact ⟨_, .ofFormula f options⟩
  | add _ hr ih => exact ih.imp' _ fun _ h => .call h (.add hr)
  | decide _ hopen hr ih => exact ih.imp fun _ h => .call h (.decide hopen hr)
  | propagate _ hr ih => exact ih.imp fun _ h => .call h (.propagate hr)
  | backtrack _ k ih => exact ih.imp fun _ h => .call h (.backtrack _ _ k)

/-- **A plain solver**: no scope is entered, and no root fact is pending. -/
structure Plain (s : Solver) : Prop where
  scope : s.scope.current = none
  pending : s.pendingFacts = []

namespace Plain

theorem growTo (h : Plain s) (count : Nat) : Plain (s.growTo count) := by
  unfold Solver.growTo
  split
  · exact h
  · exact ⟨h.scope, h.pending⟩

theorem withProjection (h : Plain s) (projection : VarTable Bool) :
    Plain { s with projection := projection } :=
  ⟨h.scope, h.pending⟩

theorem setProjection (h : Plain s) (vars : List Var) : Plain (s.setProjection vars) := by
  let grown := s.growTo (vars.foldl (fun bound (v : Var) => max bound (v.index + 1)) 0)
  have hcleared : Plain { grown with projection := grown.projection.fill false } :=
    (h.growTo _).withProjection _
  exact (hcleared.growTo _).withProjection _

theorem insertClause (h : Plain s) (c : Clause) (learnt : Bool) :
    Plain (s.insertClause c learnt) :=
  ⟨(congrArg (·.scope.current) (insertClause_others s c learnt)).symm.trans h.scope,
    (congrArg Solver.pendingFacts (insertClause_others s c learnt)).symm.trans h.pending⟩

theorem addNormalized (h : Plain s) (c : Clause) : Plain (s.addNormalized c) := by
  unfold Solver.addNormalized
  simp only
  split
  · exact h.growTo _
  · exact (h.growTo _).insertClause _ false

theorem addAll (h : Plain s) (cs : List Clause) : Plain (cs.foldl Solver.addNormalized s) := by
  induction cs generalizing s with
  | nil => exact h
  | cons c rest ih => exact ih (h.addNormalized c)

theorem ofFormula (f : Formula) (options : Options) : Plain (ofFormula f options) := by
  have hnew : Plain (new options) := ⟨rfl, rfl⟩
  have hall := (hnew.growTo f.numVariables).addAll f.clauses
  unfold Solver.ofFormula
  simp only
  split
  · exact hall.setProjection _
  · exact hall

theorem grown (h : Plain s) (hg : Grown s s') : Plain s' :=
  ⟨(congrArg (·.scope.current) hg.others).symm.trans h.scope,
    (congrArg Solver.pendingFacts hg.others).symm.trans h.pending⟩

theorem decided (h : Plain s) (hs : Sound F s) (hopen : s.trail.isAssigned l.var = false)
    {r : Option Conflict} (hr : s.decide l = .ok (r, s')) : Plain s' := by
  obtain ⟨hl, stats, hprop⟩ := decide_eq_ok hr
  have hstart : Plain (({ s with stats := stats } : Solver).openDecision l) := ⟨h.scope, h.pending⟩
  exact hstart.grown (propagate_spec (hs.decided hl hopen) hprop).1.grown

theorem backtrackTo (h : Plain s) (hs : Sound F s) (k : Nat) : Plain (s.backtrackTo k) := by
  by_cases hk : s.level ≤ k
  · rw [backtrackTo_of_le hk]
    exact h
  · obtain ⟨-, hcut⟩ := backtrackTo_spec hs (Nat.lt_of_not_le hk)
    refine ⟨(congrArg (·.scope.current) hcut.others).symm.trans h.scope, ?_⟩
    rw [hcut.pending, h.pending]
    exact ite_self []

end Plain

theorem Driven.plain (h : Driven s) : Plain s := by
  induction h with
  | ofFormula f options => exact .ofFormula f options
  | add _ hr ih =>
    unfold addClause at hr
    split at hr
    · cases hr
      exact ih.addNormalized _
    · cases hr
  | decide h hopen hr ih =>
    obtain ⟨F, hreach⟩ := h.reachable
    exact ih.decided hreach.sound hopen hr
  | propagate h hr ih =>
    obtain ⟨F, hreach⟩ := h.reachable
    exact ih.grown (propagate_spec hreach.sound hr).1.grown
  | backtrack h k ih =>
    obtain ⟨F, hreach⟩ := h.reachable
    exact ih.backtrackTo hreach.sound k

/-! ## Deciding and taking back -/

/-- A decision propagates from the same clauses and the same head, with one
literal more on the trail and one level more. -/
theorem decide_from (hs : Sound F s) (hopen : s.trail.isAssigned l.var = false)
    {r : Option Conflict} (hr : s.decide l = .ok (r, s')) :
    ∃ s₀, Sound F s₀ ∧ s₀.store = s.store ∧ s₀.trail.head = s.trail.head
      ∧ s₀.trail.lits.toList = s.trail.lits.toList ++ [l]
      ∧ s₀.trail.starts.toList = s.trail.starts.toList ++ [s.trail.lits.size]
      ∧ s₀.propagate = (r, s') := by
  obtain ⟨hl, stats, hprop⟩ := decide_eq_ok hr
  exact ⟨({ s with stats := stats } : Solver).openDecision l, hs.decided hl hopen, rfl, rfl,
    Trail.lits_decided _ _, Trail.starts_decided _ _, hprop⟩

/-- **Taking a decision back.** The trail is as it was. If the decision led to no
conflict, the head is at the end of it. -/
theorem decide_resumes (hs : Sound F s) (hplain : Plain s)
    (hopen : s.trail.isAssigned l.var = false) {r : Option Conflict}
    (hr : s.decide l = .ok (r, s')) :
    Sound F (s'.backtrackTo s.level) ∧ Resumes s (s'.backtrackTo s.level)
      ∧ (s'.backtrackTo s.level).trail.lits = s.trail.lits
      ∧ (r = none → (s'.backtrackTo s.level).trail.head = s.trail.lits.size) := by
  have hpending := (hplain.decided hs hopen hr).pending
  obtain ⟨s₀, hs₀, hstore₀, hhead₀, hlits₀, hstarts₀, hprop⟩ := decide_from hs hopen hr
  obtain ⟨hdrawn, hend, -⟩ := propagate_spec hs₀ hprop
  have hsize₀ : s₀.trail.lits.size = s.trail.lits.size + 1 := by
    rw [← Array.length_toList, hlits₀, List.length_append, Array.length_toList]
    rfl
  have hdone : ∀ m ∈ s.trail.lits.toList.take s.trail.head,
      m ∈ s₀.trail.lits.toList.take s₀.trail.head := fun m hm => by
    rwa [hhead₀, hlits₀, List.take_append_of_le_length (by simpa using hs.trail.headLe)]
  have hpast := (propagate_past hs₀ hdone hprop).1
  -- the new level starts where the trail ended
  have hlen : s.trail.starts.toList.length = s.level := Array.length_toList
  have hlevel : s'.level = s.level + 1 := by
    rw [hdrawn.grown.level]
    show s₀.trail.starts.size = _
    rw [← Array.length_toList, hstarts₀, List.length_append, hlen]
    rfl
  have hstart : s'.trail.levelStart (s.level + 1) = s.trail.lits.size := by
    rw [Trail.levelStart_succ, hdrawn.grown.starts, hstarts₀,
      List.getElem?_append_right (by omega), hlen, Nat.sub_self]
    rfl
  obtain ⟨hback, hcut⟩ := backtrackTo_spec hdrawn.sound (k := s.level) (by omega)
  obtain ⟨more, hlits, hmore⟩ := hcut.lits
  have hmore : more = [] := List.eq_nil_iff_forall_not_mem.mpr fun m hm => by
    have hin := (hmore m hm).1
    rw [hpending] at hin
    cases hin
  have hhead := hcut.head
  have hgrows := hdrawn.grown.head
  have hle := hs.trail.headLe
  have hsize := hdrawn.grown.size
  rw [hstart] at hhead
  have hsame : (s'.backtrackTo s.level).trail.lits = s.trail.lits := by
    refine Array.toList_inj.mp ?_
    rw [hlits, hmore, List.append_nil, hstart, hdrawn.grown.take_eq (by omega), hlits₀,
      List.take_append_of_le_length (by simp), List.take_of_length_le (by simp)]
  refine ⟨hback, ⟨fun m hm => ?_, ?_⟩, hsame, fun hr => ?_⟩
  · rw [hsame]
    exact List.take_subset_take_left _ (by omega) hm
  · rw [hcut.store, ← hstore₀]
    exact hpast.pinned
  · have := hend hr
    omega

/-- **A decision taken back.** Where propagation meets no conflict, it meets
none either after a decision was taken and taken back, and what it makes true
then lies between what was true before and what it makes true at once. These
are all the same if there was nothing to add; and a decision without a conflict
leaves nothing but what was true before. -/
theorem Driven.retraction (h : Driven s) (hl : l.var.index < s.varCount)
    (hopen : s.trail.isAssigned l.var = false) (hp : s.propagate = (none, s₁)) :
    ∃ r s₂ s₃, s.decide l = .ok (r, s₂)
      ∧ (s₂.backtrackTo s.level).propagate = (none, s₃)
      ∧ (∀ m ∈ s.trail.lits.toList, m ∈ s₃.trail.lits.toList)
      ∧ (∀ m ∈ s₃.trail.lits.toList, m ∈ s₁.trail.lits.toList)
      ∧ (s₁.trail.lits = s.trail.lits →
          ∀ m, m ∈ s₃.trail.lits.toList ↔ m ∈ s₁.trail.lits.toList)
      ∧ (r = none → s₃.trail.lits = s.trail.lits) := by
  obtain ⟨F, hreach⟩ := h.reachable
  have hs := hreach.sound
  obtain ⟨hdrawn, -⟩ := propagate_spec hs hp
  obtain ⟨r, s₂, hdecide⟩ : ∃ r s₂, s.decide l = .ok (r, s₂) := by
    unfold Solver.decide requireVar
    rw [if_pos hl]
    exact ⟨_, _, rfl⟩
  obtain ⟨hback, hresumes, hlits, hend⟩ := decide_resumes hs h.plain hopen hdecide
  rcases hprop : (s₂.backtrackTo s.level).propagate with ⟨r₃, s₃⟩
  have hgrown := (propagate_spec hback hprop).1.grown
  obtain ⟨rfl, hwithin⟩ := hresumes.propagate hs h.plain.scope hback hp
    (fun m hm => hdrawn.grown.lits.subset (hlits ▸ hm)) hprop
  have hkept : ∀ m ∈ s.trail.lits.toList, m ∈ s₃.trail.lits.toList :=
    fun m hm => hgrown.lits.subset (hlits ▸ hm)
  refine ⟨r, s₂, s₃, hdecide, hprop, hkept, hwithin, fun hsame m => ⟨hwithin m, fun hm => ?_⟩,
    fun hr => ?_⟩
  · exact hkept m (hsame ▸ hm)
  · rw [propagate_of_head (by rw [hlits, hend hr])] at hprop
    obtain ⟨-, rfl⟩ := Prod.mk.inj hprop
    exact hlits

/-- A fact, what it implies, and two variables that have nothing to do with
them. -/
def waiting : Formula :=
  { clauses := [[Var.pos ⟨0⟩], [Var.neg ⟨0⟩, Var.pos ⟨1⟩], [Var.pos ⟨2⟩, Var.pos ⟨3⟩]] }

/-- Once the fact was propagated, a decision taken back changes nothing. -/
theorem Driven.retraction_waiting : ∃ (s s₁ : Solver) (r : Option Conflict) (s₂ s₃ : Solver),
    Driven s ∧ s.trail.isAssigned ⟨2⟩ = false ∧ s.propagate = (none, s₁)
      ∧ s.decide (Var.pos ⟨2⟩) = .ok (r, s₂) ∧ (s₂.backtrackTo s.level).propagate = (none, s₃)
      ∧ Var.pos ⟨1⟩ ∈ s₁.trail.lits.toList
      ∧ ∀ m, m ∈ s₃.trail.lits.toList ↔ m ∈ s₁.trail.lits.toList := by
  have hrun : let s := (Solver.ofFormula waiting {}).propagate.2
      (2 < s.varCount ∧ s.trail.isAssigned ⟨2⟩ = false ∧ s.propagate.1 = none)
        ∧ s.propagate.2.trail.lits = s.trail.lits
        ∧ Var.pos ⟨1⟩ ∈ s.propagate.2.trail.lits.toList := by
    rw [ofFormula_of_ascending (f := waiting) (by decide) rfl]
    decide +kernel
  obtain ⟨⟨hl, hopen, hnone⟩, hsame, hin⟩ := hrun
  have hdriven : Driven (Solver.ofFormula waiting {}).propagate.2 :=
    .propagate (.ofFormula waiting {}) (Prod.eta _).symm
  obtain ⟨r, s₂, s₃, hdecide, hprop, -, -, heq, -⟩ :=
    hdriven.retraction (l := Var.pos ⟨2⟩) hl hopen (Prod.ext hnone rfl)
  exact ⟨_, _, r, s₂, s₃, hdriven, hopen, Prod.ext hnone rfl, hdecide, hprop, hin, heq hsame⟩

/-- **A consequence is lost** if the fact is still waiting when the decision is
taken. -/
theorem lost_consequence : ∃ s s₁ s₂ s₃ : Solver,
    Driven s ∧ s.trail.isAssigned ⟨2⟩ = false ∧ s.propagate = (none, s₁)
      ∧ s.decide (Var.pos ⟨2⟩) = .ok (none, s₂)
      ∧ (s₂.backtrackTo s.level).propagate = (none, s₃)
      ∧ Var.pos ⟨1⟩ ∈ s₁.trail.lits.toList ∧ Var.pos ⟨1⟩ ∉ s₃.trail.lits.toList := by
  have hrun : (do
      let s := Solver.ofFormula waiting {}
      let decided ← s.decide (Var.pos ⟨2⟩)
      let s₃ := (decided.2.backtrackTo s.level).propagate
      return !s.trail.isAssigned ⟨2⟩ && s.propagate.1.isNone && decided.1.isNone && s₃.1.isNone
        && s.propagate.2.trail.lits.contains (Var.pos ⟨1⟩)
        && !s₃.2.trail.lits.contains (Var.pos ⟨1⟩) :
      Except Fault Bool) = .ok true := by
    rw [ofFormula_of_ascending (f := waiting) (by decide) rfl]
    decide +kernel
  obtain ⟨⟨r, s₂⟩, hdecide, hrun⟩ := Except.bind_eq_ok.mp hrun
  have hend := Except.ok.inj hrun
  simp only [Bool.and_eq_true, Bool.not_eq_true', Option.isNone_iff_eq_none] at hend
  obtain ⟨⟨⟨⟨⟨hopen, hnone⟩, rfl⟩, hnone₃⟩, hin⟩, hno⟩ := hend
  exact ⟨_, _, s₂, _, .ofFormula waiting {}, hopen, Prod.ext hnone rfl, hdecide,
    Prod.ext hnone₃ rfl, by simpa using hin, by simpa using hno⟩

end Solver

end Cleave
