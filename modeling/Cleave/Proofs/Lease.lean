import Cleave.Proofs.Confinement
import Cleave.Proofs.Reachable

/-!
# Calls give back what they borrow

A search, and the computation of implied literals, work on the solver's own
trail: they open levels, backjump, restart, delete learnt clauses, and change
the scope on the way, several levels deep. `Solver.Leased` says what the caller
gets back: its level, its scope and its trail, to which literals over the
component may have been added on the level of the call.

It holds however the call ends, and for any engine (`Attained.leases`).
-/

namespace Cleave

namespace Solver

variable {F : List Clause} {s s' : Solver} {c : Component}

/-- **A call on a component gives back** the level, the scope and the trail of
its caller. What it adds to the trail is over the component and stands on the
level of the call; it is recorded for that level, or as a root fact. -/
structure Leased (c : Component) (s s' : Solver) : Prop where
  level : s'.level = s.level
  scope : s'.scope = s.scope
  inScope : ∀ v, s'.inScope v = s.inScope v
  starts : s'.trail.starts = s.trail.starts
  kept : s.trail.lits.toList <+: s'.trail.lits.toList
  values : ∀ v, s.trail.isAssigned v = true → s'.trail.values[v] = s.trail.values[v]
  levels : ∀ v, s.trail.isAssigned v = true → s'.trail.levelOf v = s.trail.levelOf v
  appended : ∀ l ∈ s'.trail.litsFrom s.trail.size, l ∈ s'.trail.segment s.level
    ∧ l.var ∈ c.vars ∧ (s'.trail.levelOf l.var = s.level ∨ s'.trail.levelOf l.var = 0)

section AtTheSameLevel

variable (hw : Within s s') (hs : Sound F s) (hs' : Sound F s') (hlevel : s'.level = s.level)

include hw hlevel

theorem Within.starts_eq : s'.trail.starts = s.trail.starts := by
  refine Array.toList_inj.mp (hw.starts.eq_of_length ?_).symm
  rw [Array.length_toList, Array.length_toList]
  exact hlevel.symm

include hs

/-- What was added at the level of the base stands in its segment. -/
theorem Within.mem_segment {l : Lit} (hl : l ∈ s'.trail.litsFrom s.trail.size) :
    l ∈ s'.trail.segment s.level := by
  have hend : s'.trail.levelStart (s.level + 1) = s'.trail.lits.size :=
    Trail.levelStart_of_level_lt (Nat.lt_succ_of_le (Nat.le_of_eq hlevel))
  have hstart : s'.trail.levelStart s.level ≤ s.trail.size := by
    refine Nat.le_trans (Nat.le_of_eq ?_) (hs.trail.levelStart_le s.level)
    unfold Trail.levelStart
    split
    · rfl
    · rename_i hpos
      -- the last level starts before the call
      have hlt : s.level - 1 < s.trail.starts.size := by
        show s.level - 1 < s.level
        omega
      rw [hw.starts_eq hlevel, Array.getElem?_eq_getElem hlt]
      rfl
  unfold Trail.segment
  rw [hend, List.take_of_length_le (by simp)]
  exact List.drop_subset_drop_left _ hstart hl

include hs'

/-- It is recorded for this level, or as a root fact. -/
theorem Within.levelOf_appended {l : Lit} (hl : l ∈ s'.trail.litsFrom s.trail.size) :
    s'.trail.levelOf l.var = s.level ∨ s'.trail.levelOf l.var = 0 := by
  obtain ⟨mid, post, hsplit⟩ := List.append_of_mem hl
  have hlits : s'.trail.lits.toList
      = (s'.trail.lits.toList.take s.trail.size ++ mid) ++ l :: post := by
    rw [List.append_assoc, ← hsplit]
    exact (List.take_append_drop _ _).symm
  refine (hs'.justified _ _ _ hlits).level.symm.imp_left fun h => h.trans ?_
  have hdepth : ∀ p, s'.trail.depth p = s.trail.depth p := by
    intro p
    unfold Trail.depth
    rw [hw.starts_eq hlevel]
  rw [hdepth]
  refine hs.trail.depth_of_size_le ?_
  have hsize : s.trail.size ≤ s'.trail.lits.toList.length := by
    simpa [Trail.size] using hw.lits.length_le
  rw [List.length_append, List.length_take, Nat.min_eq_left hsize]
  exact Nat.le_add_right _ _

/-- **The lease**, from what a call on the component did to the trail. -/
theorem Within.leased (hscope : s'.scope = s.scope) (hover : Over c s s') : Leased c s s' where
  level := hlevel
  scope := hscope
  inScope := by
    intro v
    unfold inScope
    rw [hscope]
  starts := hw.starts_eq hlevel
  kept := hw.lits
  values := by
    intro v hv
    obtain ⟨l, hl, rfl⟩ := hs.trail.isAssigned_iff.mp hv
    exact ((hs'.trail.valuesIff l).mpr (hw.lits.subset hl)).trans
      ((hs.trail.valuesIff l).mpr hl).symm
  levels := by
    intro v hv
    obtain ⟨l, hl, rfl⟩ := hs.trail.isAssigned_iff.mp hv
    exact hw.levels l hl
  appended := by
    intro l hl
    refine ⟨hw.mem_segment hs hlevel hl, ?_, hw.levelOf_appended hs hs' hlevel hl⟩
    obtain ⟨hmem, hopen⟩ := (hw.mem_litsFrom hs hs').mp hl
    exact (hover l hmem).resolve_left fun hold => hs.trail.not_mem_of_not_assigned hopen hold

end AtTheSameLevel

/-! ## The flags of the scope -/

/-- **The flags of the scope are right**, for all variables of the solver. -/
def ScopeExact (s : Solver) : Prop := s.scope.Exact s.varCount

/-- **The same scope**, with its flags, over the same variables. -/
structure SameScope (s s' : Solver) : Prop where
  scope : s'.scope = s.scope
  varCount : s'.varCount = s.varCount

theorem ScopeExact.of_same (h : s.ScopeExact) (hsame : SameScope s s') : s'.ScopeExact := by
  unfold ScopeExact
  rw [hsame.scope, hsame.varCount]
  exact h

namespace SameScope

theorem refl (s : Solver) : SameScope s s := ⟨rfl, rfl⟩

theorem trans {s'' : Solver} (h : SameScope s s') (h' : SameScope s' s'') : SameScope s s'' :=
  ⟨h'.scope.trans h.scope, h'.varCount.trans h.varCount⟩

theorem propagate {r : Option Conflict} (hs : Sound F s) (h : s.propagate = (r, s')) :
    SameScope s s' := by
  have hgrown := (propagate_spec hs h).1.grown
  exact ⟨(congrArg Solver.scope hgrown.others).symm, (congrArg Solver.varCount hgrown.others).symm⟩

theorem backtrackTo (hs : Sound F s) (k : Nat) : SameScope s (s.backtrackTo k) := by
  by_cases hk : s.level ≤ k
  · rw [backtrackTo_of_le hk]
    exact refl s
  · have hcut := (backtrackTo_spec hs (Nat.lt_of_not_le hk)).2
    exact ⟨(congrArg Solver.scope hcut.others).symm, (congrArg Solver.varCount hcut.others).symm⟩

theorem insertClause (s : Solver) (d : Clause) (learnt : Bool) :
    SameScope s (s.insertClause d learnt) := by
  have hothers := insertClause_others s d learnt
  exact ⟨(congrArg Solver.scope hothers).symm, (congrArg Solver.varCount hothers).symm⟩

theorem substitute {sub : Substitution} (hs : Sound F s) (h : s.substitute = .ok (sub, s')) :
    SameScope s s' := by
  obtain ⟨h0, hsub⟩ := substitutes_of_ok hs h
  have hrepropagated : ∀ {e sub r} {s₁ : Solver}, s.Replaces e sub →
      (s.restarted e sub).propagateFrom 0 = (r, s₁) → SameScope s s₁ := by
    intro e sub r s₁ hrep hp
    have hs₀ : Sound F { s.restarted e sub with trail := (s.restarted e sub).trail.rewind 0 } :=
      (restarted_spec hs h0 hrep.classes sub).1.rewind 0
    obtain ⟨hscope, hcount⟩ := propagate hs₀ hp
    obtain ⟨hscope₀, hcount₀⟩ := insertReplaced_scope s.store.exported
      { s with projection := sub.replaced.foldl moveProjection s.projection }.emptied e
    exact ⟨hscope.trans hscope₀, hcount.trans hcount₀⟩
  cases hsub with
  | conflicted => exact refl s
  | opposed => exact ⟨rfl, rfl⟩
  | unchanged => exact refl s
  | refuted hrep hp => exact ⟨(hrepropagated hrep hp).scope, (hrepropagated hrep hp).varCount⟩
  | rebuilt hrep hp => exact hrepropagated hrep hp

variable (hs : Sound F s) (hflags : s.ScopeExact)

include hs hflags

theorem search {fuel : Nat} {budget : Option Nat} {r : SearchResult}
    (h : s.search fuel c budget = .ok (r, s')) : SameScope s s' := by
  have hset : ∀ done, SettledTo done 0 s → ∃ n, 0 ≤ n ∧ SettledTo done n s := fun _ hb =>
    ⟨0, Nat.le_refl 0, hb⟩
  exact ⟨((Over.refl c s).search (N := Unfollowed) hflags hs (.refl hs) hset
    (fun _ hl => hl) (fun _ hν => hν.elim) h).2.1,
    (search_spec hs (.refl hs) hset h).1.own.varCount⟩

theorem solve {fuel : Nat} {v : Verdict} (h : s.solve fuel = .ok (v, s')) : SameScope s s' := by
  unfold Solver.solve at h
  split at h
  · obtain ⟨-, rfl⟩ := Prod.mk.inj (Except.ok.inj h)
    exact refl s
  · obtain ⟨⟨r, s₁⟩, hsearch, h⟩ := Except.bind_eq_ok.mp h
    have hback := backtrackTo hs 0
    have hsame := hback.trans (search (hs.backtrackTo 0) (hflags.of_same hback) hsearch)
    cases r with
    | satisfiable m =>
      obtain ⟨-, rfl⟩ := Prod.mk.inj (Except.ok.inj h)
      exact ⟨hsame.scope, hsame.varCount⟩
    | refuted learnt =>
      obtain ⟨-, rfl⟩ := Prod.mk.inj (Except.ok.inj h)
      exact hsame
    | unknown =>
      obtain ⟨-, rfl⟩ := Prod.mk.inj (Except.ok.inj h)
      exact hsame

theorem impliedLiterals {P : SatProcedure} {fuel : Nat} {projected : Bool}
    {ledger ledger' : ModelLedger} {r : Except ToolError ImpliedLiterals}
    (h : s.impliedLiterals P fuel c ledger projected = .ok (r, ledger', s')) : SameScope s s' := by
  have hs₀ : Sound [[]] s := hs.of_unsatisfiable not_satisfiable_nil
  have hany : s.Callable P c ∨ ¬ Satisfiable [[]] := Or.inr not_satisfiable_nil
  exact ⟨(Over.impliedLiterals hs₀ hflags hany h).2,
    (impliedLiterals_concludes hs₀ hany h 0).within.varCount⟩

end SameScope

namespace ScopeExact

theorem growTo (h : s.ScopeExact) (count : Nat) : (s.growTo count).ScopeExact := by
  unfold Solver.growTo
  split
  · exact h
  · rename_i hle
    exact ScopeTable.Exact.resize h (Nat.le_of_not_le hle)

theorem addNormalized (h : s.ScopeExact) (d : Clause) : (s.addNormalized d).ScopeExact := by
  unfold Solver.addNormalized
  simp only
  split
  · exact h.growTo _
  · exact (h.growTo _).of_same (.insertClause _ _ _)

theorem project (h : s.ScopeExact) (vars : List Var) : (s.project vars).ScopeExact :=
  (h.growTo _).of_same ⟨rfl, rfl⟩

theorem setProjection (h : s.ScopeExact) (vars : List Var) : (s.setProjection vars).ScopeExact := by
  let grown := s.growTo (vars.foldl (fun bound (v : Var) => max bound (v.index + 1)) 0)
  have hcleared : ({ grown with projection := grown.projection.fill false } : Solver).ScopeExact :=
    (h.growTo _).of_same ⟨rfl, rfl⟩
  exact hcleared.project vars

theorem ofFormula (f : Formula) (options : Options) : (ofFormula f options).ScopeExact := by
  have hnew : (new options).ScopeExact := ScopeTable.exact_default
  have hall : (f.clauses.foldl Solver.addNormalized
      ((new options).growTo f.numVariables)).ScopeExact :=
    List.foldlRecOn f.clauses _ (motive := ScopeExact) (hnew.growTo _) fun _ h d _ =>
      h.addNormalized d
  unfold Solver.ofFormula
  simp only
  split
  · exact hall.setProjection _
  · exact hall

end ScopeExact

/-- **Every call keeps the flags right**: it returns to the scope it was called in,
or changes the flags with the scope. -/
theorem Call.scopeExact {G : List Clause} (hcall : Call F s F' s') (hs : Sound G s)
    (hflags : s.ScopeExact) : s'.ScopeExact := by
  cases hcall with
  | add hr =>
    unfold addClause at hr
    split at hr
    · exact Except.ok.inj hr ▸ hflags.addNormalized _
    · cases hr
  | grow count => exact hflags.growTo count
  | project vars => exact hflags.project vars
  | setProjection vars => exact hflags.setProjection vars
  | decide hopen hr =>
    obtain ⟨hl, stats, hprop⟩ := decide_eq_ok hr
    have hsame := SameScope.propagate (hs.decided hl hopen) hprop
    exact hflags.of_same ⟨hsame.scope, hsame.varCount⟩
  | propagate hr => exact hflags.of_same (.propagate hs hr)
  | backtrack k => exact hflags.of_same (.backtrackTo hs k)
  | enter hr =>
    obtain ⟨hvars, -, rfl⟩ := enterScope_spec hr
    exact ScopeTable.Exact.swap hflags hvars
  | restore hknown => exact ScopeTable.Exact.swap hflags hknown
  | search hr => exact hflags.of_same (.search hs hflags hr)
  | implied hengine hr => exact hflags.of_same (.impliedLiterals hs hflags hr)
  | solve hr => exact hflags.of_same (.solve hs hflags hr)
  | substitute hr => exact hflags.of_same (.substitute hs hr)
  | order hr =>
    obtain ⟨_, _, rfl⟩ := computeOrder_eq_ok hr
    exact hflags
  | decompose hr =>
    obtain ⟨_, rfl⟩ := decompose_eq_ok hr
    exact hflags
  | models pool => exact hflags

/-- **In every state the flags are right**, by induction on the calls. -/
theorem Attained.scopeExact (h : Attained s) : s.ScopeExact := by
  induction h with
  | blank options limit => exact ScopeTable.exact_default
  | ofFormula f options => exact .ofFormula f options
  | call h hcall ih => exact hcall.scopeExact h.sound ih
  | implied h hr ih => exact ih.of_same (.impliedLiterals h.sound ih hr)

/-! ## What a call gives back -/

/-- **Every call gives back what it borrowed**, in every state, for every
component, budget, ledger and engine, and however it ends: with a model, a
refutation or neither, with forced literals, with a clause that is false, or
with an error of the engine. -/
theorem Attained.leases (h : Attained s) (c : Component) :
    (∀ (fuel : Nat) (budget : Option Nat) (r : SearchResult) (s' : Solver),
        s.search fuel c budget = .ok (r, s') → Leased c s s')
      ∧ ∀ (P : SatProcedure) (fuel : Nat) (ledger ledger' : ModelLedger) (projected : Bool)
          (r : Except ToolError ImpliedLiterals) (s' : Solver),
        s.impliedLiterals P fuel c ledger projected = .ok (r, ledger', s') → Leased c s s' := by
  have hs := h.sound
  have hflags := h.scopeExact
  constructor
  · intro fuel budget r s' hr
    have hset : ∀ done, SettledTo done 0 s → ∃ n, 0 ≤ n ∧ SettledTo done n s := fun _ hb =>
    ⟨0, Nat.le_refl 0, hb⟩
    obtain ⟨hsearched, -⟩ := search_spec hs (.refl hs) hset hr
    obtain ⟨hover, hscope, -⟩ := (Over.refl c s).search (N := Unfollowed) hflags hs (.refl hs) hset
      (fun _ hl => hl) (fun _ hν => hν.elim) hr
    exact hsearched.own.leased hs hsearched.sound hsearched.level hscope hover
  · intro P fuel ledger ledger' projected r s' hr
    have hany : s.Callable P c ∨ ¬ Satisfiable [[]] := Or.inr not_satisfiable_nil
    have hcon := impliedLiterals_concludes hs hany hr 0
    obtain ⟨hover, hscope⟩ := Over.impliedLiterals hs hflags hany hr
    exact hcon.within.leased hs hcon.sound hcon.level hscope hover

/-- A search for the consequent of `implication`, inside the scope of the
antecedent that was decided before: it appends the consequent at level 1. -/
theorem Attained.leases_implication : ∃ (s s' : Solver) (r : SearchResult),
    Attained s ∧ s.level = 1 ∧ s.inScope ⟨1⟩ = false
      ∧ s.search 1 (Component.ofLists [⟨1⟩] []) none = .ok (r, s')
      ∧ s'.trail.litsFrom s.trail.size = [Var.pos ⟨1⟩]
      ∧ Leased (Component.ofLists [⟨1⟩] []) s s' := by
  have hopen : (Solver.ofFormula implication {}).trail.isAssigned ⟨0⟩ = false := by
    rw [ofFormula_implication]
    decide +kernel
  have hrun : (do
      let r₁ ← (Solver.ofFormula implication {}).enterScope (Component.ofLists [⟨0⟩] [])
      let r₂ ← r₁.2.decide (Var.pos ⟨0⟩)
      let r₃ ← (r₂.2.restoreScope none).enterScope (Component.ofLists [⟨0⟩] [])
      let r₄ ← r₃.2.search 1 (Component.ofLists [⟨1⟩] []) none
      return r₃.2.level == 1 && !r₃.2.inScope ⟨1⟩
        && r₄.2.trail.litsFrom r₃.2.trail.size == [Var.pos ⟨1⟩] :
      Except Fault Bool) = .ok true := by
    rw [ofFormula_implication]
    decide +kernel
  obtain ⟨⟨_, s₁⟩, h₁, hrun⟩ := Except.bind_eq_ok.mp hrun
  obtain ⟨⟨_, s₂⟩, h₂, hrun⟩ := Except.bind_eq_ok.mp hrun
  obtain ⟨⟨_, s₃⟩, h₃, hrun⟩ := Except.bind_eq_ok.mp hrun
  obtain ⟨⟨r, s₄⟩, h₄, hrun⟩ := Except.bind_eq_ok.mp hrun
  have hend := Except.ok.inj hrun
  simp only [Bool.and_eq_true, beq_iff_eq, Bool.not_eq_true'] at hend
  have hopen₁ : s₁.trail.isAssigned (Var.pos ⟨0⟩).var = false := by
    obtain ⟨-, -, rfl⟩ := enterScope_spec h₁
    exact hopen
  have hreach : Attained s₃ := .call (F := []) (.call (F := []) (.call (F := []) (.call (F := [])
    (.ofFormula implication {}) (.enter h₁)) (.decide hopen₁ h₂))
    (.restore fun _ hv => absurd hv List.not_mem_nil)) (.enter h₃)
  exact ⟨s₃, s₄, r, hreach, hend.1.1, hend.1.2, h₄, hend.2, (hreach.leases _).1 1 none r s₄ h₄⟩

end Solver

end Cleave
