import Cleave.Graph.StaticOrder
import Cleave.Proofs.Assumptions
import Cleave.Proofs.Substitution

/-!
# Inference is sound in every reachable state

A solver may be driven in any order: clauses are added, decisions taken and
taken back, scopes entered and left, searches run, implied literals computed,
equivalent literals substituted. `Solver.Call` is one such call, with the
clauses given so far before and after it, and `Solver.Reachable` are the
states that calls lead to.

Every call keeps the invariant (`Call.sound`), also one that is made where a
conflict is pending, and none takes the conflict flag down
(`Call.conflicted`). So whatever is stored or assigned follows from the
clauses given, and from the decisions of the levels below
(`Reachable.inference_sound`).

An engine outside that answers wrongly breaks this, but not the order of the
data: `Solver.Attained` are the states that calls with any engine lead to, and
all but the meaning of the invariant holds in them (`Attained.sound`).
-/

namespace Cleave

namespace Solver

variable {F F' : List Clause} {s s' : Solver} {c : Component}

/-- **A public call**, from the clauses given so far and the solver to those
after it. Decisions are taken on open variables, and an engine outside is only
called on a component that has all open variables of its clauses. Any scope of
known variables may be restored, also one that was not entered last. -/
inductive Call : List Clause → Solver → List Clause → Solver → Prop where
  | add {F : List Clause} {s s' : Solver} {c : Clause} (hr : s.addClause c = .ok s') :
      Call F s (F ++ [c]) s'
  | grow (F : List Clause) (s : Solver) (count : Nat) : Call F s F (s.growTo count)
  | project (F : List Clause) (s : Solver) (vars : List Var) : Call F s F (s.project vars)
  | setProjection (F : List Clause) (s : Solver) (vars : List Var) :
      Call F s F (s.setProjection vars)
  | decide {F : List Clause} {s s' : Solver} {l : Lit} {r : Option Conflict}
      (hopen : s.trail.isAssigned l.var = false) (hr : s.decide l = .ok (r, s')) : Call F s F s'
  | propagate {F : List Clause} {s s' : Solver} {r : Option Conflict}
      (hr : s.propagate = (r, s')) : Call F s F s'
  | backtrack (F : List Clause) (s : Solver) (k : Nat) : Call F s F (s.backtrackTo k)
  | enter {F : List Clause} {s s' : Solver} {c : Component} {previous : Option Scope}
      (hr : s.enterScope c = .ok (previous, s')) : Call F s F s'
  | restore {F : List Clause} {s : Solver} {previous : Option Scope}
      (hknown : ∀ v ∈ Scope.varsOf previous, v.index < s.varCount) :
      Call F s F (s.restoreScope previous)
  | search {F : List Clause} {s s' : Solver} {fuel : Nat} {c : Component} {budget : Option Nat}
      {r : SearchResult} (hr : s.search fuel c budget = .ok (r, s')) : Call F s F s'
  | implied {F : List Clause} {s s' : Solver} {P : SatProcedure} {fuel : Nat} {c : Component}
      {ledger ledger' : ModelLedger} {projected : Bool} {r : Except ToolError ImpliedLiterals}
      (hcall : s.Callable P c)
      (hr : s.impliedLiterals P fuel c ledger projected = .ok (r, ledger', s')) : Call F s F s'
  | solve {F : List Clause} {s s' : Solver} {fuel : Nat} {v : Verdict}
      (hr : s.solve fuel = .ok (v, s')) : Call F s F s'
  | substitute {F : List Clause} {s s' : Solver} {sub : Substitution}
      (hr : s.substitute = .ok (sub, s')) : Call F s F s'
  | order {F : List Clause} {s s' : Solver} {c : Component} {run : String → ToolRun}
      (hr : s.computeOrder c run = .ok (.ok s')) : Call F s F s'
  | decompose {F : List Clause} {s s' : Solver} {c : Component} {d : Decomposition}
      (hr : s.decompose c = .ok (d, s')) : Call F s F s'
  | models (F : List Clause) (s : Solver) (pool : ModelPool) : Call F s F { s with pool := pool }

/-- **Any number of calls.** -/
inductive Calls (F : List Clause) (s : Solver) : List Clause → Solver → Prop where
  | refl : Calls F s F s
  | step {F' F'' : List Clause} {s' s'' : Solver} (h : Calls F s F' s')
      (hcall : Call F' s' F'' s'') : Calls F s F'' s''

/-- **The states that calls lead to**, with all clauses given so far. -/
inductive Reachable : List Clause → Solver → Prop where
  | blank (options : Options) (limit : Nat) : Reachable [] (blank options limit)
  | ofFormula (f : Formula) (options : Options) : Reachable f.clauses (ofFormula f options)
  | call {F F' : List Clause} {s s' : Solver} (h : Reachable F s) (hcall : Call F s F' s') :
      Reachable F' s'

/-! ## What one call keeps -/

/-- **The elimination order used** for the primal graph: the one of an outside
decomposer's answer, or the one of min-fill, or none where min-fill gives up. -/
inductive EliminatedBy (s : Solver) (run : String → ToolRun) (g : Graph) : List Var → Prop where
  | decomposer {program : String} {d : TreeDecomposition}
      (hprogram : s.options.decomposer = some program)
      (hd : Decomposer.decompose ⟨program, .seconds s.options.decomposerTimeout, run⟩ g
        = .ok (.ok d)) : EliminatedBy s run g d.eliminationOrder
  | minFill {d : TreeDecomposition} (hprogram : s.options.decomposer = none)
      (hd : minFill g (some s.options.widthBound) = some d) : EliminatedBy s run g d.eliminationOrder
  | fallback (hprogram : s.options.decomposer = none)
      (hd : Cleave.minFill g (some s.options.widthBound) = none) : EliminatedBy s run g []

/-- **Computing a static order** installs the one of an elimination. -/
theorem computeOrder_spec {run : String → ToolRun} (h : s.computeOrder c run = .ok (.ok s')) :
    ∃ g elimination stats, s.primalGraph c s.options.traversal = .ok g
      ∧ s.EliminatedBy run g elimination
      ∧ s' = { s with
          order := .ofElimination elimination (s.variableWeights c) s.varCount
          stats := stats } := by
  unfold computeOrder at h
  obtain ⟨g, hg, h⟩ := Except.bind_eq_ok.mp h
  split at h
  · rename_i program hprogram
    obtain ⟨d, hd, h⟩ := Except.bind_eq_ok.mp h
    cases d with
    | error e => cases h
    | ok d =>
      obtain rfl := Except.ok.inj (Except.ok.inj h)
      exact ⟨g, _, _, hg, .decomposer hprogram hd, rfl⟩
  · rename_i hprogram
    split at h
    · rename_i d hd
      obtain rfl := Except.ok.inj (Except.ok.inj h)
      exact ⟨g, _, _, hg, .minFill hprogram hd, rfl⟩
    · rename_i hd
      obtain rfl := Except.ok.inj (Except.ok.inj h)
      exact ⟨g, _, _, hg, .fallback hprogram hd, rfl⟩

/-- A static order concerns the heuristics only. -/
theorem computeOrder_eq_ok {run : String → ToolRun} (h : s.computeOrder c run = .ok (.ok s')) :
    ∃ order stats, s' = { s with order := order, stats := stats } := by
  obtain ⟨_, _, _, -, -, rfl⟩ := computeOrder_spec h
  exact ⟨_, _, rfl⟩

/-- Taking a component apart is only counted. -/
theorem decompose_eq_ok {d : Decomposition} (h : s.decompose c = .ok (d, s')) :
    ∃ stats, s' = { s with stats := stats } := by
  unfold decompose at h
  obtain ⟨⟨⟩, -, h⟩ := Except.bind_eq_ok.mp h
  obtain ⟨⟨⟩, -, h⟩ := Except.bind_eq_ok.mp h
  obtain ⟨d₀, -, h⟩ := Except.bind_eq_ok.mp h
  obtain ⟨-, rfl⟩ := Prod.mk.inj (Except.ok.inj h)
  exact ⟨_, rfl⟩

/-- **Every call keeps the invariant.** -/
theorem Call.sound (hcall : Call F s F' s') (hs : Sound F s) : Sound F' s' := by
  cases hcall with
  | add hr => exact (addClause_adds hs hr).2.sound
  | grow count => exact hs.growTo count
  | project vars => exact (Adds.project hs vars).sound
  | setProjection vars => exact (Adds.setProjection hs vars).sound
  | decide hopen hr =>
    obtain ⟨hl, stats, hprop⟩ := decide_eq_ok hr
    exact (propagate_spec (hs.decided hl hopen) hprop).1.sound
  | propagate hr => exact (propagate_spec hs hr).1.sound
  | backtrack k => exact hs.backtrackTo k
  | enter hr =>
    obtain ⟨-, -, rfl⟩ := enterScope_spec hr
    exact hs
  | restore => exact hs.rewind _
  | search hr => exact (search_spec hs (.refl hs) (fun _ hb => ⟨0, Nat.le_refl 0, hb⟩) hr).1.sound
  | implied hengine hr => exact (impliedLiterals_concluded hs hengine hr 0).sound
  | solve hr => exact (solve_spec hs hr).1
  | substitute hr => exact (substitute_spec hs hr).1
  | order hr =>
    obtain ⟨_, _, rfl⟩ := computeOrder_eq_ok hr
    exact hs
  | decompose hr =>
    obtain ⟨_, rfl⟩ := decompose_eq_ok hr
    exact hs
  | models pool => exact hs

/-- **No call takes the conflict flag down.** -/
theorem Call.conflicted (hcall : Call F s F' s') (hs : Sound F s) (hc : s.conflicted = true) :
    s'.conflicted = true := by
  have hup : ∀ {G : List Clause} {t : Solver}, Adds F G s t → t.conflicted = true := by
    intro G t hadds
    by_contra hf
    rw [hadds.conflicted (by simpa using hf)] at hc
    cases hc
  cases hcall with
  | add hr => exact hup (addClause_adds hs hr).2
  | grow count => exact hup (Adds.growTo hs count)
  | project vars => exact hup (Adds.project hs vars)
  | setProjection vars => exact hup (Adds.setProjection hs vars)
  | decide hopen hr =>
    obtain ⟨hl, stats, hprop⟩ := decide_eq_ok hr
    rw [← (propagate_spec (hs.decided hl hopen) hprop).1.grown.others]
    exact hc
  | propagate hr =>
    rw [← (propagate_spec hs hr).1.grown.others]
    exact hc
  | backtrack k => exact (hs.roots_backtrackTo k).2.1.trans hc
  | enter hr =>
    obtain ⟨-, -, rfl⟩ := enterScope_spec hr
    exact hc
  | restore => exact hc
  | search hr => exact (search_of_conflicted hc hr).2
  | implied hengine hr => exact (impliedLiterals_of_conflicted hc hr).2
  | solve hr => exact (solve_of_conflicted hc hr).2
  | substitute hr =>
    by_contra hf
    rw [(substitute_spec hs hr).2.conflicted (by simpa using hf)] at hc
    cases hc
  | order hr =>
    obtain ⟨_, _, rfl⟩ := computeOrder_eq_ok hr
    exact hc
  | decompose hr =>
    obtain ⟨_, rfl⟩ := decompose_eq_ok hr
    exact hc
  | models pool => exact hc

/-! ## Any number of calls -/

theorem Calls.sound (h : Calls F s F' s') (hs : Sound F s) : Sound F' s' := by
  induction h with
  | refl => exact hs
  | step _ hcall ih => exact hcall.sound ih

theorem Calls.conflicted (h : Calls F s F' s') (hs : Sound F s) (hc : s.conflicted = true) :
    s'.conflicted = true := by
  induction h with
  | refl => exact hc
  | step h hcall ih => exact hcall.conflicted (h.sound hs) ih

theorem Reachable.sound (h : Reachable F s) : Sound F s := by
  induction h with
  | blank options limit => exact sound_blank options limit
  | ofFormula f options => exact sound_ofFormula f options
  | call _ hcall ih => exact hcall.sound ih

/-! ## Any engine -/

/-- **The states that calls lead to, whatever engine answers.** What is stored
may be wrong there, but not in disorder. -/
inductive Attained : Solver → Prop where
  | blank (options : Options) (limit : Nat) : Attained (blank options limit)
  | ofFormula (f : Formula) (options : Options) : Attained (ofFormula f options)
  | call {F F' : List Clause} {s s' : Solver} (h : Attained s) (hcall : Call F s F' s') :
      Attained s'
  | implied {s s' : Solver} {P : SatProcedure} {fuel : Nat} {c : Component}
      {ledger ledger' : ModelLedger} {projected : Bool} {r : Except ToolError ImpliedLiterals}
      (h : Attained s)
      (hr : s.impliedLiterals P fuel c ledger projected = .ok (r, ledger', s')) : Attained s'

theorem Reachable.attained (h : Reachable F s) : Attained s := by
  induction h with
  | blank options limit => exact .blank options limit
  | ofFormula f options => exact .ofFormula f options
  | call _ hcall ih => exact .call ih hcall

/-- A call does not look at the clauses given so far. -/
theorem Call.relabel (hcall : Call F s F' s') (G : List Clause) :
    ∃ G', Call G s G' s' := by
  cases hcall with
  | add hr => exact ⟨_, .add hr⟩
  | grow count => exact ⟨G, .grow G s count⟩
  | project vars => exact ⟨G, .project G s vars⟩
  | setProjection vars => exact ⟨G, .setProjection G s vars⟩
  | decide hopen hr => exact ⟨G, .decide hopen hr⟩
  | propagate hr => exact ⟨G, .propagate hr⟩
  | backtrack k => exact ⟨G, .backtrack G s k⟩
  | enter hr => exact ⟨G, .enter hr⟩
  | restore hknown => exact ⟨G, .restore hknown⟩
  | search hr => exact ⟨G, .search hr⟩
  | implied hengine hr => exact ⟨G, .implied hengine hr⟩
  | solve hr => exact ⟨G, .solve hr⟩
  | substitute hr => exact ⟨G, .substitute hr⟩
  | order hr => exact ⟨G, .order hr⟩
  | decompose hr => exact ⟨G, .decompose hr⟩
  | models pool => exact ⟨G, .models G s pool⟩

theorem not_satisfiable_nil : ¬ Satisfiable [[]] := fun ⟨_, hν⟩ => nomatch hν

/-- **The invariant without its meaning**: clauses without a model entail
whatever an engine makes up. -/
theorem Attained.sound (h : Attained s) : Sound [[]] s := by
  induction h with
  | blank options limit => exact (sound_blank options limit).of_unsatisfiable not_satisfiable_nil
  | ofFormula f options => exact (sound_ofFormula f options).of_unsatisfiable not_satisfiable_nil
  | call _ hcall ih =>
    obtain ⟨G', hcall⟩ := hcall.relabel [[]]
    exact (hcall.sound ih).of_unsatisfiable not_satisfiable_nil
  | implied _ hr ih => exact (impliedLiterals_concludes ih (Or.inr not_satisfiable_nil) hr 0).sound

/-! ## Soundness -/

/-- What is assigned up to a level follows from the clauses and the decisions
up to it. -/
theorem Sound.entails_segment (hs : Sound F s) {k : Nat} {l : Lit} (hl : l ∈ s.trail.segment k) :
    Entails (F ++ (s.trail.decisionsTo k).map fun d => [d]) [l] := by
  intro ν hν
  rw [allHold_iff] at hν
  have hF : allHold ν F = true := allHold_iff.mpr fun c hc => hν c (List.mem_append_left _ hc)
  have hmem : l ∈ s.trail.lits.toList.take (s.trail.levelStart (k + 1)) := List.mem_of_mem_drop hl
  refine Clause.holds_singleton.mpr (hs.holds_of_decisions hF
    (List.take_append_drop (s.trail.levelStart (k + 1)) _).symm (fun q d r hsplit hq => ?_) l hmem)
  have hlen := congrArg List.length hsplit
  rw [List.length_take, List.length_append, List.length_cons] at hlen
  have hd : d ∈ s.trail.decisionsTo k := by
    have hlits : s.trail.lits.toList
        = q ++ d :: (r ++ s.trail.lits.toList.drop (s.trail.levelStart (k + 1))) := by
      rw [← List.cons_append, ← List.append_assoc, ← hsplit, List.take_append_drop]
    exact hs.trail.mem_decisionsTo hlits hq (by omega)
  exact Clause.holds_singleton.mp
    (hν [d] (List.mem_append_right _ (List.mem_map.mpr ⟨d, hd, rfl⟩)))

/-- **Inference is sound in every reachable state.** All stored clauses follow
from the clauses given, and so do the literals of level 0; a literal of level
`k` follows together with the decisions up to `k`; and a solver that counts as
refuted is. -/
theorem Reachable.inference_sound (h : Reachable F s) :
    (∀ l ∈ s.store.units.toList, Entails F [l])
      ∧ (∀ l, ∀ b ∈ s.store.implied l, Entails F [l.neg, b])
      ∧ (∀ c ∈ s.store.long.toList, Entails F c.lits)
      ∧ (∀ l ∈ s.trail.lits.toList, s.trail.levelOf l.var = 0 → Entails F [l])
      ∧ (∀ k, ∀ l ∈ s.trail.segment k,
          Entails (F ++ (s.trail.decisionsTo k).map fun d => [d]) [l])
      ∧ (s.conflicted = true → ¬ Satisfiable F) := by
  have hs := h.sound
  exact ⟨hs.entailed.units, hs.entailed.binary, hs.entailed.long,
    fun l hl h0 => hs.entails_root hl h0, fun k l hl => hs.entails_segment hl, hs.refuted⟩

/-- A single implication. -/
def implication : Formula := { clauses := [[Var.neg ⟨0⟩, Var.pos ⟨1⟩]] }

theorem ofFormula_implication : ofFormula implication {}
    = (((new {}).growTo 2).growTo 2).insertClause [Var.neg ⟨0⟩, Var.pos ⟨1⟩] false :=
  ofFormula_of_ascending (by decide) rfl {}

theorem Reachable.inference_sound_implication : ∃ s' : Solver,
    Reachable implication.clauses s' ∧ Var.pos ⟨1⟩ ∈ s'.trail.segment 1
      ∧ s'.trail.decisionsTo 1 = [Var.pos ⟨0⟩]
      ∧ Entails (implication.clauses ++ [[Var.pos ⟨0⟩]]) [Var.pos ⟨1⟩] := by
  have hopen : (Solver.ofFormula implication {}).trail.isAssigned ⟨0⟩ = false := by
    rw [ofFormula_implication]
    decide +kernel
  have hrun : ((Solver.ofFormula implication {}).decide (Var.pos ⟨0⟩)).toOption.any (fun r =>
      (r.2.trail.segment 1).contains (Var.pos ⟨1⟩) && r.2.trail.decisionsTo 1 = [Var.pos ⟨0⟩])
      = true := by
    rw [ofFormula_implication]
    decide +kernel
  obtain ⟨⟨r, s'⟩, hcall, hresult⟩ := (Option.any_eq_true _ _).mp hrun
  obtain ⟨hin, hdec⟩ := Bool.and_eq_true_iff.mp hresult
  have hdec : s'.trail.decisionsTo 1 = [Var.pos ⟨0⟩] := of_decide_eq_true hdec
  have hin : Var.pos ⟨1⟩ ∈ s'.trail.segment 1 := by simpa using hin
  have hreach : Reachable implication.clauses s' :=
    .call (.ofFormula implication {}) (.decide hopen (Except.toOption_eq_some.mp hcall))
  obtain ⟨-, -, -, -, hsegment, -⟩ := hreach.inference_sound
  have hent := hsegment 1 _ hin
  rw [hdec] at hent
  exact ⟨s', hreach, hin, hdec, hent⟩

end Solver

end Cleave
