import Cleave.Proofs.Flood
import Cleave.Proofs.Reduction

/-!
# The membership index is exact

Traversals, graphs, counts and scores read clauses off the index and never look
whether a clause is there or has the size it is filed under. They are right to:
whatever was called before, and whatever an engine outside answered, the index
lists the given long clauses and no others, each once under each of its
literals and variables, in the table of its size (`Attained.membershipExact`).

That every list has the right clauses and ascends is part of the invariant
(`Listed`), which inserting, visiting, forgetting and rebuilding keep. What is
said here is what it means for one literal, over all three tables.
-/

namespace Cleave

namespace Solver

variable {F : List Clause} {s : Solver}

/-- **An exact membership index.** It names the given long clauses, never a learnt
one, under their literals and variables. -/
structure MembershipExact (s : Solver) : Prop where
  /-- A literal has the given long clauses that contain it. -/
  mem_ofLit : ∀ l id, id ∈ s.membership.ofLit l ↔ s.store.Gives id ∧ l ∈ s.store.lits id
  nodup_ofLit : ∀ l, (s.membership.ofLit l).Nodup
  /-- They are split by their sizes. -/
  ternary : ∀ (l : Lit) id, id ∈ s.membership.ternary[l].toList
    ↔ id ∈ s.membership.ofLit l ∧ (s.store.lits id).length = 3
  quaternary : ∀ (l : Lit) id, id ∈ s.membership.quaternary[l].toList
    ↔ id ∈ s.membership.ofLit l ∧ (s.store.lits id).length = 4
  wide : ∀ (l : Lit) id, id ∈ s.membership.wide[l].toList
    ↔ id ∈ s.membership.ofLit l ∧ 5 ≤ (s.store.lits id).length
  /-- A variable has the given long clauses that contain one of its literals. -/
  mem_ofVar : ∀ v id, id ∈ s.membership.ofVar v
    ↔ s.store.Gives id ∧ ∃ l ∈ s.store.lits id, l.var = v
  nodup_ofVar : ∀ v, (s.membership.ofVar v).Nodup
  /-- All of them are counted. -/
  indexed : s.membership.indexed = s.store.givenLong.length

end Solver

theorem Width.of_eq_ternary {n : Nat} : Width.of n = .ternary ↔ n = 3 := by
  unfold Width.of
  split <;> simp_all

theorem Width.of_eq_quaternary {n : Nat} : Width.of n = .quaternary ↔ n = 4 := by
  unfold Width.of
  split <;> simp_all

theorem Width.of_eq_wide {n : Nat} (hn : 3 ≤ n) : Width.of n = .wide ↔ 5 ≤ n := by
  match n with
  | 3 => decide
  | 4 => decide
  | n + 5 => exact iff_of_true rfl (Nat.le_add_left 5 n)

namespace Listed

variable {m : Membership} {store : ClauseStore} {count : Nat} (h : Listed m store count)

include h

theorem nodup_table (w : Width) (l : Lit) : (m.table w)[l].toList.Nodup :=
  (h.ascending_table w l).imp Nat.ne_of_lt

/-- No clause is filed in two tables. -/
theorem disjoint_tables {w w' : Width} (hw : w ≠ w') (l : Lit) :
    (m.table w)[l].toList.Disjoint (m.table w')[l].toList := fun id hid hid' =>
  hw (((h.mem_table w l id).mp hid).2.2.symm.trans ((h.mem_table w' l id).mp hid').2.2)

/-- The three tables together name no clause twice. -/
theorem nodup_ofLit (l : Lit) : (m.ofLit l).Nodup := by
  have hnarrow := (h.nodup_table .ternary l).append (h.nodup_table .quaternary l)
    (h.disjoint_tables (by decide) l)
  refine hnarrow.append (h.nodup_table .wide l) (List.disjoint_append_left.mpr ⟨?_, ?_⟩)
  · exact h.disjoint_tables (show Width.ternary ≠ .wide by decide) l
  · exact h.disjoint_tables (show Width.quaternary ≠ .wide by decide) l

end Listed

namespace Solver

variable {F : List Clause} {s : Solver}

theorem Sound.exactMembership (hs : Sound F s) : MembershipExact s := by
  have htable : ∀ (w : Width) (l : Lit) id, id ∈ (s.membership.table w)[l].toList
      ↔ id ∈ s.membership.ofLit l ∧ Width.of (s.store.lits id).length = w := fun w l id => by
    rw [hs.listed.mem_table, hs.mem_ofLit, and_assoc]
  exact {
    mem_ofLit := fun l id => hs.mem_ofLit l
    nodup_ofLit := hs.listed.nodup_ofLit
    ternary := fun l id => by
      rw [← Width.of_eq_ternary]
      exact htable .ternary l id
    quaternary := fun l id => by
      rw [← Width.of_eq_quaternary]
      exact htable .quaternary l id
    wide := fun l id => by
      refine (htable .wide l id).trans (and_congr_right fun hid => Width.of_eq_wide ?_)
      exact hs.listed.three_le id ((hs.mem_ofLit l).mp hid).1
    mem_ofVar := hs.listed.mem_ofVar
    nodup_ofVar := fun v => (hs.listed.ascending_ofVar v).imp Nat.ne_of_lt
    indexed := hs.listed.indexed }

/-- **The membership index is exact in every state**, after any calls in any order
and with any engine. -/
theorem Attained.membershipExact (h : Attained s) : MembershipExact s :=
  h.sound.exactMembership

/-- After a search that learnt two clauses of three literals, the literal has its
four given clauses, all of four literals, and none of those learnt. -/
theorem Attained.membershipExact_crowded : ∃ s : Solver, Attained s
    ∧ Var.neg ⟨4⟩ ∈ s.store.lits 4 ∧ (s.store.clause 4).learnt = true
    ∧ 4 ∉ s.membership.ofLit (Var.neg ⟨4⟩) ∧ 3 ∈ s.membership.quaternary[Var.neg ⟨4⟩].toList
    ∧ s.membership.indexed = 4 := by
  have hrun : ((Solver.ofFormula crowded
      { branching := .static, maxLearnts := 1, keepLearntLength := 2 }).search 6
        ⟨(List.range 11).map Var.mk, [0, 1, 2, 3]⟩ (some 2)).toOption.any (fun r =>
      r.2.store.long.size == 6 && r.2.store.givenLong.length == 4
        && (r.2.store.lits 4).contains (Var.neg ⟨4⟩) && (r.2.store.clause 4).learnt
        && r.2.store.lits 3 == [Var.neg ⟨10⟩, Var.neg ⟨7⟩, Var.neg ⟨4⟩, Var.neg ⟨5⟩]
        && !(r.2.store.clause 3).learnt) = true := by
    rw [ofFormula_of_ascending (f := crowded) (by decide) rfl]
    decide +kernel
  obtain ⟨⟨r, s⟩, hsearch, hresult⟩ := (Option.any_eq_true _ _).mp hrun
  simp only [Bool.and_eq_true, beq_iff_eq, List.contains_iff_mem, Bool.not_eq_true'] at hresult
  obtain ⟨⟨⟨⟨⟨hsize, hgiven⟩, hin⟩, hlearnt⟩, hlits⟩, hfour⟩ := hresult
  have hs : Attained s :=
    .call (F := []) (.ofFormula crowded _) (.search (Except.toOption_eq_some.mp hsearch))
  have hexact := hs.membershipExact
  have hlisted : 3 ∈ s.membership.ofLit (Var.neg ⟨4⟩) :=
    (hexact.mem_ofLit _ 3).mpr ⟨⟨by rw [hsize]; decide, hfour⟩, by rw [hlits]; decide⟩
  refine ⟨s, hs, hin, hlearnt, fun hid => ?_, ?_, hexact.indexed.trans hgiven⟩
  · have hgives := ((hexact.mem_ofLit _ 4).mp hid).1
    exact absurd hgives.2 (by simp [hlearnt])
  · exact (hexact.quaternary _ 3).mpr ⟨hlisted, by rw [hlits]; rfl⟩

end Solver

end Cleave
