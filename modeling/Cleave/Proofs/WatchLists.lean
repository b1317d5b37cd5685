import Cleave.Proofs.Reachable

/-!
# The watch lists are coherent

Whatever was called before, and whatever an engine outside answered, a long
clause stands on the lists of its first two literals, once on each, and on no
other list; and no list names a clause that does not exist
(`Attained.watchCoherent`). A clause that were missing on a list would never be
looked at when the literal becomes false, and one that stood on it twice would
be looked at with the list already taken over.

That every list has the right clauses is part of the invariant
(`WatchesExactly`), which visits, backtracking, learning, forgetting and
rebuilding keep. What is said here is what the invariant means for one clause:
how often its position occurs on each list.
-/

namespace Cleave

namespace Solver

variable {s : Solver}

/-- **Coherent watch lists.** A clause of the arena has at least three literals,
over different variables, and its position stands once on the list of each of
its first two literals and on no other list. No list has other positions. -/
structure WatchCoherent (s : Solver) : Prop where
  three : ∀ id < s.store.long.size, 3 ≤ (s.store.lits id).length
  distinct : ∀ id < s.store.long.size, ((s.store.lits id).map Lit.var).Nodup
  first : ∀ id < s.store.long.size, s.watches[(s.store.clause id).first].toList.count id = 1
  second : ∀ id < s.store.long.size, s.watches[(s.store.clause id).second].toList.count id = 1
  elsewhere : ∀ id < s.store.long.size, ∀ l : Lit, l ≠ (s.store.clause id).first →
    l ≠ (s.store.clause id).second → id ∉ s.watches[l].toList
  inArena : ∀ l : Lit, ∀ id ∈ s.watches[l].toList, id < s.store.long.size

end Solver

/-- A clause stands once on the list of a literal that it watches. -/
theorem WatchesExactly.count {w : LitTable (Array ClauseId)} {store : ClauseStore} {n : Nat}
    (h : WatchesExactly w store n) {id : ClauseId} {l : Lit} (hl : store.Watches id l) :
    w[l].toList.count id = 1 :=
  List.count_eq_one_of_mem (h.nodup l) ((h.mem_iff l id).mpr hl)

namespace Solver

variable {F : List Clause} {s : Solver}

theorem Sound.coherent (hs : Sound F s) : WatchCoherent s where
  three := fun _ hid => hs.store.longThree _ (ClauseStore.clause_mem hid)
  distinct := fun _ hid => hs.store.longNodup _ (ClauseStore.clause_mem hid)
  first := fun _ hid => hs.watches.count ⟨hid, Or.inl rfl⟩
  second := fun _ hid => hs.watches.count ⟨hid, Or.inr rfl⟩
  elsewhere := by
    intro id _ l hfirst hsecond hmem
    rcases ((hs.watches.mem_iff l id).mp hmem).2 with he | he
    · exact hfirst he.symm
    · exact hsecond he.symm
  inArena := fun l id hmem => ((hs.watches.mem_iff l id).mp hmem).1

/-- **The watch lists are coherent in every state**, after any calls in any
order and with any engine. -/
theorem Attained.watchCoherent (h : Attained s) : WatchCoherent s :=
  h.sound.coherent

/-- One clause of three literals. -/
def threefold : Formula := { clauses := [[Var.pos ⟨0⟩, Var.pos ⟨1⟩, Var.pos ⟨2⟩]] }

/-- A decision against a watched literal sends the clause to the list of the
literal that was not watched before. -/
theorem Attained.watchCoherent_threefold : ∃ s : Solver, Attained s
    ∧ (s.store.clause 0).first = Var.pos ⟨1⟩ ∧ (s.store.clause 0).second = Var.pos ⟨2⟩
    ∧ s.watches[Var.pos ⟨2⟩].toList.count 0 = 1 ∧ 0 ∉ s.watches[Var.pos ⟨0⟩].toList := by
  have hopen : (Solver.ofFormula threefold {}).trail.isAssigned ⟨0⟩ = false := by
    rw [ofFormula_of_ascending (f := threefold) (by decide) rfl]
    decide +kernel
  have hrun : ((Solver.ofFormula threefold {}).decide (Var.neg ⟨0⟩)).toOption.any (fun r =>
      r.2.store.long.size == 1 && (r.2.store.clause 0).first == Var.pos ⟨1⟩
        && (r.2.store.clause 0).second == Var.pos ⟨2⟩) = true := by
    rw [ofFormula_of_ascending (f := threefold) (by decide) rfl]
    decide +kernel
  obtain ⟨⟨r, s⟩, hcall, hresult⟩ := (Option.any_eq_true _ _).mp hrun
  simp only [Bool.and_eq_true, beq_iff_eq] at hresult
  obtain ⟨⟨hsize, hfirst⟩, hsecond⟩ := hresult
  have hs : Attained s := .call (F := threefold.clauses) (.ofFormula threefold {})
    (.decide hopen (Except.toOption_eq_some.mp hcall))
  have hlt : 0 < s.store.long.size := by omega
  refine ⟨s, hs, hfirst, hsecond, hsecond ▸ hs.watchCoherent.second 0 hlt,
    hs.watchCoherent.elsewhere 0 hlt _ ?_ ?_⟩
  · rw [hfirst]
    decide
  · rw [hsecond]
    decide

end Solver

end Cleave
