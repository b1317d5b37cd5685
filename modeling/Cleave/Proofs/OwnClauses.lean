import Cleave.Proofs.Reachable

/-!
# A solver rests on its own clauses

The invariant speaks of the clauses that a solver was given. Some of them it no
longer has: a substitution replaces literals in all of them, and a tautology is
never stored. Here the invariant is shown for what the solver itself still
stores as given, its given clauses and its units
(`ClauseStore.givenClauses`). As long as nothing is refuted, all that is learnt,
implied or known at level 0 follows from these (`Reachable.restsOnGiven`).

Learnt clauses may not be counted in. A reduction forgets them, and after a
substitution a root fact has no reason that would keep the clause it came from;
it still follows, but from given clauses.

For most calls it is enough that they lose nothing given
(`ClauseStore.KeepsGiven`), as the invariant holds for any clauses to start
with. A new clause is stored as given itself (`Adds.filed`). A substitution
carries everything over to clauses of roots (`Carries.map_root`), and these are
the ones it stores.
-/

namespace Cleave

namespace ClauseStore

variable {s : ClauseStore} {count : Nat} {c : Clause} {ν : Valuation}

/-- **What was given**: all stored clauses that were not learnt, units among
them. -/
def givenClauses (s : ClauseStore) : List Clause :=
  (s.exported.filter fun c => !c.2).map Prod.fst

theorem mem_givenClauses : c ∈ s.givenClauses ↔ (c, false) ∈ s.exported := by
  simp [givenClauses]

/-- What is exported as given is a unit or a given clause. -/
theorem given_of_exported (h : (c, false) ∈ s.exported) :
    (∃ l ∈ s.units.toList, c = [l]) ∨ s.Given c := by
  rcases List.mem_append.mp h with h | h
  · rcases List.mem_append.mp h with h | h
    · obtain ⟨l, hl, heq⟩ := List.mem_map.mp h
      exact Or.inl ⟨l, hl, (Prod.mk.inj heq).1.symm⟩
    · obtain ⟨a, b, rfl, -, hb⟩ := mem_binaries.mp h
      exact Or.inr (Or.inr ⟨a, b, hb, rfl⟩)
  · obtain ⟨d, hd, heq⟩ := List.mem_map.mp h
    obtain ⟨rfl, hlearnt⟩ := Prod.mk.inj heq
    obtain ⟨id, hid, rfl⟩ := mem_long_iff.mp hd
    exact Or.inr (Or.inl ⟨id, hid, hlearnt, rfl⟩)

theorem Wf.allHold_givenClauses (h : s.Wf count) :
    allHold ν s.givenClauses = true ↔ s.GivenTrue ν := by
  rw [allHold_iff]
  constructor
  · intro hall
    refine ⟨fun c hc => ?_, fun l hl => ?_⟩
    · obtain ⟨d, hd, hperm⟩ := h.exported_of_given hc
      rw [← Clause.holds_perm hperm]
      exact hall d (mem_givenClauses.mpr hd)
    · exact Clause.holds_singleton.mp (hall [l] (mem_givenClauses.mpr (exported_unit hl)))
  · intro hν c hc
    rcases given_of_exported (mem_givenClauses.mp hc) with ⟨l, hl, rfl⟩ | hgiven
    · exact Clause.holds_singleton.mpr (hν.units l hl)
    · exact hν.clauses c hgiven

end ClauseStore

namespace Solver

variable {F F' G : List Clause} {s s' : Solver}

/-- **A solver that rests on its own clauses**: unless it was refuted, it is
sound for what it stores as given. -/
def RestsOnGiven (s : Solver) : Prop :=
  s.conflicted = false → Sound s.store.givenClauses s

/-- A solver for clauses that hold wherever its own given ones do. -/
theorem Sound.ofGiven (hs : Sound G s)
    (h : ∀ ν, s.store.GivenTrue ν → allHold ν G = true) : Sound s.store.givenClauses s := by
  have hback : ∀ ν, allHold ν s.store.givenClauses = true → allHold ν G = true := fun ν hν =>
    h ν (hs.store.allHold_givenClauses.mp hν)
  exact hs.transfer (fun _ hc ν hν => hc ν (hback ν hν)) fun hno ⟨ν, hν⟩ => hno ⟨ν, hback ν hν⟩

/-! ## One call -/

/-- A step that loses nothing given. -/
theorem Sound.keep (hs : Sound s.store.givenClauses s) (hs' : Sound s.store.givenClauses s')
    (hkeep : s.store.KeepsGiven s'.store) : Sound s'.store.givenClauses s' :=
  hs'.ofGiven fun _ hν => hs.store.allHold_givenClauses.mpr (hkeep.givenTrue hν)

/-- A step that adds clauses. -/
theorem Adds.ofGiven (h : Adds F G s s') (hconf : s'.conflicted = false)
    (hF : ∀ ν, s'.store.GivenTrue ν → allHold ν F = true) : Sound s'.store.givenClauses s' :=
  h.sound.ofGiven fun ν hν => allHold_iff.mpr fun c hc =>
    (h.filed hconf ν hν c hc).elim (allHold_iff.mp (hF ν hν) c) id

/-- A full search loses nothing given. -/
theorem solve_keepsGiven {fuel : Nat} {v : Verdict} (hs : Sound F s)
    (hr : s.solve fuel = .ok (v, s')) : s.store.KeepsGiven s'.store := by
  unfold solve at hr
  split at hr
  · obtain ⟨-, rfl⟩ := Prod.mk.inj (Except.ok.inj hr)
    exact .refl _
  · obtain ⟨⟨r, s₁⟩, hsearch, hr⟩ := Except.bind_eq_ok.mp hr
    have hs₀ := hs.backtrackTo 0
    have hown := (search_spec hs₀ (.refl hs₀) (fun _ hb => ⟨0, Nat.le_refl 0, hb⟩) hsearch).1.own
    have hkeep : s.store.KeepsGiven s₁.store := (hs.roots_backtrackTo 0).1 ▸ hown.given
    cases r <;> · obtain ⟨-, rfl⟩ := Prod.mk.inj (Except.ok.inj hr)
                  exact hkeep

/-- **Substitution** stores clauses of roots, and rests on them. -/
theorem Substitutes.ofGiven {sub : Substitution} (hs : Sound s.store.givenClauses s)
    (h0 : s.level = 0) (h : s.Substitutes sub s') (hconf : s'.conflicted = false) :
    Sound s'.store.givenClauses s' := by
  cases h with
  | conflicted => exact hs
  | opposed => cases hconf
  | unchanged => exact hs
  | refuted => cases hconf
  | @rebuilt e _ _ hrep hp =>
    obtain ⟨hs₁, h₁⟩ := restarted_carries hs h0 hrep.classes (.map_root e _ _) sub
    have h₂ := propagateFrom_spec hs₁ h₁.level hp
    refine h₂.sound.ofGiven fun ν hν => allHold_iff.mpr fun d hd => ?_
    obtain ⟨c, hc, rfl⟩ := List.mem_map.mp hd
    -- the valuation of the roots satisfies what was given before
    have hbefore := h₁.filed (h₂.conflicted ▸ hconf) ν (h₂.keeps.givenTrue hν)
    rw [Clause.holds_map fun l _ => holds_of_root e ν l]
    exact allHold_iff.mp (hs.store.allHold_givenClauses.mpr hbefore) c hc

/-- **Every call** leads from a solver that rests on its own clauses to one. -/
theorem Call.restsOnGiven (hcall : Call F s F' s') (hs : Sound F s) (h : RestsOnGiven s) :
    RestsOnGiven s' := by
  intro hconf'
  have hconf : s.conflicted = false := by
    by_contra hc
    rw [hcall.conflicted hs (by simpa using hc)] at hconf'
    cases hconf'
  have hown := h hconf
  have hadds : Adds s.store.givenClauses s.store.givenClauses s s' →
      Sound s'.store.givenClauses s' := fun ha =>
    hown.keep ha.sound ha.given
  cases hcall with
  | add hr =>
    have ha := (addClause_adds hown hr).2
    exact ha.ofGiven hconf' fun ν hν => hown.store.allHold_givenClauses.mpr (ha.given.givenTrue hν)
  | grow count => exact hadds (.growTo hown count)
  | project vars => exact hadds (.project hown vars)
  | setProjection vars => exact hadds (.setProjection hown vars)
  | decide hopen hr =>
    obtain ⟨hl, stats, hprop⟩ := decide_eq_ok hr
    have hdrawn := (propagate_spec (hown.decided hl hopen) hprop).1
    exact hown.keep hdrawn.sound hdrawn.grown.store.keepsGiven
  | propagate hr =>
    have hdrawn := (propagate_spec hown hr).1
    exact hown.keep hdrawn.sound hdrawn.grown.store.keepsGiven
  | backtrack k =>
    have hstore := (hown.roots_backtrackTo k).1
    exact hown.keep (hown.backtrackTo k) (hstore ▸ .refl _)
  | enter hr =>
    obtain ⟨-, -, rfl⟩ := enterScope_spec hr
    exact hown
  | restore previous => exact hown.rewind _
  | search hr =>
    have hsearched := (search_spec hown (.refl hown) (fun _ hb => ⟨0, Nat.le_refl 0, hb⟩) hr).1
    exact hown.keep hsearched.sound hsearched.own.given
  | implied hengine hr =>
    have hcon := impliedLiterals_concluded hown hengine hr 0
    exact hown.keep hcon.sound hcon.within.given
  | solve hr => exact hown.keep (solve_spec hown hr).1 (solve_keepsGiven hown hr)
  | substitute hr =>
    obtain ⟨h0, hsub⟩ := substitutes_of_ok hown hr
    exact hsub.ofGiven hown h0 hconf'
  | order hr =>
    obtain ⟨_, _, rfl⟩ := computeOrder_eq_ok hr
    exact hown
  | decompose hr =>
    obtain ⟨_, rfl⟩ := decompose_eq_ok hr
    exact hown
  | models pool => exact hown

/-! ## Every state -/

/-- **Every solver rests on its own clauses**, by induction on the calls. -/
theorem Reachable.restsOnGiven (h : Reachable F s) : RestsOnGiven s := by
  induction h with
  | blank options limit =>
    exact fun _ => (sound_blank options limit).ofGiven fun _ _ => rfl
  | ofFormula f options =>
    exact fun hconf => (ofFormula_adds f options).ofGiven hconf fun _ _ => rfl
  | call h hcall ih => exact hcall.restsOnGiven h.sound ih

end Solver

end Cleave
