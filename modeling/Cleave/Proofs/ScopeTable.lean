import Cleave.Proofs.Tables
import Cleave.Solver.State

/-!
# The table of the scope

One table tells which variables the current scope has. It outlives the scopes:
when another scope is put in place of the current one, flags are taken down and
put up one by one, and what they were before is not remembered anywhere. That
they are right again after the way back needs that they were right before
(`ScopeTable.Exact`): a table that is right is determined by its scope and its size
(`ScopeTable.Exact.eq`), so to return to a scope is to return to its flags
(`ScopeTable.Exact.swap_back`).
-/

namespace Cleave

namespace ScopeTable

variable {t u : ScopeTable} {count : Nat} {next : Option Scope}

/-- A scope of known variables. -/
def Known (count : Nat) (scope : Option Scope) : Prop :=
  ∀ v ∈ Scope.varsOf scope, v.index < count

/-- **The flags are right**: there is one for each of `count` variables, and those
of the scope are up. -/
structure Exact (t : ScopeTable) (count : Nat) : Prop where
  size : t.flags.size = count
  flag_iff : ∀ v, t.flags[v] = true ↔ v ∈ Scope.varsOf t.current

theorem exact_default : (default : ScopeTable).Exact 0 := by
  refine ⟨rfl, fun v => ?_⟩
  rw [VarTable.get_of_size_le _ (Nat.zero_le _)]
  exact ⟨fun h => (nomatch h), fun h => absurd h List.not_mem_nil⟩

namespace Exact

variable (h : t.Exact count)

include h

/-- The variables of the current scope are known. -/
theorem known : Known count t.current := by
  intro v hv
  refine Nat.lt_of_not_le fun hle => ?_
  have hflag := (h.flag_iff v).mpr hv
  rw [VarTable.get_of_size_le _ (Nat.le_trans (Nat.le_of_eq h.size) hle)] at hflag
  cases hflag

/-- **Right flags are determined** by the scope. -/
theorem eq (hu : u.Exact count) (hcurrent : t.current = u.current) : t = u := by
  have hflags : t.flags = u.flags := VarTable.ext_get (h.size.trans hu.size.symm) fun v =>
    Bool.eq_iff_iff.mpr ((h.flag_iff v).trans (hcurrent ▸ (hu.flag_iff v).symm))
  cases t
  cases u
  exact congr (congrArg ScopeTable.mk hcurrent) hflags

theorem resize {more : Nat} (hle : count ≤ more) : (t.resize more).Exact more := by
  have hsize : t.flags.size ≤ more := Nat.le_trans (Nat.le_of_eq h.size) hle
  refine ⟨VarTable.size_resize _ hsize, fun v => ?_⟩
  show (t.flags.resize more)[v] = true ↔ _
  rw [VarTable.get_resize _ hsize]
  exact h.flag_iff v

/-- **Another scope**: once the flags of the current one are down none is up, so
those that are put up then are all. -/
theorem swap (hnext : Known count next) : (t.swap next).Exact count := by
  refine ⟨by simp [ScopeTable.swap, h.size], fun v => ?_⟩
  have hdown : (t.flags.setAll (Scope.varsOf t.current) false)[v] = false := by
    rw [VarTable.get_setAll]
    split
    · rfl
    · rename_i hno
      refine Bool.eq_false_iff.mpr fun hup => hno ?_
      have hv := (h.flag_iff v).mp hup
      exact ⟨hv, h.size ▸ h.known v hv⟩
  show ((t.flags.setAll _ false).setAll _ true)[v] = true ↔ v ∈ Scope.varsOf next
  rw [VarTable.get_setAll, VarTable.size_setAll, h.size, hdown]
  have hknown := hnext v
  split <;> simp_all

/-- **The way back**: to return to a scope is to return to its flags, whatever was
current in between. -/
theorem swap_back (hu : u.Exact count) : u.swap t.current = t :=
  (hu.swap h.known).eq h rfl

/-- What propagation may assign within a scope is a variable of it. -/
theorem admits_iff (v : Var) :
    t.admits v = true ↔ t.current = none ∨ v ∈ Scope.varsOf t.current := by
  unfold admits
  rw [Bool.or_eq_true, h.flag_iff, Option.isNone_iff_eq_none]

end Exact

end ScopeTable

end Cleave
