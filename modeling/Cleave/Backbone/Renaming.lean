import Cleave.Table

/-!
# Renaming variables densely

A renaming numbers some variables from zero on, in the order they are listed,
and leads back from the new variables to the old ones.
-/

namespace Cleave

/-- Some variables, numbered densely. -/
structure Renaming where
  /-- The new variable of an old one. -/
  renamed : VarTable (Option Var)
  /-- The old variables, in the order of the new ones. -/
  oldVars : Array Var

namespace Renaming

/-- Numbers one more variable, unless it is known. -/
def insert (r : Renaming) (v : Var) : Renaming :=
  if r.renamed[v].isSome then r
  else ⟨r.renamed.set v (some ⟨r.oldVars.size⟩), r.oldVars.push v⟩

/-- Numbers variables below `count` in the given order. -/
def ofVars (vs : List Var) (count : Nat) : Renaming :=
  vs.foldl insert ⟨VarTable.sized count, #[]⟩

/-- The number of variables. -/
def size (r : Renaming) : Nat := r.oldVars.size

/-- The new literal of an old one. -/
def rename? (r : Renaming) (l : Lit) : Option Lit := r.renamed[l.var].map (·.lit l.positive)

/-- The old literal of a new one. -/
def restore (r : Renaming) (l : Lit) : Lit :=
  (r.oldVars.getD l.var.index default).lit l.positive

end Renaming

end Cleave
