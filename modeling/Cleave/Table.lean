import Cleave.Literal

/-!
# Tables indexed by variables and literals

A `VarTable` holds one entry per variable below its size, a `LitTable` two
entries per variable, one for each literal. Reading beyond the size gives the
default entry and writing there does nothing, so both are total maps with
finitely many entries that can be set.
-/

namespace Cleave

/-- One entry per variable. -/
structure VarTable (α : Type) where
  /-- The entries by variable index. -/
  entries : Array α

/-- One entry per literal. -/
structure LitTable (α : Type) where
  /-- The entries by literal rank. -/
  entries : Array α

/-- An array cut or filled up with default entries to a given size. -/
def resized {α : Type} [Inhabited α] (a : Array α) (size : Nat) : Array α :=
  if a.size ≤ size then a ++ Array.replicate (size - a.size) default else a.take size

namespace VarTable

variable {α : Type}

instance : Inhabited (VarTable α) := ⟨⟨#[]⟩⟩

/-- The number of variables that have an entry of their own. -/
def size (t : VarTable α) : Nat := t.entries.size

/-- The table with default entries for `count` variables. -/
def sized [Inhabited α] (count : Nat) : VarTable α := ⟨Array.replicate count default⟩

/-- The table cut or filled up to `count` variables. -/
def resize [Inhabited α] (t : VarTable α) (count : Nat) : VarTable α :=
  ⟨resized t.entries count⟩

/-- The entry of a variable, the default one beyond the table. -/
def get [Inhabited α] (t : VarTable α) (v : Var) : α := t.entries.getD v.index default

instance [Inhabited α] : GetElem (VarTable α) Var α fun _ _ => True where
  getElem t v _ := t.get v

/-- Replaces the entry of a variable. -/
def set (t : VarTable α) (v : Var) (a : α) : VarTable α :=
  ⟨t.entries.setIfInBounds v.index a⟩

/-- Changes the entry of a variable. -/
def modify (t : VarTable α) (v : Var) (f : α → α) : VarTable α :=
  ⟨t.entries.modify v.index f⟩

/-- The table of the same size with one value everywhere. -/
def fill (t : VarTable α) (a : α) : VarTable α := ⟨Array.replicate t.entries.size a⟩

/-- The variables with an entry of their own, ascending, each with it. -/
def toList [Inhabited α] (t : VarTable α) : List (Var × α) :=
  (Var.range t.size).map fun v => (v, t.get v)

/-- Replaces the entries of all listed variables by one value. -/
def setAll (t : VarTable α) (vs : List Var) (a : α) : VarTable α :=
  vs.foldl (fun t v => t.set v a) t

/-- The table that is true at the listed variables. -/
def marking (count : Nat) (vs : List Var) : VarTable Bool := (sized count).setAll vs true

end VarTable

namespace LitTable

variable {α : Type}

instance : Inhabited (LitTable α) := ⟨⟨#[]⟩⟩

/-- The table with default entries for both literals of `count` variables. -/
def sized [Inhabited α] (count : Nat) : LitTable α :=
  ⟨Array.replicate (2 * count) default⟩

/-- The table cut or filled up to `count` variables. -/
def resize [Inhabited α] (t : LitTable α) (count : Nat) : LitTable α :=
  ⟨resized t.entries (2 * count)⟩

/-- The entry of a literal, the default one beyond the table. -/
def get [Inhabited α] (t : LitTable α) (l : Lit) : α := t.entries.getD l.code default

instance [Inhabited α] : GetElem (LitTable α) Lit α fun _ _ => True where
  getElem t l _ := t.get l

/-- Replaces the entry of a literal. -/
def set (t : LitTable α) (l : Lit) (a : α) : LitTable α :=
  ⟨t.entries.setIfInBounds l.code a⟩

/-- Changes the entry of a literal. -/
def modify (t : LitTable α) (l : Lit) (f : α → α) : LitTable α :=
  ⟨t.entries.modify l.code f⟩

/-- Applies a function to every entry. -/
def map (t : LitTable α) (f : α → α) : LitTable α := ⟨t.entries.map f⟩

/-- The literals with an entry of their own, ascending, each with it. -/
def toList [Inhabited α] (t : LitTable α) : List (Lit × α) :=
  (List.range t.entries.size).map fun code => (Lit.ofCode code, t.get (Lit.ofCode code))

end LitTable

end Cleave
