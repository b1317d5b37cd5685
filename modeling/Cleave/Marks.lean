import Cleave.Table

/-!
# Marks on variables that are cleared at once

A variable is marked if its stamp equals the current one, so clearing all
marks is a single increment of the current stamp instead of a pass over the
table. Stamps are 32-bit words: when they run out, `Marks.clear` does wipe
the table and starts again. Stamp 0 is never current and stands for an
unmarked variable.
-/

namespace Cleave

/-- A set of variables with a constant-time `clear`. -/
structure Marks where
  /-- The stamp a variable was marked with last, 0 if it was unmarked. -/
  stamps : VarTable UInt32
  /-- The stamp of the marks that count. -/
  current : UInt32
deriving Inhabited

namespace Marks

/-- No marks over no variables. -/
def empty : Marks := ⟨default, 0⟩

/-- Makes room for `count` variables, and makes sure the current stamp is
not the reserved one. -/
def resize (m : Marks) (count : Nat) : Marks :=
  ⟨m.stamps.resize count, max m.current 1⟩

/-- Forgets all marks. -/
def clear (m : Marks) : Marks :=
  if m.current = 0xffffffff then ⟨m.stamps.fill 0, 1⟩ else ⟨m.stamps, m.current + 1⟩

/-- Whether a variable is marked. -/
def isMarked (m : Marks) (v : Var) : Bool := m.stamps[v] == m.current

/-- Marks a variable; says whether it was unmarked before. -/
def mark (m : Marks) (v : Var) : Bool × Marks :=
  if m.isMarked v then (false, m) else (true, ⟨m.stamps.set v m.current, m.current⟩)

/-- Removes the mark of a variable. -/
def unmark (m : Marks) (v : Var) : Marks := ⟨m.stamps.set v 0, m.current⟩

end Marks

end Cleave
