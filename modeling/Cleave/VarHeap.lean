import Cleave.Table

/-!
# An addressable heap of variables

A binary max-heap whose members are variables with keys. The position of
every member is kept beside the heap, so a variable can be re-keyed or
removed wherever it stands. Elimination heuristics use it to take the best
vertex again and again while the keys of its neighbours change.
-/

namespace Cleave

/-- A max-heap of variables, ordered by key. -/
structure VarHeap (κ : Type) where
  /-- The latest key of every variable. -/
  keys : VarTable κ
  /-- The members in level order. -/
  heap : Array Var
  /-- Where each variable stands in the heap, if it does. -/
  positions : VarTable (Option Nat)
deriving Inhabited

namespace VarHeap

variable {κ : Type}

/-- The heap without members over no variables. -/
def empty : VarHeap κ := ⟨default, #[], default⟩

/-- Makes room for `count` variables. -/
def resize [Inhabited κ] (h : VarHeap κ) (count : Nat) : VarHeap κ :=
  { h with keys := h.keys.resize count, positions := h.positions.resize count }

/-- The number of members. -/
def size (h : VarHeap κ) : Nat := h.heap.size

/-- Whether a variable is a member. -/
def contains (h : VarHeap κ) (v : Var) : Bool := h.positions[v].isSome

/-- The member at a position. -/
def memberAt (h : VarHeap κ) (pos : Nat) : Var := h.heap.getD pos default

/-- The key of the member at a position. -/
def keyAt [Inhabited κ] (h : VarHeap κ) (pos : Nat) : κ := h.keys[h.memberAt pos]

/-- Exchanges the members at two positions. -/
def swap (h : VarHeap κ) (a b : Nat) : VarHeap κ :=
  let va := h.memberAt a
  let vb := h.memberAt b
  { h with
    heap := h.heap.swapIfInBounds a b
    positions := (h.positions.set va (some b)).set vb (some a) }

@[simp] theorem size_swap (h : VarHeap κ) (a b : Nat) :
    (h.swap a b).heap.size = h.heap.size := by simp [swap]

variable [Ord κ] [Inhabited κ]

/-- Moves a member up as long as its key is larger than its parent's. -/
def siftUp (h : VarHeap κ) (pos : Nat) : VarHeap κ :=
  if hpos : pos = 0 then h
  else
    let parent := (pos - 1) / 2
    if (compare (h.keyAt pos) (h.keyAt parent)).isLE then h
    else siftUp (h.swap pos parent) parent
termination_by pos
decreasing_by omega

/-- The larger of a position and one of its children, which has to beat it
strictly. -/
def larger (h : VarHeap κ) (best child : Nat) : Nat :=
  if child < h.heap.size && (compare (h.keyAt child) (h.keyAt best)).isGT
  then child else best

/-- Where the largest key stands among a position and its two children. -/
def largest (h : VarHeap κ) (pos : Nat) : Nat :=
  h.larger (h.larger pos (2 * pos + 1)) (2 * pos + 2)

theorem larger_eq (h : VarHeap κ) (best child : Nat) :
    h.larger best child = best ∨ (h.larger best child = child ∧ child < h.heap.size) := by
  unfold larger
  split
  · rename_i hc; simp at hc; exact Or.inr ⟨rfl, hc.1⟩
  · exact Or.inl rfl

/-- The place of the largest key is the position itself or a child of it
inside the heap. -/
theorem largest_eq (h : VarHeap κ) (pos : Nat) :
    h.largest pos = pos ∨ (pos < h.largest pos ∧ h.largest pos < h.heap.size) := by
  unfold largest
  rcases larger_eq h pos (2 * pos + 1) with h1 | ⟨h1, h1'⟩ <;>
    rcases larger_eq h (h.larger pos (2 * pos + 1)) (2 * pos + 2) with h2 | ⟨h2, h2'⟩ <;>
    omega

/-- Moves a member down as long as a child has a larger key. -/
def siftDown (h : VarHeap κ) (pos : Nat) : VarHeap κ :=
  if h.largest pos = pos then h
  else siftDown (h.swap pos (h.largest pos)) (h.largest pos)
termination_by h.heap.size - pos
decreasing_by
  have := largest_eq h pos
  simp
  omega

/-- Inserts a variable with a key, or re-keys it if it is a member. -/
def insert (h : VarHeap κ) (v : Var) (key : κ) : VarHeap κ :=
  let old := h.keys[v]
  let h := { h with keys := h.keys.set v key }
  match h.positions[v] with
  | some pos => if (compare key old).isGE then h.siftUp pos else h.siftDown pos
  | none =>
    let pos := h.heap.size
    siftUp { h with heap := h.heap.push v, positions := h.positions.set v (some pos) } pos

/-- Removes a variable, if it is a member: the last member takes its place
and is sifted to where it belongs. -/
def remove (h : VarHeap κ) (v : Var) : VarHeap κ :=
  match h.positions[v] with
  | none => h
  | some pos =>
    let last := h.memberAt (h.heap.size - 1)
    let h := { h with
      positions := h.positions.set v none
      heap := (h.heap.setIfInBounds pos last).pop }
    if pos < h.heap.size then
      let h := { h with positions := h.positions.set last (some pos) }
      (h.siftDown pos).siftUp pos
    else h

/-- Takes the variable with the largest key out of the heap. -/
def pop? (h : VarHeap κ) : Option (Var × VarHeap κ) :=
  if h.heap.size = 0 then none
  else some (h.memberAt 0, h.remove (h.memberAt 0))

end VarHeap

end Cleave
