import Cleave.Fault
import Cleave.Table

/-!
# Graphs over variables

The vertices of a graph are variables, listed in ascending order. Neighbours
are listed per variable; a graph built from an edge list has them in
ascending order, without repetitions and without loops.
-/

namespace Cleave

/-- A graph whose vertices are variables. -/
structure Graph where
  /-- The vertices, ascending. -/
  vertices : List Var
  /-- The neighbours of every variable. -/
  adjacency : VarTable (List Var)

namespace Graph

instance : Inhabited Graph := ⟨⟨[], default⟩⟩

/-- The neighbours of a variable. -/
def neighbours (g : Graph) (v : Var) : List Var := g.adjacency[v]

/-- The number of edges, each counted at both ends. -/
def edgeCount (g : Graph) : Nat :=
  g.vertices.foldl (fun ends v => ends + (g.neighbours v).length) 0 / 2

/-- The size of the variable range the graph was built over. -/
def varCount (g : Graph) : Nat := g.adjacency.size

/-- The elements of a list of variables, ascending and each once. -/
def sorted (vs : List Var) : List Var := squeeze (vs.mergeSort Var.ble)

/-- Joins two variables, unless they are the same. An edge beyond the last
vertex is a fault. -/
def join (adjacency : VarTable (List Var)) (edge : Var × Var) :
    Except Fault (VarTable (List Var)) :=
  let (a, b) := edge
  if a = b then .ok adjacency
  else if adjacency.size ≤ a.index then .error (.unknownVertex a)
  else if adjacency.size ≤ b.index then .error (.unknownVertex b)
  else .ok ((adjacency.modify a (b :: ·)).modify b (a :: ·))

/-- The graph with the given vertices and edges. -/
def ofEdges (vertices : List Var) (edges : List (Var × Var)) : Except Fault Graph := do
  let vertices := sorted vertices
  let count := vertices.foldl (fun bound v => max bound (v.index + 1)) 0
  let adjacency ← edges.foldlM join (VarTable.sized count)
  return ⟨vertices, vertices.foldl (fun t v => t.modify v sorted) adjacency⟩

end Graph

end Cleave
