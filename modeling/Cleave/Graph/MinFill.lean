import Cleave.Graph.TreeDecomposition
import Cleave.VarHeap

/-!
# Min-fill elimination

Eliminating a vertex joins its neighbours pairwise and removes it; the vertex
with its neighbours is a bag of a tree decomposition. Min-fill eliminates, at
every step, the vertex whose neighbours lack the fewest edges among
themselves, then the one of the smallest degree, then the smallest one. The
keys are kept in a heap and recomputed only around the vertex that goes.
-/

namespace Cleave

/-- The rank of a vertex in min-fill elimination. -/
structure EliminationKey where
  /-- The number of edges missing among its neighbours. -/
  fill : Nat
  /-- The number of its neighbours. -/
  degree : Nat
  /-- The index of the vertex. -/
  index : Nat
deriving DecidableEq, Inhabited

/-- Smaller numbers rank higher, so that the heap gives the best vertex. -/
instance : Ord EliminationKey where
  compare a b :=
    ((compare b.fill a.fill).then (compare b.degree a.degree)).then (compare b.index a.index)

namespace MinFill

/-- The number of pairs among some vertices that are not joined. -/
def missingEdges (adjacency : VarTable (List Var)) : List Var → Nat
  | [] => 0
  | a :: rest => rest.countP (fun b => !adjacency[a].contains b) + missingEdges adjacency rest

/-- The rank of a vertex in the current graph. -/
def key (adjacency : VarTable (List Var)) (v : Var) : EliminationKey :=
  let neighbours := adjacency[v]
  ⟨missingEdges adjacency neighbours, neighbours.length, v.index⟩

/-- Inserts a variable into an ascending list, unless it is there. -/
def insertSorted (v : Var) : List Var → List Var
  | [] => [v]
  | w :: rest =>
    if v.index < w.index then v :: w :: rest
    else if v = w then w :: rest
    else w :: insertSorted v rest

/-- Takes a vertex out of the graph and joins its neighbours pairwise. -/
def eliminate (adjacency : VarTable (List Var)) (v : Var) (neighbours : List Var) :
    VarTable (List Var) :=
  neighbours.foldl
    (fun t a => t.modify a fun list =>
      neighbours.foldl (fun list b => if a = b then list else insertSorted b list) (list.erase v))
    (adjacency.set v [])

/-- An elimination under way. -/
structure Elimination where
  /-- The current graph. -/
  adjacency : VarTable (List Var)
  /-- The vertices left, by rank. -/
  heap : VarHeap EliminationKey
  /-- The largest degree of an eliminated vertex. -/
  width : Nat
  /-- The vertices eliminated, latest first. -/
  order : List Var
  /-- Their bags, latest first. -/
  bags : List (List Var)

/-- The elimination before its first step. -/
def start (g : Graph) : Elimination :=
  let adjacency := g.vertices.foldl (fun t v => t.set v ((g.neighbours v).mergeSort Var.ble))
    (VarTable.sized g.varCount)
  let heap := g.vertices.foldl (fun h v => h.insert v (key adjacency v))
    (VarHeap.empty.resize g.varCount)
  { adjacency := adjacency, heap := heap, width := 0, order := [], bags := [] }

/-- Eliminates one vertex, which was taken out of the heap. Keys can change
for its neighbours and for theirs. -/
def step (e : Elimination) (v : Var) (heap : VarHeap EliminationKey) : Elimination :=
  let neighbours := e.adjacency[v]
  let adjacency := eliminate e.adjacency v neighbours
  let affected := Graph.sorted
    (neighbours ++ neighbours.flatMap fun a => adjacency[a])
  let heap := affected.foldl
    (fun h w => if h.contains w then h.insert w (key adjacency w) else h) heap
  { adjacency := adjacency
    heap := heap
    width := max e.width neighbours.length
    order := v :: e.order
    bags := (neighbours ++ [v]) :: e.bags }

/-- Eliminates up to `fuel` vertices; gives up at a vertex of a degree above
the bound. -/
def run (bound : Option Nat) : Nat → Elimination → Option Elimination
  | 0, e => some e
  | fuel + 1, e =>
    match e.heap.pop? with
    | none => some e
    | some (v, heap) =>
      if bound.any (· < e.adjacency[v].length) then none
      else run bound fuel (step e v heap)

/-- The tree edges: the parent of a bag is the bag of the member, other than
the one it was built for, that is eliminated next. -/
def treeEdges (count : Nat) (order : List Var) (bags : List (List Var)) : List (Nat × Nat) :=
  let position : VarTable Nat := (order.zipIdx).foldl (fun t (v, i) => t.set v i)
    (VarTable.sized count)
  ((order.zip bags).zipIdx).filterMap fun ((v, bag), i) =>
    match (bag.filter (· != v)).map fun w => position[w] with
    | [] => none
    | p :: rest => some (i, rest.foldl min p)

end MinFill

/-- The tree decomposition of a graph by min-fill elimination, if its width
stays within the bound. -/
def minFill (g : Graph) (bound : Option Nat) : Option TreeDecomposition :=
  (MinFill.run bound g.vertices.length (MinFill.start g)).map fun e =>
    let order := e.order.reverse
    let bags := e.bags.reverse
    { width := e.width
      order := order
      bags := bags.toArray
      edges := MinFill.treeEdges g.varCount order bags }

end Cleave
