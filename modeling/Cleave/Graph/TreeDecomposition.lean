import Cleave.Graph.Basic

/-!
# Tree decompositions

A tree decomposition of a graph is a forest of bags of vertices: every vertex
and every edge lies in some bag, and the bags of a vertex are connected.
`TreeDecomposition.verify` decides this and names the first property that is
violated. `TreeDecomposition.eliminationOrder` reads an order of the vertices
off the forest: it removes leaf bags one by one, and with each the vertices
it does not share with its neighbour.
-/

namespace Cleave

/-- A forest of bags. -/
structure TreeDecomposition where
  /-- The size of the largest bag, less one. -/
  width : Nat
  /-- The elimination order the bags were built from; empty if they were not
  built by elimination. -/
  order : List Var
  /-- The bags. -/
  bags : Array (List Var)
  /-- The edges of the forest, as pairs of bag numbers. -/
  edges : List (Nat × Nat)

/-- Which property of a tree decomposition is violated. -/
inductive DecompositionFault where
  /-- A vertex lies in no bag. -/
  | uncoveredVertex (v : Var)
  /-- An edge lies in no bag. -/
  | uncoveredEdge (v w : Var)
  /-- The bags of a vertex are not connected. -/
  | disconnectedVertex (v : Var)
  /-- A tree edge to a bag that is not there. -/
  | unknownBag (bag : Nat)
  /-- The bags form no forest. -/
  | cycle
deriving DecidableEq

/-- The text of a violation. -/
def DecompositionFault.message : DecompositionFault → String
  | uncoveredVertex v => "vertex " ++ v.text ++ " is not contained in any bag"
  | uncoveredEdge v w => "edge " ++ v.text ++ " -- " ++ w.text ++ " is not contained in any bag"
  | disconnectedVertex v => "the bags containing " ++ v.text ++ " are not connected"
  | unknownBag bag => "tree edge refers to unknown bag " ++ toString bag
  | cycle => "the bags do not form a tree"

/-! ## Joining bags -/

/-- Disjoint sets of bag numbers: every number points to another one of its
set or, at the root, to itself. -/
abbrev Forest := Array Nat

namespace Forest

/-- Every number on its own. -/
def singletons (size : Nat) : Forest := Array.range size

/-- Follows pointers to a root, at most `fuel` times. On the way every number
passed is pointed to where its pointer's pointer leads, which is where the
search goes on. -/
def findWithin : Nat → Forest → Nat → Nat × Forest
  | 0, f, i => (i, f)
  | fuel + 1, f, i =>
    let parent := f.getD i i
    if parent = i then (i, f)
    else
      let next := f.getD parent parent
      findWithin fuel (f.setIfInBounds i next) next

/-- The root of the set of a number, and the sets with shorter ways to it. No
way is longer than there are numbers. -/
def find (f : Forest) (i : Nat) : Nat × Forest := findWithin f.size f i

/-- Joins the sets of two numbers, unless they are the same set. -/
def join? (f : Forest) (a b : Nat) : Option Forest :=
  let (ra, f) := f.find a
  let (rb, f) := f.find b
  if ra = rb then none else some (f.setIfInBounds ra rb)

end Forest

namespace TreeDecomposition

/-- The decomposition with the given bags and tree edges. -/
def ofBags (bags : Array (List Var)) (edges : List (Nat × Nat)) : TreeDecomposition :=
  { width := (bags.foldl (fun size bag => max size bag.length) 0) - 1
    order := []
    bags := bags
    edges := edges }

/-- A bag by its number. -/
def bag (d : TreeDecomposition) (i : Nat) : List Var := d.bags.getD i []

/-- Joins the bags of all tree edges, as long as they form a forest. -/
def checkForest (size : Nat) : Forest → List (Nat × Nat) → Except DecompositionFault Forest
  | f, [] => .ok f
  | f, (a, b) :: rest =>
    if size ≤ a then .error (.unknownBag a)
    else if size ≤ b then .error (.unknownBag b)
    else
      match f.join? a b with
      | none => .error .cycle
      | some f => checkForest size f rest

/-- The numbers of the bags with a variable, once for each time a bag lists
it. -/
def bagsOf (d : TreeDecomposition) (v : Var) : List Nat :=
  (List.range d.bags.size).flatMap fun i =>
    List.replicate ((d.bag i).countP (· = v)) i

/-- Whether some bag of `v` contains `w`. -/
def covers (d : TreeDecomposition) (bags : List Nat) (w : Var) : Bool :=
  bags.any fun i => (d.bag i).contains w

/-- Whether the tree edges among some bags are one fewer than the bags. In a
forest this says that the bags are connected. -/
def connects (d : TreeDecomposition) (bags : List Nat) : Bool :=
  d.edges.countP (fun (a, b) => bags.contains a && bags.contains b) + 1 = bags.length

/-- Checks that this is a tree decomposition of a graph. -/
def verify (d : TreeDecomposition) (g : Graph) : Except DecompositionFault Unit := do
  let _ ← checkForest d.bags.size (Forest.singletons d.bags.size) d.edges
  let bagged := g.vertices.map fun v => (v, d.bagsOf v)
  for (v, bags) in bagged do
    if bags.isEmpty then throw (.uncoveredVertex v)
  for (v, bags) in bagged do
    for w in g.neighbours v do
      if v.index < w.index && !d.covers bags w then throw (.uncoveredEdge v w)
  for (v, bags) in bagged do
    if !d.connects bags then throw (.disconnectedVertex v)

/-! ## Elimination orders -/

/-- Leaf removal under way. -/
structure Pruning where
  /-- For every bag, how many of its neighbours are left. -/
  degree : Array Nat
  /-- The bags removed. -/
  removed : Array Bool
  /-- Bags to be removed next, the last one first. -/
  leaves : List Nat
  /-- The vertices eliminated, latest first. -/
  eliminated : List Var

/-- The neighbours of a bag in the forest, in the order of the edges. -/
def adjacentBags (d : TreeDecomposition) (i : Nat) : List Nat :=
  d.edges.flatMap fun (a, b) => (if a = i then [b] else []) ++ (if b = i then [a] else [])

/-- The neighbour of a bag that is left. -/
def parent? (d : TreeDecomposition) (removed : Array Bool) (leaf : Nat) : Option Nat :=
  (d.adjacentBags leaf).find? fun other => !removed.getD other true

/-- Eliminates the vertices of a leaf that it does not share with its parent. -/
def eliminateLeaf (d : TreeDecomposition) (leaf : Nat) (parent : Option Nat)
    (eliminated : List Var) : List Var :=
  let shared (v : Var) : Bool := match parent with
    | some i => (d.bag i).contains v
    | none => false
  (d.bag leaf).foldl (fun done v => if shared v || done.contains v then done else v :: done)
    eliminated

/-- Removes the last leaf: eliminates the vertices it does not share with
the neighbour that is left, which may become a leaf itself. -/
def prune (d : TreeDecomposition) (p : Pruning) (leaf : Nat) (leaves : List Nat) : Pruning :=
  if p.removed.getD leaf true then { p with leaves := leaves }
  else
    let removed := p.removed.setIfInBounds leaf true
    let parent := d.parent? removed leaf
    let eliminated := d.eliminateLeaf leaf parent p.eliminated
    match parent with
    | none => { p with removed := removed, leaves := leaves, eliminated := eliminated }
    | some i =>
      let left := p.degree.getD i 0 - 1
      { degree := p.degree.setIfInBounds i left
        removed := removed
        leaves := if left ≤ 1 then i :: leaves else leaves
        eliminated := eliminated }

/-- Removes leaves until none is left, at most `fuel` times. -/
def pruneAll (d : TreeDecomposition) : Nat → Pruning → Pruning
  | 0, p => p
  | fuel + 1, p =>
    match p.leaves with
    | [] => p
    | leaf :: leaves => pruneAll d fuel (d.prune p leaf leaves)

/-- Leaf removal before its first round. -/
def startPruning (d : TreeDecomposition) : Pruning :=
  let degree := (Array.range d.bags.size).map fun i => (d.adjacentBags i).length
  let leaves := (List.range d.bags.size).filter fun i => degree.getD i 0 ≤ 1
  { degree := degree
    removed := Array.replicate d.bags.size false
    leaves := leaves.reverse
    eliminated := [] }

/-- An order in which the vertices can be eliminated: the one the bags were
built from, or else by leaf removal. A bag is listed as a leaf at first or
when its neighbour goes, so there are at most two rounds per bag. -/
def eliminationOrder (d : TreeDecomposition) : List Var :=
  if !d.order.isEmpty then d.order
  else (d.pruneAll (2 * d.bags.size) d.startPruning).eliminated.reverse

end TreeDecomposition

end Cleave
