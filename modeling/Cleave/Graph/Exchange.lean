import Cleave.Graph.MinFill
import Cleave.Text.Blank
import Cleave.Text.Whole
import Cleave.Tool

/-!
# Exchanging graphs and tree decompositions as text

A decomposer reads a graph as lines: `p tw VERTICES EDGES`, then one line
per edge. It answers with a solution line `s td BAGS ...`, bag lines
`b BAG VERTEX ...` and tree edges, pairs of bags. Vertices and bags are
counted from one, vertices in the order of the graph. Comment lines start
with the word `c`.
-/

namespace Cleave.Graph

/-- The number of a vertex in the exchange, counted from one. -/
def vertexNumber? (g : Graph) (v : Var) : Option Nat :=
  (g.vertices.findIdx? (· = v)).map (· + 1)

/-- The line of an edge. An edge to a variable that is no vertex is a
fault. -/
def edgeLine (g : Graph) (v w : Var) : Except Fault String :=
  match g.vertexNumber? v, g.vertexNumber? w with
  | some a, some b => .ok (toString a ++ " " ++ toString b ++ "\n")
  | none, _ => .error (.unknownVertex v)
  | _, none => .error (.unknownVertex w)

/-- The edges of the graph, each once, the smaller vertex first. -/
def edges (g : Graph) : List (Var × Var) :=
  g.vertices.flatMap fun v =>
    ((g.neighbours v).filter fun w => v.index < w.index).map fun w => (v, w)

/-- The text of a graph. -/
def text (g : Graph) : Except Fault String := do
  let lines ← g.edges.mapM fun (v, w) => g.edgeLine v w
  return "p tw " ++ toString g.vertices.length ++ " " ++ toString g.edgeCount ++ "\n"
    ++ String.join lines

end Cleave.Graph

namespace Cleave.TreeDecomposition

/-- What was read of a decomposition. -/
structure Draft where
  /-- The bags, once the solution line announced them. -/
  bags : Option (Array (List Var)) := none
  /-- The tree edges, latest first. -/
  edges : List (Nat × Nat) := []

/-- A number in a line, or the reason why there is none. -/
def number (word : List Char) : Except String Nat :=
  match Text.count? word with
  | some n => .ok n
  | none => .error ("expected a number, found `" ++ String.ofList word ++ "`")

/-- The vertex with a number, or the reason why there is none. -/
def vertex (vertices : List Var) (word : List Char) : Except String Var := do
  let n ← number word
  match if n = 0 then none else vertices[n - 1]? with
  | some v => return v
  | none => throw ("unknown vertex " ++ toString n)

/-- The most bags that an address space holds. -/
def maxBags : Nat := 384307168202282325

/-- The number of bags in the rest of a solution line. -/
def announced (rest : List (List Char)) : Except String Nat :=
  if rest.head? ≠ some ['t', 'd'] then .error "expected `s td`"
  else number ((rest.drop 1).headD [])

/-- Puts vertices into a bag, as the rest of a bag line says. -/
def fillBag (vertices : List Var) (bags : Option (Array (List Var))) (rest : List (List Char)) :
    Except String (Array (List Var)) :=
  match bags with
  | none => .error "bag before the solution line"
  | some bags => do
    let bag ← number (rest.headD [])
    if bag = 0 ∨ bags.size < bag then throw ("unknown bag " ++ toString bag)
    let members ← (rest.drop 1).mapM (vertex vertices)
    return bags.modify (bag - 1) (· ++ members)

/-- The two bags of an edge line, counted from zero. -/
def bagPair (first : List Char) (rest : List (List Char)) : Except String (Nat × Nat) := do
  let a ← number first
  let b ← number (rest.headD [])
  if a = 0 ∨ b = 0 then throw "bags are numbered from 1"
  return (a - 1, b - 1)

/-- Reads one line, or gives the reason why it cannot be understood. A
solution line with more bags than can be is a fault. -/
def readLine (vertices : List Var) (d : Draft) (line : List Char) :
    Except Fault (Except String Draft) :=
  match Text.words line with
  | [] => .ok (.ok d)
  | first :: rest =>
    if first = ['c'] then .ok (.ok d)
    else if first = ['s'] then
      match announced rest with
      | .error reason => .ok (.error reason)
      | .ok count =>
        if maxBags < count then .error (.tooManyBags count)
        else .ok (.ok { d with bags := some (Array.replicate count []) })
    else if first = ['b'] then
      .ok ((fillBag vertices d.bags rest).map fun bags => { d with bags := some bags })
    else .ok ((bagPair first rest).map fun edge => { d with edges := edge :: d.edges })

/-- Reads lines from the given number on. -/
def readLines (vertices : List Var) (program : String) :
    Nat → Draft → List (List Char) → Except Fault (Except ToolError Draft)
  | _, d, [] => .ok (.ok d)
  | line, d, content :: rest => do
    match ← readLine vertices d content with
    | .ok d => readLines vertices program (line + 1) d rest
    | .error reason => return .error (.malformed program line reason)

/-- Reads a decomposition over the vertices of a graph. -/
def read (vertices : List Var) (program : String) (text : List Char) :
    Except Fault (Except ToolError TreeDecomposition) := do
  match ← readLines vertices program 1 {} (Text.lines text) with
  | .error error => return .error error
  | .ok d =>
    match d.bags with
    | some bags => return .ok (ofBags bags d.edges.reverse)
    | none => return .error (.missingMarker program "s td")

end Cleave.TreeDecomposition

namespace Cleave

/-- A program that decomposes graphs. -/
structure Decomposer where
  /-- The name of the program. -/
  program : String
  /-- How long it may take. -/
  limit : TimeLimit
  /-- What it answers to the text of a graph. -/
  run : String → ToolRun

/-- The answer of a decomposer to a graph, checked against the graph. -/
def Decomposer.decompose (d : Decomposer) (g : Graph) :
    Except Fault (Except ToolError TreeDecomposition) := do
  let text ← g.text
  match (d.run text).output d.program d.limit with
  | .error error => return .error error
  | .ok output =>
    match ← TreeDecomposition.read g.vertices d.program output with
    | .error error => return .error error
    | .ok decomposition =>
      match decomposition.verify g with
      | .ok _ => return .ok decomposition
      | .error fault => return .error (.invalidDecomposition fault)

end Cleave
