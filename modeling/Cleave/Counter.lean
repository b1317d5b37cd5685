import Cleave.Formula
import Cleave.Options
import Cleave.Text.Blank
import Cleave.Text.Whole
import Cleave.Tool

/-!
# Model counters

A model counter is an external program that reads a formula from a file and
prints the number of its models, or their total weight, on a result line that
starts with the counter's marker. The counters differ in how they are called
and in what stands on or behind that line; only one of them knows weights.
-/

namespace Cleave

/-- The counters that can be used. -/
inductive CounterKind where
  /-- The marker has a line of its own; the count is on the next one. -/
  | sharpSat
  /-- The count follows the marker. -/
  | d4
  /-- The count follows the marker. -/
  | ganak
  /-- The total weight follows the marker. -/
  | addmc
  /-- The count is the first word behind the marker. -/
  | c2d
deriving DecidableEq

instance : Strategy CounterKind where
  kind := "model counter"
  choices := [.sharpSat, .d4, .ganak, .addmc, .c2d]
  name
    | .sharpSat => "sharp-sat"
    | .d4 => "d4"
    | .ganak => "ganak"
    | .addmc => "addmc"
    | .c2d => "c2d"

namespace CounterKind

/-- The program used if none is named. -/
def defaultProgram : CounterKind → String
  | sharpSat => "sharpSAT"
  | d4 => "d4"
  | ganak => "ganak"
  | addmc => "addmc"
  | c2d => "c2d"

/-- The arguments of a call on a file. -/
def arguments (file : String) : CounterKind → List String
  | sharpSat | ganak => [file]
  | d4 => [file, "-mc"]
  | addmc => ["--cf", file]
  | c2d => ["-in", file, "-count"]

/-- What the result line starts with. -/
def marker : CounterKind → String
  | sharpSat => "# solutions"
  | d4 => "s "
  | ganak => "s mc"
  | addmc => "s wmc"
  | c2d => "Counting..."

/-- Whether the counter sums weights. -/
def isWeighted : CounterKind → Bool
  | addmc => true
  | _ => false

end CounterKind

/-- The number of models, or their total weight. -/
inductive Count where
  /-- A number of models. -/
  | exact (count : Nat)
  /-- A total weight. -/
  | weighted (weight : Float)

/-- The text of a count. -/
def Count.text : Count → String
  | exact count => toString count
  | weighted weight => Decimal.text weight

namespace CounterKind

/-- Where the result stands: the number of its line and its text. `after`
are the lines behind the marker's. -/
def resultText (kind : CounterKind) (program : String) (line : Nat) (content : List Char)
    (after : List (List Char)) : Except ToolError (Nat × List Char) :=
  let rest := content.drop kind.marker.length
  match kind with
  | sharpSat =>
    match after with
    | [] => .error (.malformed program line "count missing after the marker")
    | next :: _ => .ok (line + 1, Text.trim next)
  | c2d => .ok (line, (Text.words rest).headD [])
  | d4 | ganak | addmc => .ok (line, Text.trim rest)

/-- The count that a result states. -/
def readResult (kind : CounterKind) (program : String) (line : Nat) (result : List Char) :
    Except ToolError Count :=
  let found := ", found `" ++ String.ofList result ++ "`"
  if kind.isWeighted then
    match Decimal.read? result with
    | some weight => .ok (.weighted weight)
    | none => .error (.malformed program line ("expected a weighted count" ++ found))
  else
    match Text.groupedCount? result with
    | some count => .ok (.exact count)
    | none => .error (.malformed program line ("expected a model count" ++ found))

/-- Looks for the result line, counting lines from the given number. -/
def findResult (kind : CounterKind) (program : String) :
    Nat → List (List Char) → Except ToolError Count
  | _, [] =>
    .error (.missingMarker program (String.ofList (Text.trimRight kind.marker.toList)))
  | line, content :: after =>
    if kind.marker.toList.isPrefixOf content then do
      let (line, result) ← kind.resultText program line content after
      kind.readResult program line result
    else kind.findResult program (line + 1) after

/-- Reads the output of a counter. -/
def read (kind : CounterKind) (program : String) (output : List Char) : Except ToolError Count :=
  kind.findResult program 1 (Text.lines output)

end CounterKind

/-- A counter that can be called. -/
structure ModelCounter where
  /-- How it is called and answers. -/
  kind : CounterKind
  /-- The name of the program. -/
  program : String
  /-- How long it may take. -/
  limit : TimeLimit
  /-- What it answers, given its arguments and the text of the formula. -/
  run : List String → String → ToolRun

namespace ModelCounter

/-- The name of the file a counter reads. -/
def inputFile : String := "formula.cnf"

/-- The arguments of the call. -/
def arguments (c : ModelCounter) : List String := c.kind.arguments inputFile

/-- Counts the models of a formula. -/
def count (c : ModelCounter) (f : Formula) : Except ToolError Count := do
  if f.isWeighted && !c.kind.isWeighted then throw (.weightsUnsupported c.program)
  let output ← (c.run c.arguments f.text).output c.program c.limit
  c.kind.read c.program output

end ModelCounter

end Cleave
