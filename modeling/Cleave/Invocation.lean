import Cleave.Counter
import Cleave.Options

/-!
# Invocations

What a command line asks for, and how its arguments are read. Arguments are
read from left to right: switches and parameters by their long names, one
name without dashes for the file with the formula, and after a lone `--`
nothing but names. A value stands behind its parameter or, after an equals
sign, in the same argument.

A value is looked at only once the argument after it is recognised, so of two
mistakes in a row the one that needs no look at a value is reported.
-/

namespace Cleave

/-- What a command line asks for. -/
structure Invocation where
  /-- The file with the formula; without one it comes from standard input. -/
  input : Option String := none
  /-- The options of the solver. -/
  options : Options := {}
  /-- Whether equivalent literals are replaced first. -/
  substitute : Bool := false
  /-- Whether the branching order is printed. -/
  order : Bool := false
  /-- Whether the connected components are printed. -/
  components : Bool := false
  /-- Whether the implied literals are printed. -/
  backbone : Bool := false
  /-- The model counter to use, if any. -/
  counter : Option CounterKind := none
  /-- The program of the model counter, if not the usual one. -/
  counterProgram : Option String := none
  /-- The time limit of the model counter, in seconds. -/
  counterTimeout : Nat := 60

/-- Why arguments describe no run. -/
inductive UsageStop where
  /-- An argument without a meaning. -/
  | unknownArgument
  /-- A value is missing, empty, or none of the possible ones. -/
  | invalidValue
  /-- A value that should be a number is none. -/
  | malformedNumber
  /-- A parameter needs another one that is not given. -/
  | missingArgument
  /-- A switch or parameter is given twice. -/
  | repeated
  /-- A switch is given a value. -/
  | unwantedValue
  /-- Help is asked for. -/
  | help
  /-- The version is asked for. -/
  | version
deriving DecidableEq

namespace UsageStop

/-- The exit code: asking for help or the version is no mistake. -/
def exitCode : UsageStop → Nat
  | help | version => 0
  | _ => 2

/-- The name and version of the program. -/
def versionText : String := "cardinal 0.1.0"

end UsageStop

namespace Invocation

/-- A named switch. -/
structure Switch where
  /-- The name, without dashes. -/
  name : String
  /-- What giving it does. -/
  apply : Invocation → Except UsageStop Invocation

/-- A named parameter. -/
structure Parameter where
  /-- The name, without dashes. -/
  name : String
  /-- What giving it a value does. -/
  apply : String → Invocation → Except UsageStop Invocation

/-! ## Values -/

/-- Reads a value as one of the named strategies, exactly as written. -/
def choice {α : Type} [Strategy α] (value : String) : Except UsageStop α :=
  match Strategy.ofName? value with
  | some a => .ok a
  | none => .error .invalidValue

/-- Reads a value as a count. -/
def count (value : String) : Except UsageStop Nat :=
  match Text.count? value.toList with
  | some n => .ok n
  | none => .error .malformedNumber

/-- Reads a value as a decimal number. -/
def decimal (value : String) : Except UsageStop Float :=
  match Decimal.read? value.toList with
  | some x => .ok x
  | none => .error .malformedNumber

/-- Reads a value as a path, which is not empty. -/
def path (value : String) : Except UsageStop String :=
  if value.isEmpty then .error .invalidValue else .ok value

/-! ## Names -/

/-- The parameter that sets something from a read value. -/
def parameter {α : Type} (name : String) (read : String → Except UsageStop α)
    (set : α → Invocation → Invocation) : Parameter :=
  ⟨name, fun value i => (read value).map fun a => set a i⟩

/-- The parameter that sets an option of the solver. -/
def solverParameter {α : Type} (name : String) (read : String → Except UsageStop α)
    (set : α → Options → Options) : Parameter :=
  parameter name read fun a i => { i with options := set a i.options }

/-- The file with the formula, the one argument without a name. -/
def inputParameter : Parameter :=
  parameter "" path fun p i => { i with input := some p }

/-- All switches. -/
def switches : List Switch :=
  [ ⟨"implied-binaries", fun i =>
      .ok { i with options := { i.options with impliedBinaries := true } }⟩,
    ⟨"weighted-counts", fun i =>
      .ok { i with options := { i.options with weightedCounts := true } }⟩,
    ⟨"substitute", fun i => .ok { i with substitute := true }⟩,
    ⟨"order", fun i => .ok { i with order := true }⟩,
    ⟨"components", fun i => .ok { i with components := true }⟩,
    ⟨"backbone", fun i => .ok { i with backbone := true }⟩,
    ⟨"help", fun _ => .error .help⟩,
    ⟨"version", fun _ => .error .version⟩ ]

/-- All parameters with a name. -/
def parameters : List Parameter :=
  [ solverParameter "branching" choice fun a o => { o with branching := a },
    solverParameter "traversal" choice fun a o => { o with traversal := a },
    solverParameter "implication-engine" choice fun a o => { o with engine := a },
    solverParameter "width-bound" count fun n o => { o with widthBound := n },
    solverParameter "decomposer" path fun p o => { o with decomposer := some p },
    solverParameter "decomposer-timeout" count fun n o => { o with decomposerTimeout := n },
    solverParameter "probe-budget" count fun n o => { o with probeBudget := n },
    solverParameter "budget-growth" decimal fun x o => { o with budgetGrowth := x },
    solverParameter "restart-interval" count fun n o => { o with restartInterval := n },
    solverParameter "restart-growth" decimal fun x o => { o with restartGrowth := x },
    solverParameter "max-learnts" count fun n o => { o with maxLearnts := n },
    solverParameter "keep-learnt-len" count fun n o => { o with keepLearntLength := n },
    solverParameter "vsads-activity" decimal fun x o => { o with vsadsActivity := x },
    solverParameter "vsads-count" decimal fun x o => { o with vsadsCount := x },
    solverParameter "activity-decay" decimal fun x o => { o with activityDecay := x },
    parameter "counter" choice fun k i => { i with counter := some k },
    parameter "counter-program" path fun p i => { i with counterProgram := some p },
    parameter "counter-timeout" count fun n i => { i with counterTimeout := n } ]

/-- The switch of a short letter. -/
def shortSwitch? (letter : Char) : Option Switch :=
  let name := match letter with
    | 'h' => some "help"
    | 'V' => some "version"
    | _ => none
  name.bind fun n => switches.find? (·.name = n)

/-! ## Arguments -/

/-- The form of an argument. -/
inductive Argument where
  /-- A lone `--`. -/
  | rest
  /-- A long name, with the value behind an equals sign. -/
  | long (name : String) (value : Option String)
  /-- A dash with letters, of which the first one is read first. -/
  | short (first : Char)
  /-- Anything else. -/
  | plain (text : String)

/-- The form of an argument before a lone `--`. -/
def Argument.ofText (text : String) : Argument :=
  match text.toList with
  | ['-', '-'] => .rest
  | '-' :: '-' :: body =>
    let name := body.takeWhile (· ≠ '=')
    let value := match body.dropWhile (· ≠ '=') with
      | [] => none
      | _ :: value => some (String.ofList value)
    .long (String.ofList name) value
  | '-' :: letter :: _ => .short letter
  | _ => .plain text

/-- What is known while arguments are read. -/
structure Draft where
  /-- What is asked for so far. -/
  invocation : Invocation := {}
  /-- The names given so far. -/
  given : List String := []
  /-- The parameter whose value is not looked at yet, with the value once it
  is there. -/
  waiting : Option (Parameter × Option String) := none
  /-- Whether the file with the formula was named. -/
  named : Bool := false
  /-- Whether only names follow. -/
  onlyNames : Bool := false

namespace Draft

/-- Notes a name, which is given at most once. -/
def note (d : Draft) (name : String) : Except UsageStop Draft :=
  if d.given.contains name then .error .repeated else .ok { d with given := name :: d.given }

/-- Looks at the value that waits, if any. -/
def settle (d : Draft) : Except UsageStop Draft :=
  match d.waiting with
  | none => .ok d
  | some (_, none) => .error .invalidValue
  | some (p, some value) => do
    let d ← d.note p.name
    return { d with waiting := none, invocation := ← p.apply value d.invocation }

/-- Gives a switch. -/
def switchOn (d : Draft) (s : Switch) : Except UsageStop Draft := do
  let d ← d.settle
  let d ← d.note s.name
  return { d with invocation := ← s.apply d.invocation }

/-- Reads a long name. -/
def readLong (d : Draft) (name : String) (value : Option String) : Except UsageStop Draft :=
  match switches.find? (·.name = name), parameters.find? (·.name = name) with
  | some s, _ => if value.isSome then .error .unwantedValue else d.switchOn s
  | none, some p => do
    let d ← d.settle
    let d := { d with waiting := some (p, value) }
    if value.isSome then d.settle else return d
  | none, none => .error .unknownArgument

/-- Reads an argument without dashes: the value of the parameter that waits
for one, or the name of the file with the formula. -/
def readPlain (d : Draft) (text : String) : Except UsageStop Draft :=
  match d.waiting, d.onlyNames with
  | some (p, none), false => .ok { d with waiting := some (p, some text) }
  | _, _ =>
    if d.named then .error .unknownArgument
    else do
      let d ← d.settle
      return { d with waiting := some (inputParameter, some text), named := true }

/-- Reads an argument. -/
def readArgument (d : Draft) (text : String) : Except UsageStop Draft :=
  if d.onlyNames then d.readPlain text
  else
    match Argument.ofText text with
    | .rest => .ok { d with onlyNames := true }
    | .long name value => d.readLong name value
    | .short letter =>
      match shortSwitch? letter with
      | some s => d.switchOn s
      | none => .error .unknownArgument
    | .plain text => d.readPlain text

end Draft

/-- Reads the arguments of a command line. -/
def ofArguments (arguments : List String) : Except UsageStop Invocation := do
  let d ← arguments.foldlM Draft.readArgument {}
  let i := (← d.settle).invocation
  if i.counterProgram.isSome && i.counter.isNone then throw .missingArgument
  return i

/-- One line that lists all switches and parameters. -/
def usageText : String :=
  let names := switches.map (fun s => "[--" ++ s.name ++ "]")
    ++ parameters.map (fun p => "[--" ++ p.name ++ " <value>]")
  "Usage: cardinal " ++ " ".intercalate names ++ " [input]"

/-- The program that counts models, with the usual name of its kind unless
another one is given. -/
def counterOf (i : Invocation) (kind : CounterKind)
    (run : String → List String → String → ToolRun) : ModelCounter :=
  let program := i.counterProgram.getD kind.defaultProgram
  ⟨kind, program, .seconds i.counterTimeout, run program⟩

end Invocation

end Cleave
