import Cleave.Decimal.Text

/-!
# Options

The options of a run: which strategies to use, and the numbers that tune
them. A strategy has a name; `Strategy.parse` finds it whatever the case of
its letters. `Options.check` refuses the first option, in a fixed order, with
which no search could work.
-/

namespace Cleave

/-- Why options are refused. -/
inductive OptionsError where
  /-- A name that no strategy of its kind has. -/
  | unknownStrategy (kind value supported : String)
  /-- A number outside its range. -/
  | outOfRange (option requirement value : String)
  /-- A decomposer that is not there. -/
  | missingDecomposer (path : String)
deriving DecidableEq

namespace OptionsError

/-- The text of the error. -/
def message : OptionsError → String
  | unknownStrategy kind value _ => "Unknown " ++ kind ++ " `" ++ value ++ "`"
  | outOfRange option requirement value =>
    "`" ++ option ++ "` must be " ++ requirement ++ ", got " ++ value
  | missingDecomposer path => "Decomposer program " ++ path ++ " does not exist"

/-- Advice that goes with the error. -/
def help? : OptionsError → Option String
  | unknownStrategy _ _ supported => some ("supported values: " ++ supported)
  | _ => none

end OptionsError

/-- A closed choice of named strategies. -/
class Strategy (α : Type) where
  /-- What the strategies are for. -/
  kind : String
  /-- All of them. -/
  choices : List α
  /-- The name of each. -/
  name : α → String

namespace Strategy

variable {α : Type} [Strategy α]

/-- The names of all choices. -/
def supported (α : Type) [Strategy α] : String :=
  ", ".intercalate ((choices : List α).map name)

/-- The strategy with exactly this name. -/
def ofName? (value : String) : Option α := choices.find? fun a => name a == value

/-- The text with ASCII letters in lower case. -/
def folded (s : String) : List Char := s.toList.map Char.toLower

/-- The strategy with this name, whatever the case of its ASCII letters. -/
def parse (value : String) : Except OptionsError α :=
  match choices.find? fun a => folded (name a) == folded value with
  | some a => .ok a
  | none => .error (.unknownStrategy (kind α) value (supported α))

end Strategy

/-- How the next branching variable is chosen. -/
inductive Branching where
  /-- By the static order derived from a tree decomposition. -/
  | static
  /-- By decaying activity combined with live occurrence counts. -/
  | vsads
  /-- By the sum of the occurrence counts of both polarities. -/
  | dlcs
  /-- By the product of the occurrence counts of both polarities. -/
  | dlcp
  /-- By a min-fill elimination of the open part of the component. -/
  | minFill
deriving DecidableEq

instance : Strategy Branching where
  kind := "branching heuristic"
  choices := [.static, .vsads, .dlcs, .dlcp, .minFill]
  name
    | .static => "static"
    | .vsads => "vsads"
    | .dlcs => "dlcs"
    | .dlcp => "dlcp"
    | .minFill => "min-fill"

/-- How neighbours are enumerated for graphs and components. -/
inductive Traversal where
  /-- One loop over all clauses of a variable. -/
  | uniform
  /-- A loop for each clause size. -/
  | arityClassed
deriving DecidableEq

instance : Strategy Traversal where
  kind := "traversal strategy"
  choices := [.uniform, .arityClassed]
  name
    | .uniform => "uniform"
    | .arityClassed => "arity-classed"

/-- What computes the implied literals of a component. -/
inductive ImplicationEngine where
  /-- Probing with nested searches on the solver's own trail. -/
  | native
  /-- Assumption probing on a renamed copy of the component. -/
  | external
deriving DecidableEq

instance : Strategy ImplicationEngine where
  kind := "implication engine"
  choices := [.native, .external]
  name
    | .native => "native"
    | .external => "external"

/-- The options of a run. -/
structure Options where
  /-- The branching heuristic. -/
  branching : Branching := .vsads
  /-- How neighbours are enumerated. -/
  traversal : Traversal := .uniform
  /-- What computes implied literals. -/
  engine : ImplicationEngine := .native
  /-- Whether the external engine also reports implied binary clauses. -/
  impliedBinaries : Bool := false
  /-- The largest width the min-fill decomposition accepts. -/
  widthBound : Nat := 64
  /-- The external tree decomposer, if one is used. -/
  decomposer : Option String := none
  /-- The time limit of the decomposer, in seconds. -/
  decomposerTimeout : Nat := 10
  /-- The conflict budget of a first probing search. -/
  probeBudget : Nat := 64
  /-- The factor on the probe budget after an inconclusive pass. -/
  budgetGrowth : Float := 2.0
  /-- The number of conflicts before the first restart. -/
  restartInterval : Nat := 32
  /-- The factor on the restart interval after every restart. -/
  restartGrowth : Float := 1.5
  /-- The number of learnt long clauses that triggers a reduction. -/
  maxLearnts : Nat := 2000
  /-- Learnt clauses up to this length survive every reduction. -/
  keepLearntLength : Nat := 3
  /-- The weight of activity in the combined score. -/
  vsadsActivity : Float := 1.0
  /-- The weight of occurrence counts in the combined score. -/
  vsadsCount : Float := 0.5
  /-- Whether occurrences in long clauses count by their open size. -/
  weightedCounts : Bool := false
  /-- The decay of activity per learnt clause. -/
  activityDecay : Float := 0.95

namespace Options

instance : Inhabited Options := ⟨{}⟩

/-- Refuses the first option that a search cannot run with; `isThere` says
which paths are there. -/
def check (o : Options) (isThere : String → Bool) : Except OptionsError Unit := do
  if o.widthBound = 0 then
    throw (.outOfRange "width-bound" "positive" (toString o.widthBound))
  if o.probeBudget = 0 then
    throw (.outOfRange "probe-budget" "positive" (toString o.probeBudget))
  if o.restartInterval = 0 then
    throw (.outOfRange "restart-interval" "positive" (toString o.restartInterval))
  if !(o.budgetGrowth > 1.0) then
    throw (.outOfRange "budget-growth" "greater than 1" (Decimal.text o.budgetGrowth))
  if !(o.restartGrowth > 1.0) then
    throw (.outOfRange "restart-growth" "greater than 1" (Decimal.text o.restartGrowth))
  if !(o.activityDecay > 0.0 && o.activityDecay < 1.0) then
    throw (.outOfRange "activity-decay" "in (0, 1)" (Decimal.text o.activityDecay))
  if o.maxLearnts = 0 then
    throw (.outOfRange "max-learnts" "positive" (toString o.maxLearnts))
  match o.decomposer with
  | some path => if !isThere path then throw (.missingDecomposer path)
  | none => pure ()

end Options

end Cleave
