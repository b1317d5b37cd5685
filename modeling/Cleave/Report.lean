import Cleave.Backbone.Implied
import Cleave.Equivalence
import Cleave.Graph.StaticOrder
import Cleave.Invocation

/-!
# Reports

A report is what a run prints and how it ends. `Invocation.run` makes it from
an invocation and its surroundings: the files and programs that are there, as
plain data. The formula is read, its models are counted, equivalent literals
are replaced, the branching order, the components and the implied literals
are printed, each only if asked for, and the formula is solved last. What was
printed before something went wrong stays printed.
-/

namespace Cleave

/-- What a run can see of the world. -/
structure Surroundings where
  /-- Whether something is at a path. -/
  isThere : String → Bool
  /-- The content of a file, if there is a file at the path. -/
  file? : String → Option (List UInt8)
  /-- What standard input holds. -/
  standardInput : List UInt8
  /-- What a model counter answers to its arguments and input file. -/
  count : String → List String → String → ToolRun
  /-- What a decomposer answers to the text of a graph. -/
  decompose : String → String → ToolRun

/-- Why a run ends without a verdict. -/
inductive Trouble where
  /-- The options are refused. -/
  | options (error : OptionsError)
  /-- Nothing is at the path of the formula. -/
  | noPath (path : String)
  /-- What is at the path of the formula is no file. -/
  | noFile (path : String)
  /-- The formula cannot be read. -/
  | formula (error : ReadError)
  /-- A program outside fails. -/
  | tool (error : ToolError)
  /-- A call has no answer. -/
  | fault (fault : Fault)

namespace Trouble

/-- The text of the trouble. -/
def message : Trouble → String
  | options error => error.message
  | noPath path => "Path " ++ path ++ " does not exist"
  | noFile path => path ++ " is not a file"
  | formula error => error.message
  | tool error => error.message
  | fault _ => "internal fault"

/-- The exit code that reports the trouble. -/
def exitCode : Trouble → Nat
  | fault _ => 101
  | _ => 1

end Trouble

/-- What a run prints and how it ends. -/
structure Report where
  /-- The lines printed. -/
  lines : List String
  /-- How it ends. -/
  outcome : Except Trouble Verdict

namespace Report

/-- The text printed. -/
def text (r : Report) : String := String.join (r.lines.map (· ++ "\n"))

/-- The exit code. -/
def exitCode (r : Report) : Nat :=
  match r.outcome with
  | .ok verdict => verdict.exitCode
  | .error trouble => trouble.exitCode

end Report

/-- A part of a run: it may print lines, also when it fails. -/
abbrev Reporting := ExceptT Trouble (StateM (List String))

namespace Reporting

/-- Prints a line. -/
def say (line : String) : Reporting Unit := modify (· ++ [line])

/-- Goes on with an answer. -/
def answer {α : Type} : Except Fault α → Reporting α
  | .ok a => pure a
  | .error fault => throw (.fault fault)

/-- Goes on with the answer of a program. -/
def toolAnswer {α : Type} : Except ToolError α → Reporting α
  | .ok a => pure a
  | .error error => throw (.tool error)

/-- The report of a run. -/
def report (r : Reporting Verdict) : Report :=
  let (outcome, lines) := r.run.run []
  ⟨lines, outcome⟩

end Reporting

namespace Invocation

open Reporting

/-- Variables in a row. -/
def varsText (vs : List Var) : String := " ".intercalate (vs.map Var.text)

/-- The bytes of the formula. -/
def content (i : Invocation) (w : Surroundings) : Except Trouble (List UInt8) :=
  match i.input with
  | none => .ok w.standardInput
  | some path =>
    if !w.isThere path then .error (.noPath path)
    else
      match w.file? path with
      | some bytes => .ok bytes
      | none => .error (.noFile path)

/-- The formula of a run, once its options are found in order. -/
def readFormula (i : Invocation) (w : Surroundings) : Except Trouble Formula := do
  match i.options.check w.isThere with
  | .error error => throw (.options error)
  | .ok _ =>
    let bytes ← i.content w
    match Formula.read { rest := bytes } with
    | .ok f => return f
    | .error error => throw (.formula error)

/-- Prints the number of models. -/
def reportCount (i : Invocation) (w : Surroundings) (f : Formula) : Reporting Unit :=
  match i.counter with
  | none => pure ()
  | some kind => do
    let count ← toolAnswer ((i.counterOf kind w.count).count f)
    say ("c model count: " ++ count.text)

/-- Replaces equivalent literals and prints how many variables are gone. -/
def reportSubstitution (i : Invocation) (s : Solver) : Reporting Solver :=
  if i.substitute then do
    let (substitution, s) ← answer s.substitute
    say ("c substituted variables: " ++ toString substitution.size)
    return s
  else pure s

/-- Prints the branching order. -/
def reportOrder (i : Invocation) (w : Surroundings) (c : Component) (s : Solver) :
    Reporting Solver :=
  if i.order then do
    let program := i.options.decomposer.getD ""
    let s ← toolAnswer (← answer (s.computeOrder c (w.decompose program)))
    say ("c order: " ++ varsText s.order.vars)
    return s
  else pure s

/-- Prints the connected components, numbered from one. -/
def reportComponents (i : Invocation) (c : Component) (s : Solver) : Reporting Solver :=
  if i.components then do
    let (d, s) ← answer (s.decompose c)
    for (piece, k) in d.components.zipIdx 1 do
      say ("c component " ++ toString k ++ ": " ++ varsText piece.vars)
    say ("c free variables: " ++ toString d.free.length)
    return s
  else pure s

/-- The line about implied literals. -/
def impliedText : ImpliedLiterals → String
  | .unsatisfiable _ => "c backbone: unsatisfiable"
  | .forced literals complete =>
    (if complete then "c backbone: " else "c backbone (incomplete): ")
      ++ " ".intercalate (literals.map Lit.text)

/-- Prints the implied literals, those of the projection if there is one. -/
def reportBackbone (i : Invocation) (P : SatProcedure) (fuel : Nat) (projected : Bool)
    (c : Component) (s : Solver) : Reporting Solver :=
  if i.backbone then do
    let (implied, ledger, s) ← answer (s.impliedLiterals P fuel c {} projected)
    let implied ← toolAnswer implied
    say (impliedText implied)
    return { s with pool := ledger.release s.pool }
  else pure s

/-- Does all that is asked for. -/
def reporting (i : Invocation) (P : SatProcedure) (fuel : Nat) (w : Surroundings) :
    Reporting Verdict := do
  let f ← liftM (i.readFormula w)
  i.reportCount w f
  let s ← i.reportSubstitution (.ofFormula f i.options)
  let c := s.initComponent
  let s ← i.reportOrder w c s
  let s ← i.reportComponents c s
  let s ← i.reportBackbone P fuel f.projection.isSome c s
  let (verdict, _) ← answer (s.solve fuel)
  say ("result status: " ++ verdict.text)
  return verdict

/-- Runs an invocation. -/
def run (i : Invocation) (P : SatProcedure) (fuel : Nat) (w : Surroundings) : Report :=
  (i.reporting P fuel w).report

end Invocation

end Cleave
