import Cleave.Graph.TreeDecomposition

/-!
# External tools

Programs outside are described by what a run of them gives: the program is
not there, it does not finish in time, or it finishes with an exit code and
some output. `ToolRun.output` is the one place that says which of these
outcomes are failures. The failures of the exchanges built on it are listed
with them.
-/

namespace Cleave

/-- A time limit in milliseconds. -/
structure TimeLimit where
  /-- The number of milliseconds. -/
  millis : Nat
deriving DecidableEq

namespace TimeLimit

/-- A limit of whole seconds. -/
def seconds (n : Nat) : TimeLimit := ⟨1000 * n⟩

/-- The part behind the point of a second, without zeros at its end. -/
def fraction (millis : Nat) : String :=
  let digits := (toString (1000 + millis)).toList.drop 1
  String.ofList (digits.reverse.dropWhile (· = '0')).reverse

/-- The text of a limit, in the largest unit that is not below one. -/
def text (t : TimeLimit) : String :=
  if t.millis = 0 then "0ns"
  else if t.millis < 1000 then toString t.millis ++ "ms"
  else
    let whole := toString (t.millis / 1000)
    if t.millis % 1000 = 0 then whole ++ "s"
    else whole ++ "." ++ fraction (t.millis % 1000) ++ "s"

end TimeLimit

/-- Why an exchange with a program fails. -/
inductive ToolError where
  /-- The program cannot be started. -/
  | spawn (program : String)
  /-- The program does not finish in time. -/
  | timeout (program : String) (limit : TimeLimit)
  /-- The program reports a failure. -/
  | failed (program : String) (exit : Nat)
  /-- The output lacks the line that holds the result. -/
  | missingMarker (program marker : String)
  /-- A line of the output cannot be understood. -/
  | malformed (program : String) (line : Nat) (reason : String)
  /-- The program knows no weights. -/
  | weightsUnsupported (program : String)
  /-- The SAT procedure failed. -/
  | engine (reason : String)
  /-- The output describes no tree decomposition of the graph. -/
  | invalidDecomposition (fault : DecompositionFault)
  /-- The output is not UTF-8. -/
  | notText
deriving DecidableEq

/-- The text of a failure. -/
def ToolError.message : ToolError → String
  | spawn program => "failed to run `" ++ program ++ "`"
  | timeout program limit => "`" ++ program ++ "` did not finish within " ++ limit.text
  | failed program exit => "`" ++ program ++ "` exited with exit status: " ++ toString exit
  | missingMarker program marker =>
    "output of `" ++ program ++ "` contains no line starting with `" ++ marker ++ "`"
  | malformed program line reason =>
    "malformed output of `" ++ program ++ "` in line " ++ toString line ++ ": " ++ reason
  | weightsUnsupported program => "`" ++ program ++ "` cannot count weighted formulas"
  | engine reason => "SAT engine failed: " ++ reason
  | invalidDecomposition _ => "invalid tree decomposition"
  | notText => "stream did not contain valid UTF-8"

/-- What a run of a program gives. -/
inductive ToolRun where
  /-- The program is not there. -/
  | missing
  /-- The program does not finish in time. -/
  | hangs
  /-- The program finishes with an exit code, having written some bytes. -/
  | finished (exit : Nat) (output : List UInt8)

/-- The text a successful run wrote. -/
def ToolRun.output (r : ToolRun) (program : String) (limit : TimeLimit) :
    Except ToolError (List Char) :=
  match r with
  | missing => .error (.spawn program)
  | hangs => .error (.timeout program limit)
  | finished exit output =>
    if exit ≠ 0 then .error (.failed program exit)
    else
      match String.fromUTF8? (ByteArray.mk output.toArray) with
      | some text => .ok text.toList
      | none => .error .notText

end Cleave
