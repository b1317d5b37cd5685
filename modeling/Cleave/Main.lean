import Cleave.Report

/-!
# The command line

Reads the arguments, gathers the surroundings of the run they ask for, and
prints its report. Programs outside are never started from here: every tool
counts as missing.
-/

namespace Cleave

/-- The content of a file; nothing if there is no file to read. -/
def readFile? (path : String) : IO (Option (List UInt8)) := do
  try
    let bytes ← IO.FS.readBinFile path
    return some bytes.toList
  catch _ => return none

/-- Whether a path can be opened. -/
def opens (path : String) : IO Bool := do
  try
    let _ ← IO.FS.Handle.mk path .read
    return true
  catch _ => return false

/-- What a run can see: the paths it names, and standard input if it names
no file. -/
def surroundingsOf (i : Invocation) : IO Surroundings := do
  let named := i.input.toList ++ i.options.decomposer.toList
  let there ← named.filterM fun path => opens path
  let content ← match i.input with
    | some path => readFile? path
    | none => pure none
  let standardInput ←
    if i.input.isSome then pure []
    else do
      let bytes ← (← IO.getStdin).readBinToEnd
      pure bytes.toList
  return {
    isThere := there.contains
    file? := fun path => if i.input = some path then content else none
    standardInput := standardInput
    count := fun _ _ _ => .missing
    decompose := fun _ _ => .missing }

end Cleave

open Cleave in
/-- Runs the command line. -/
def main (arguments : List String) : IO UInt32 := do
  match Invocation.ofArguments arguments with
  | .error stop =>
    match stop with
    | .version => IO.println UsageStop.versionText
    | .help => IO.println Invocation.usageText
    | _ => IO.eprintln Invocation.usageText
    return stop.exitCode.toUInt32
  | .ok i =>
    let r := i.run splitting Solver.ampleFuel (← surroundingsOf i)
    IO.print r.text
    match r.outcome with
    | .ok _ => pure ()
    | .error trouble => IO.eprintln ("Error: " ++ trouble.message)
    return r.exitCode.toUInt32
