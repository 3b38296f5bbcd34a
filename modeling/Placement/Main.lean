import Placement.CommandLine

/-!
# The program

Reads the file that the arguments name, carries them out, and shows the outcome. Everything that is
decided is decided by `Placement.CommandLine`.
-/

open Placement.CommandLine

/-- What is found of the file that an invocation needs. -/
def findFile : Invocation → IO (Option ByteArray)
  | .run command => do
    try
      return some (← IO.FS.readBinFile command.scenario)
    catch _ => return none
  | _ => return none

/-- Shows what went wrong, the context first and the cause after it. -/
def reportFailure (f : Placement.Scenario.Failure) : IO Unit := do
  IO.eprintln (errorLine f)
  match f.cause? with
  | some cause => IO.eprintln ("\nCaused by:\n    " ++ cause)
  | none => return

def main (arguments : List String) : IO UInt32 := do
  let invocation := read arguments
  let found ← findFile invocation
  let outcome := invocation.perform fun _ => found
  if outcome.status = 2 then IO.eprint usage
  IO.print outcome.shown
  match outcome.failure with
  | some f => reportFailure f
  | none => pure ()
  return outcome.status.toUInt32
