import ByExample.CommandLine.Execution

/-!
The program: carries out the command line on real files and by a real clock.
-/

namespace ByExample

open CommandLine

variable {ι ο : Type} [DecidableEq ο] [Hashable ο]

/-- Takes turns until the run is over. -/
partial def runByClock (ctx : Context ι ο) (limits : Limits) (started : Nat) (search : Search ο) :
    IO (Except SearchError Result × Nat) := do
  let now ← IO.monoMsNow
  match search.turn ctx limits (now - started) with
  | (some result, search) => return (result, search.steps)
  | (none, search) => runByClock ctx limits started search

def readContents (file : String) : IO (Option (List UInt8)) := do
  try
    let bytes ← IO.FS.readBinFile file
    return some bytes.toList
  catch _ => return none

def carryOut (arguments : Arguments) : IO Report := do
  match contextOf arguments.file (← readContents arguments.file) with
  | .error failure => return .ofFailure failure
  | .ok ctx =>
    let search := Search.start ctx.grammar arguments.strategy arguments.limits
    let (result, steps) ← runByClock ctx arguments.limits (← IO.monoMsNow) search
    if arguments.verbose then IO.eprintln ("Search ended after " ++ toString steps ++ " steps")
    return .ofOutcome ctx.grammar result

end ByExample

open ByExample CommandLine in
def main (arguments : List String) : IO UInt32 := do
  let report ← match Arguments.ofList? arguments with
    | none =>
      IO.eprintln ("Usage: byexample FILE [-s|--strategy top-down|bottom-up] [--max-size N] " ++
        "[--max-steps N] [--time-limit-ms N] [-v|--verbose]")
      pure Report.misuse
    | some arguments => carryOut arguments
  IO.print report.output
  if let some failure := report.failure then IO.eprintln ("Error: " ++ failure)
  return report.exitCode
