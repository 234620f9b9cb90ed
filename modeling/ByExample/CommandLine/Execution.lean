import ByExample.Arithmetic.Evaluation
import ByExample.CommandLine.Arguments
import ByExample.Problem.Format
import ByExample.Search.Basic
import ByExample.Tree.Printer

/-!
What a run of the command line does: reads the problem file, searches, and reports. Misuse ends with
code 2, failure with code 1.
-/

namespace ByExample.CommandLine

open Arithmetic (Environment Table TableError)

inductive Failure where
  | reading (file : String)
  | building (file : String) (error : GrammarError)
  | interpreting (file : String) (error : TableError)
  | searching (error : SearchError)

def Failure.message : Failure → String
  | .reading file => "reading problem from " ++ file
  | .building file _ => "building grammar from " ++ file
  | .interpreting file _ => "interpreting the grammar of " ++ file
  | .searching error => error.message

structure Report where
  exitCode : UInt32
  output : String
  failure : Option String

def Report.misuse : Report :=
  { exitCode := 2, output := "", failure := none }

def Report.ofFailure (failure : Failure) : Report :=
  { exitCode := 1, output := "", failure := some failure.message }

def Report.ofResult (grammar : Grammar) (result : Result) : Report :=
  let line := match result with
    | .program program => program.tree.display grammar
    | .notFound => "Exhausted all candidates up to the search bound without a valid program"
    | .timeout => "synthesis ran out of time"
  { exitCode := 0, output := line ++ "\n", failure := none }

def contextOf (file : String) (contents : Option (List UInt8)) :
    Except Failure (Context Environment Int64) :=
  match contents.bind Problem.read? with
  | none => .error (.reading file)
  | some problem =>
    match problem.grammar with
    | .error error => .error (.building file error)
    | .ok grammar =>
      match Table.ofGrammar grammar with
      | .error error => .error (.interpreting file error)
      | .ok table => .ok { grammar, examples := problem.examples, semantics := table.semantics }

def Report.ofOutcome (grammar : Grammar) : Except SearchError Result → Report
  | .ok result => .ofResult grammar result
  | .error error => .ofFailure (.searching error)

/-- The report of the command line with these arguments, where `contents` gives the files that can be
read, if the search is over after so many turns on a clock that stands still. -/
def execute (arguments : List String) (contents : String → Option (List UInt8)) (turns : Nat) :
    Option Report :=
  match Arguments.ofList? arguments with
  | none => some .misuse
  | some { file, strategy, limits, .. } =>
    match contextOf file (contents file) with
    | .error failure => some (.ofFailure failure)
    | .ok ctx => (synthesize ctx strategy limits turns).map (Report.ofOutcome ctx.grammar)

end ByExample.CommandLine
