import ByExample.Decimal
import ByExample.Search.Step

/-!
The arguments of the command line: one problem file, and options before or after it. An option is
written with two dashes and its name or with one dash and its letter, letters may share a dash, and
the value of an option follows it or is attached to it. After `--` there are no more options.
-/

namespace ByExample.CommandLine

inductive Setting where
  | strategy
  | maxSize
  | maxSteps
  | timeLimit
  deriving DecidableEq

/-- What has been given so far; nothing may be given twice. -/
structure Given where
  file : Option String := none
  strategy : Option Strategy := none
  maxSize : Option Nat := none
  maxSteps : Option Nat := none
  timeLimit : Option Nat := none
  verbose : Bool := false

def count? (text : String) : Option Nat :=
  let digits := match text.toList with
    | '+' :: digits => digits
    | digits => digits
  (Decimal.natural? digits).filter (· < UInt64.size)

namespace Given

def fill {α : Type} : Option α → Option α → Option α
  | none, value => value
  | some _, _ => none

def addFile (given : Given) (name : String) : Option Given :=
  (fill given.file (if name = "" then none else some name)).map fun file =>
    { given with file := some file }

def beVerbose (given : Given) : Option Given :=
  if given.verbose then none else some { given with verbose := true }

def set (given : Given) (setting : Setting) (value : String) : Option Given :=
  match setting with
  | .strategy => (fill given.strategy (Strategy.ofName? value)).map fun strategy =>
    { given with strategy := some strategy }
  | .maxSize => (fill given.maxSize (count? value)).map fun maxSize =>
    { given with maxSize := some maxSize }
  | .maxSteps => (fill given.maxSteps (count? value)).map fun maxSteps =>
    { given with maxSteps := some maxSteps }
  | .timeLimit => (fill given.timeLimit (count? value)).map fun timeLimit =>
    { given with timeLimit := some timeLimit }

/-- Reads the letters after one dash. What is left is a setting that waits for its value. -/
def readLetters (given : Given) : List Char → Option (Given × Option Setting)
  | [] => some (given, none)
  | 'v' :: rest => given.beVerbose.bind fun given => given.readLetters rest
  | ['s'] => some (given, some .strategy)
  | 's' :: '=' :: value => (given.set .strategy (.ofList value)).map fun given => (given, none)
  | 's' :: value => (given.set .strategy (.ofList value)).map fun given => (given, none)
  | _ => none

def settingNamed? (name : List Char) : Option Setting :=
  if name = "strategy".toList then some .strategy
  else if name = "max-size".toList then some .maxSize
  else if name = "max-steps".toList then some .maxSteps
  else if name = "time-limit-ms".toList then some .timeLimit
  else none

def readName (given : Given) (text : List Char) : Option (Given × Option Setting) :=
  if text = "verbose".toList then given.beVerbose.map fun given => (given, none)
  else
    (settingNamed? (text.takeWhile (· ≠ '='))).bind fun setting =>
      match text.dropWhile (· ≠ '=') with
      | [] => some (given, some setting)
      | _ :: value => (given.set setting (.ofList value)).map fun given => (given, none)

def readArgument (given : Given) (argument : String) : Option (Given × Option Setting) :=
  match argument.toList with
  | '-' :: '-' :: text => given.readName text
  | '-' :: letter :: letters => given.readLetters (letter :: letters)
  | _ => (given.addFile argument).map fun given => (given, none)

/-- Reads the arguments in order. The value of a setting does not begin with a dash. -/
def readAll (given : Given) : List String → Option Given
  | [] => some given
  | argument :: rest =>
    if argument = "--" then rest.foldlM addFile given
    else
      match given.readArgument argument, rest with
      | none, _ => none
      | some (given, none), rest => given.readAll rest
      | some (_, some _), [] => none
      | some (given, some setting), value :: rest =>
        if value.startsWith "-" then none
        else (given.set setting value).bind fun given => given.readAll rest

end Given

structure Arguments where
  file : String
  strategy : Strategy
  limits : Limits
  verbose : Bool

/-- Growth by size is the strategy unless the arguments name one. -/
def Arguments.ofList? (arguments : List String) : Option Arguments := do
  let given ← Given.readAll {} arguments
  let file ← given.file
  return {
    file
    strategy := given.strategy.getD .bottomUp
    limits := {
      maxSize := given.maxSize.getD ({} : Limits).maxSize
      maxSteps := given.maxSteps
      timeLimit := given.timeLimit }
    verbose := given.verbose }

end ByExample.CommandLine
