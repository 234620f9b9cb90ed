import ByExample.Json.Parser
import ByExample.Json.Reader
import ByExample.Problem.Basic

/-!
Problem files, in JSON as RFC 8259 has it. A problem, a rule and an example are derived records
(`Json.Value.fields?`): a problem of its start category, its productions and its examples, where a
rule may leave out its arguments. The inputs of an example are an object, in which the last binding
of a name counts. What is written has every field in its place.
-/

namespace ByExample

namespace Arithmetic.Environment

def ofJson? (value : Json.Value) : Option Environment := do
  let members ← value.members?
  let bindings ← members.mapM fun (name, value) => value.word?.map fun word => (name, word)
  return .ofList bindings

def toJson (environment : Environment) : Json.Value :=
  .ofMembers (environment.bindings.map fun (name, word) => (name, .ofWord word))

end Arithmetic.Environment

namespace Rule

def ofJson? (value : Json.Value) : Option Rule := do
  match ← value.fields? ["ret", "op", "args"] with
  | [some category, some operator, arguments] =>
    return {
      category := ← category.text?
      operator := ← operator.text?
      arguments := ← (arguments.getD (.array [])).list? Json.Value.text? }
  | _ => none

def toJson (rule : Rule) : Json.Value :=
  .ofMembers [("ret", .ofText rule.category), ("op", .ofText rule.operator),
    ("args", .array (rule.arguments.map .ofText))]

end Rule

namespace Problem

def exampleOfJson? (value : Json.Value) : Option (Example Arithmetic.Environment Int64) := do
  match ← value.fields? ["input", "output"] with
  | [some input, some output] =>
    return { input := ← Arithmetic.Environment.ofJson? input, output := ← output.word? }
  | _ => none

def exampleToJson (sample : Example Arithmetic.Environment Int64) : Json.Value :=
  .ofMembers [("input", sample.input.toJson), ("output", .ofWord sample.output)]

def ofJson? (value : Json.Value) : Option Problem := do
  match ← value.fields? ["start", "productions", "examples"] with
  | [some start, some rules, some examples] =>
    return {
      start := ← start.text?
      rules := ← rules.list? Rule.ofJson?
      examples := ← examples.list? exampleOfJson? }
  | _ => none

def toJson (problem : Problem) : Json.Value :=
  .ofMembers [("start", .ofText problem.start),
    ("productions", .array (problem.rules.map Rule.toJson)),
    ("examples", .array (problem.examples.map exampleToJson))]

def read? (bytes : List UInt8) : Option Problem :=
  (Json.Value.read? bytes).bind ofJson?

/-- The bytes of a problem file, without blanks and with every field. -/
def write (problem : Problem) : List UInt8 :=
  problem.toJson.write

end Problem

end ByExample
