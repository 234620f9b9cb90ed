import ByExample.Arithmetic.Environment
import ByExample.Semantics
import ByExample.Grammar.Rules

/-!
Problems of the arithmetic language: a grammar written in rules, and the examples to reproduce.
-/

namespace ByExample

structure Problem where
  start : String
  rules : List Rule
  examples : List (Example Arithmetic.Environment Int64)

def Problem.grammar (problem : Problem) : Except GrammarError Grammar :=
  Grammar.ofRules problem.start problem.rules

end ByExample
