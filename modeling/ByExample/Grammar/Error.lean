import ByExample.Grammar.Symbol

/-!
What can be wrong with a grammar, or with a question put to one. Names stand in a message as they
are, without escaping.
-/

namespace ByExample

inductive GrammarError where
  /-- The handle was not issued by this grammar, so there is no name to report. -/
  | unknownOperator (terminal : Terminal)
  | unknownCategory (category : Category)
  | noProduction (name : String)
  | duplicateOperator (name : String)
  | missingProductions (name : String)
  | kindClash (name : String)
  | literalOperator (name : String)
  deriving DecidableEq

def GrammarError.message : GrammarError → String
  | .unknownOperator terminal =>
    "operator handle " ++ terminal.text ++ " does not belong to this grammar"
  | .unknownCategory category =>
    "category handle " ++ category.text ++ " does not belong to this grammar"
  | .noProduction name => "`" ++ name ++ "` only appears as a literal argument and has no production"
  | .duplicateOperator name => "operator `" ++ name ++ "` appears in more than one production"
  | .missingProductions name => "category `" ++ name ++ "` is referenced but has no productions"
  | .kindClash name => "`" ++ name ++ "` is used both as an operator and as a category"
  | .literalOperator name =>
    "operator `" ++ name ++ "` takes arguments and cannot be used as a literal argument"

end ByExample
