import ByExample.Grammar.Basic

/-!
The text of a grammar: its start symbol, then one line per production, category by category.
-/

namespace ByExample.Grammar

def productionText (grammar : Grammar) (production : Production) : String :=
  let head := grammar.textOf (.category production.category) ++ " -> " ++
    grammar.textOf (.terminal production.operator)
  match production.arguments with
  | [] => head
  | arguments => head ++ "(" ++ String.intercalate ", " (arguments.map grammar.textOf) ++ ")"

def display (grammar : Grammar) : String :=
  "Start symbol: " ++ grammar.textOf (.category grammar.start) ++ "\nProductions:\n" ++
    String.join (grammar.allProductions.map fun production =>
      "  " ++ grammar.productionText production ++ "\n")

end ByExample.Grammar
