import ByExample.Tree.Basic

/-!
The text of a tree: the name of its root, and the children, if there are any, in parentheses and
separated by commas. Only the grammar knows names; a symbol it does not know is written by number.
-/

namespace ByExample.Tree

mutual

def display (grammar : Grammar) : Tree → String
  | .hole category => grammar.textOf (.category category)
  | .node operator children => grammar.textOf (.terminal operator) ++ argumentsText grammar children

def argumentsText (grammar : Grammar) : List Tree → String
  | [] => ""
  | child :: rest => "(" ++ display grammar child ++ furtherText grammar rest ++ ")"

def furtherText (grammar : Grammar) : List Tree → String
  | [] => ""
  | child :: rest => ", " ++ display grammar child ++ furtherText grammar rest

end

end ByExample.Tree
