import ByExample.Tree.Basic

/-!
The categories of trees. The type of a tree is read off its root alone; `wellTyped` compares every
node with the production of its operator.
-/

namespace ByExample.Grammar

def typeOf (grammar : Grammar) : Tree → Except GrammarError Category
  | .hole category => .ok category
  | .node operator _ => grammar.returnTypeOf operator

/-- Whether a tree may stand where the symbol is asked for: a literal argument asks for its
terminal at the root, a category for a tree of that type. -/
def fits (grammar : Grammar) (tree : Tree) : Symbol → Bool
  | .terminal operator => tree.symbol = .terminal operator
  | .category category =>
    match grammar.typeOf tree with
    | .ok found => found = category
    | .error _ => false

mutual

/-- Holes are well typed. A node has one child per argument of its operator's production, each of
them fitting and well typed; an operator without a production has no children. -/
def wellTyped (grammar : Grammar) : Tree → Bool
  | .hole _ => true
  | .node operator children =>
    match grammar.argumentTypesOf operator with
    | .ok arguments => allWellTyped grammar children arguments
    | .error _ => children.isEmpty

def allWellTyped (grammar : Grammar) : List Tree → List Symbol → Bool
  | [], [] => true
  | child :: rest, argument :: arguments =>
    grammar.fits child argument && wellTyped grammar child && allWellTyped grammar rest arguments
  | _, _ => false

end

end ByExample.Grammar
