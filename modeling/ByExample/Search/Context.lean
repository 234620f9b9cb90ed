import ByExample.Semantics

/-!
What a search reads and never changes: the grammar, the examples and the language.
-/

namespace ByExample

variable {ι ο : Type}

structure Context (ι ο : Type) where
  grammar : Grammar
  examples : List (Example ι ο)
  semantics : Semantics ι ο

inductive SearchError where
  | grammar (error : GrammarError)
  | evaluation (error : EvalError)
  deriving DecidableEq

def SearchError.message : SearchError → String
  | .grammar error => error.message
  | .evaluation error => "evaluator failure: " ++ error.message

namespace Context

def expected (ctx : Context ι ο) : List ο :=
  ctx.examples.map Example.output

/-- Whether the tree has the wanted output on every example; the first example on which it has not
settles the answer. -/
def reproduces [DecidableEq ο] (semantics : Semantics ι ο) (tree : Tree) :
    List (Example ι ο) → Except SearchError Bool
  | [] => .ok true
  | first :: rest =>
    match semantics.evaluate tree first.input with
    | .ok output => if output = first.output then reproduces semantics tree rest else .ok false
    | .error (.rejected _) => .ok false
    | .error (.fault reason) => .error (.evaluation (.fault reason))

def check [DecidableEq ο] (ctx : Context ι ο) (tree : Tree) : Except SearchError Bool :=
  reproduces ctx.semantics tree ctx.examples

end Context

end ByExample
