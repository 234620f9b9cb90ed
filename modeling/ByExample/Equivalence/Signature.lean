import ByExample.Search.Context

/-!
The signature of a tree: its values on the examples, in the order of the examples. Trees of one
category with equal signatures cannot be told apart by the examples.
-/

namespace ByExample

variable {α ι ο : Type}

/-- One entry per example, absent where the tree was rejected. -/
inductive Signature (ο : Type) where
  | primary (values : List (Option ο))
  | predicate (values : List (Option Bool))
  deriving DecidableEq, Hashable

def Signature.agrees [DecidableEq ο] (expected : List ο) : Signature ο → Bool
  | .primary values => values = expected.map some
  | .predicate _ => false

namespace Context

/-- The outcomes on all examples; a fault on one of them leaves no outcomes. -/
def outcomes (run : ι → Except EvalError α) :
    List (Example ι ο) → Except SearchError (List (Option α))
  | [] => .ok []
  | first :: rest =>
    match run first.input with
    | .ok value => (outcomes run rest).map (some value :: ·)
    | .error (.rejected _) => (outcomes run rest).map (none :: ·)
    | .error (.fault reason) => .error (.evaluation (.fault reason))

def signature (ctx : Context ι ο) (category : Category) (tree : Tree) :
    Except SearchError (Signature ο) :=
  if ctx.semantics.isPredicate category then
    (outcomes (ctx.semantics.evaluatePredicate tree) ctx.examples).map .predicate
  else
    (outcomes (ctx.semantics.evaluate tree) ctx.examples).map .primary

end Context

end ByExample
