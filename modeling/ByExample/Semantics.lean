import ByExample.Tree.Basic

/-!
What a language has to say about the trees of a grammar: the value of a tree on an input, or why
there is none.
-/

namespace ByExample

structure Example (ι ο : Type) where
  input : ι
  output : ο

inductive EvalError where
  /-- The tree has no value on this input. A search takes it for a mismatch. -/
  | rejected (reason : String)
  | fault (reason : String)
  deriving DecidableEq

def EvalError.message : EvalError → String
  | .rejected reason => "candidate rejected: " ++ reason
  | .fault reason => "evaluator fault: " ++ reason

/-- A language with inputs `ι` and outputs `ο`. Trees of a predicate category have truth values and
are run by `evaluatePredicate`, all others by `evaluate`. -/
structure Semantics (ι ο : Type) where
  isPredicate : Category → Bool
  evaluate : Tree → ι → Except EvalError ο
  evaluatePredicate : Tree → ι → Except EvalError Bool

end ByExample
