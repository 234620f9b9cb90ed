import ByExample.Semantics

/-!
What can be seen of a tree on one input: how each of the two evaluations ends, whatever reason it
gives for a failure.
-/

namespace ByExample

inductive Ending (α : Type) where
  | value (result : α)
  | rejected
  | fault
  deriving DecidableEq

namespace Ending

variable {α β : Type}

def ofResult : Except EvalError α → Ending α
  | .ok result => .value result
  | .error (.rejected _) => .rejected
  | .error (.fault _) => .fault

@[simp] theorem ofResult_ok (result : α) : ofResult (.ok result) = .value result := rfl

@[simp] theorem ofResult_rejected (reason : String) :
    ofResult (.error (.rejected reason) : Except EvalError α) = .rejected := rfl

@[simp] theorem ofResult_fault (reason : String) :
    ofResult (.error (.fault reason) : Except EvalError α) = .fault := rfl

def bind : Ending α → (α → Ending β) → Ending β
  | .value result, carry => carry result
  | .rejected, _ => .rejected
  | .fault, _ => .fault

end Ending

variable {ι ο : Type}

def Semantics.outcome (semantics : Semantics ι ο) (tree : Tree) (input : ι) :
    Ending ο × Ending Bool :=
  (.ofResult (semantics.evaluate tree input), .ofResult (semantics.evaluatePredicate tree input))

end ByExample
