import ByExample.Semantics

/-!
A language of words. A leaf stands for its own name, `Concat` joins the words of its two arguments,
and `Reject` has no value. There are no predicates: every category but the start category counts as
one, and asking for a truth value is a fault.
-/

namespace ByExample.Words

def word (grammar : Grammar) : Tree → Except EvalError String
  | .hole _ => .error (.fault "hole")
  | .node operator children =>
    match grammar.nameOf (.terminal operator) with
    | .error error => .error (.fault error.message)
    | .ok name =>
      match name, children with
      | "Concat", [left, right] => do
        let left ← word grammar left
        let right ← word grammar right
        return left ++ right
      | "Reject", _ => .error (.rejected "never has a value")
      | name, [] => .ok name
      | name, _ => .error (.fault ("unknown operator " ++ name))

def semantics (grammar : Grammar) : Semantics Unit String where
  isPredicate category := category ≠ grammar.start
  evaluate tree _ := word grammar tree
  evaluatePredicate _ _ := .error (.fault "no predicates here")

end ByExample.Words
