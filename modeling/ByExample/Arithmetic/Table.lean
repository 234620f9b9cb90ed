import ByExample.Arithmetic.Operator
import ByExample.Grammar.Basic

/-!
The arithmetic reading of a grammar: what each of its names means as an operator. A grammar has such
a reading if every production gives its operator as many arguments as the operator takes.
-/

namespace ByExample.Arithmetic

inductive TableError where
  /-- The name is not a known operator, and a parameter takes no arguments. -/
  | unknownOperator (name : String) (found : Nat)
  | arity (name : String) (expected found : Nat)
  deriving DecidableEq

def TableError.message : TableError → String
  | .unknownOperator name found =>
    "`" ++ name ++ "` is not a known operator, and as a variable it cannot take " ++
      toString found ++ " arguments"
  | .arity name expected found =>
    "`" ++ name ++ "` takes " ++ toString expected ++ " arguments, but its production gives " ++
      toString found

structure Table where
  operators : Array (String × Operator)
  predicates : Array Bool

namespace Table

def operatorOf (grammar : Grammar) (production : Production) : Operator :=
  .ofName (grammar.textOf (.terminal production.operator))

def mismatch? (grammar : Grammar) (production : Production) : Option TableError :=
  let name := grammar.textOf (.terminal production.operator)
  let operator := operatorOf grammar production
  if production.arity = operator.arity then none
  else if operator = .parameter then some (.unknownOperator name production.arity)
  else some (.arity name operator.arity production.arity)

/-- A category of which every production makes truth values. -/
def isPredicate (grammar : Grammar) (category : Category) : Bool :=
  (grammar.ofCategory category).all fun production => (operatorOf grammar production).isBoolean

def ofGrammar (grammar : Grammar) : Except TableError Table :=
  match grammar.allProductions.findSome? (mismatch? grammar) with
  | some error => .error error
  | none => .ok
    { operators := (grammar.terminals.names.map fun name => (name, .ofName name)).toArray
      predicates := (grammar.allCategories.map (isPredicate grammar)).toArray }

end Table

end ByExample.Arithmetic
