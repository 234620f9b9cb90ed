import ByExample.Decimal

/-!
The operators of the arithmetic language and how they are recognised by name: integer literals first,
then the known words in any letter case; any other name is a parameter of the program.
-/

namespace ByExample.Arithmetic

inductive IntOperation where
  | add | sub | mul | div | mod
  deriving DecidableEq

inductive Comparison where
  | less | greater | equal
  deriving DecidableEq

inductive Connective where
  | and | or
  deriving DecidableEq

inductive Operator where
  | literal (value : Int64)
  | truth (value : Bool)
  | parameter
  | negate
  | not
  | calculate (operation : IntOperation)
  | compare (comparison : Comparison)
  | connect (connective : Connective)
  | choose
  deriving DecidableEq

namespace Operator

def arity : Operator → Nat
  | .literal _ | .truth _ | .parameter => 0
  | .negate | .not => 1
  | .calculate _ | .compare _ | .connect _ => 2
  | .choose => 3

/-- Whether the operator always makes a truth value. -/
def isBoolean : Operator → Bool
  | .truth _ | .not | .compare _ | .connect _ => true
  | .literal _ | .parameter | .negate | .calculate _ | .choose => false

def ofWord : String → Operator
  | "true" => .truth true
  | "false" => .truth false
  | "neg" | "negate" => .negate
  | "not" => .not
  | "add" | "plus" => .calculate .add
  | "sub" | "minus" => .calculate .sub
  | "mul" | "multiply" | "times" => .calculate .mul
  | "div" => .calculate .div
  | "mod" => .calculate .mod
  | "lt" => .compare .less
  | "gt" => .compare .greater
  | "eq" => .compare .equal
  | "and" => .connect .and
  | "or" => .connect .or
  | "ite" => .choose
  | _ => .parameter

def literal? (name : String) : Option Int64 :=
  (Decimal.integer? name.toList).bind Decimal.word?

def ofName (name : String) : Operator :=
  match literal? name with
  | some value => .literal value
  -- Digits that no 64-bit integer has are a parameter like any other name.
  | none => ofWord (name.map Char.toLower)

end Operator

end ByExample.Arithmetic
