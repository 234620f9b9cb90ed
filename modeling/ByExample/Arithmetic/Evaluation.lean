import ByExample.Arithmetic.Environment
import ByExample.Arithmetic.Table
import ByExample.Semantics

/-!
The values of arithmetic trees. Integers are 64-bit words that wrap around; a quotient or remainder
without a 64-bit value is rejected. An operator looks at its arguments from left to right and checks
their kinds one by one; the connectives and the choice look at no more arguments than they need.
-/

namespace ByExample.Arithmetic

inductive Value where
  | int (value : Int64)
  | bool (value : Bool)
  deriving DecidableEq

inductive Failure where
  | incomplete
  | notInTable (operator : Terminal)
  | argumentCount (name : String) (found : Nat)
  | integerExpected (name : String) (position : Nat)
  | booleanExpected (name : String) (position : Nat)
  | unbound (name : String)
  | divisionByZero
  | remainderByZero
  | integerProgramExpected
  | predicateExpected
  deriving DecidableEq

def Failure.toEvalError : Failure → EvalError
  | .incomplete => .fault "cannot evaluate an incomplete tree"
  | .notInTable operator => .fault ("operator " ++ operator.text ++ " is not in the table")
  | .argumentCount name found =>
    .fault ("`" ++ name ++ "` cannot be applied to " ++ toString found ++ " arguments")
  | .integerExpected name position =>
    .fault ("`" ++ name ++ "` expects an integer in position " ++ toString position)
  | .booleanExpected name position =>
    .fault ("`" ++ name ++ "` expects a boolean in position " ++ toString position)
  | .unbound name => .fault ("unbound variable `" ++ name ++ "`")
  | .divisionByZero => .rejected "division by zero"
  | .remainderByZero => .rejected "remainder by zero"
  | .integerProgramExpected => .fault "expected an integer program"
  | .predicateExpected => .fault "expected a predicate"

def Value.toInt (failure : Failure) : Value → Except Failure Int64
  | .int value => .ok value
  | .bool _ => .error failure

def Value.toBool (failure : Failure) : Value → Except Failure Bool
  | .bool value => .ok value
  | .int _ => .error failure

/-- Whether `left / right` is a 64-bit integer: the least integer divided by -1 is not. -/
def HasQuotient (left right : Int64) : Prop :=
  right ≠ 0 ∧ ¬(left = Int64.minValue ∧ right = -1)

instance (left right : Int64) : Decidable (HasQuotient left right) :=
  inferInstanceAs (Decidable (_ ∧ _))

def IntOperation.apply : IntOperation → Int64 → Int64 → Except Failure Int64
  | .add, left, right => .ok (left + right)
  | .sub, left, right => .ok (left - right)
  | .mul, left, right => .ok (left * right)
  | .div, left, right => if HasQuotient left right then .ok (left / right) else .error .divisionByZero
  | .mod, left, right => if HasQuotient left right then .ok (left % right) else .error .remainderByZero

def Comparison.holds : Comparison → Int64 → Int64 → Bool
  | .less, left, right => left < right
  | .greater, left, right => right < left
  | .equal, left, right => left = right

def Connective.decisive : Connective → Bool
  | .and => false
  | .or => true

abbrev Evaluated := Except Failure Value

namespace Operator

def ofNone (name : String) (made : Evaluated) : List Evaluated → Evaluated
  | [] => made
  | results => .error (.argumentCount name results.length)

def ofOne (name : String) (make : Evaluated → Evaluated) : List Evaluated → Evaluated
  | [argument] => make argument
  | results => .error (.argumentCount name results.length)

def ofTwo (name : String) (make : Evaluated → Evaluated → Evaluated) : List Evaluated → Evaluated
  | [left, right] => make left right
  | results => .error (.argumentCount name results.length)

def ofThree (name : String) (make : Evaluated → Evaluated → Evaluated → Evaluated) :
    List Evaluated → Evaluated
  | [first, second, third] => make first second third
  | results => .error (.argumentCount name results.length)

/-- The operator on what became of its arguments. -/
def combine (name : String) (environment : Environment) : Operator → List Evaluated → Evaluated
  | .literal value => ofNone name (.ok (.int value))
  | .truth value => ofNone name (.ok (.bool value))
  | .parameter => ofNone name <|
    match environment.get? name with
    | some value => .ok (.int value)
    | none => .error (.unbound name)
  | .negate => ofOne name fun argument => do
    let value ← (← argument).toInt (.integerExpected name 0)
    return .int (-value)
  | .not => ofOne name fun argument => do
    let value ← (← argument).toBool (.booleanExpected name 0)
    return .bool (!value)
  | .calculate operation => ofTwo name fun left right => do
    let left ← (← left).toInt (.integerExpected name 0)
    let right ← (← right).toInt (.integerExpected name 1)
    return .int (← operation.apply left right)
  | .compare comparison => ofTwo name fun left right => do
    let left ← (← left).toInt (.integerExpected name 0)
    let right ← (← right).toInt (.integerExpected name 1)
    return .bool (comparison.holds left right)
  -- From here on an argument that does not matter is not looked at, so that its failure is none.
  | .connect connective => ofTwo name fun left right => do
    let left ← (← left).toBool (.booleanExpected name 0)
    if left = connective.decisive then return .bool left
    return .bool (← (← right).toBool (.booleanExpected name 1))
  | .choose => ofThree name fun condition positive negative => do
    let condition ← (← condition).toBool (.booleanExpected name 0)
    if condition then positive else negative

theorem combine_of_length_ne (operator : Operator) (name : String) (environment : Environment)
    (results : List Evaluated) (misfit : results.length ≠ operator.arity) :
    operator.combine name environment results = .error (.argumentCount name results.length) := by
  cases operator with
  | literal _ | truth _ | parameter =>
    rcases results with _ | ⟨first, rest⟩
    · exact absurd rfl misfit
    · rfl
  | negate | not =>
    rcases results with _ | ⟨first, _ | ⟨second, rest⟩⟩
    · rfl
    · exact absurd rfl misfit
    · rfl
  | calculate _ | compare _ | connect _ =>
    rcases results with _ | ⟨first, _ | ⟨second, _ | ⟨third, rest⟩⟩⟩
    · rfl
    · rfl
    · exact absurd rfl misfit
    · rfl
  | choose =>
    rcases results with _ | ⟨first, _ | ⟨second, _ | ⟨third, _ | ⟨fourth, rest⟩⟩⟩⟩
    · rfl
    · rfl
    · rfl
    · exact absurd rfl misfit
    · rfl

end Operator

namespace Table

mutual

def value (table : Table) (environment : Environment) : Tree → Evaluated
  | .hole _ => .error .incomplete
  | .node terminal children =>
    match table.operators[terminal.index]? with
    | none => .error (.notInTable terminal)
    | some (name, operator) =>
      operator.combine name environment (table.values environment children)

def values (table : Table) (environment : Environment) : List Tree → List Evaluated
  | [] => []
  | child :: rest => table.value environment child :: table.values environment rest

end

theorem values_eq_map (table : Table) (environment : Environment) (trees : List Tree) :
    table.values environment trees = trees.map (table.value environment) := by
  induction trees with
  | nil => rfl
  | cons tree trees ih => rw [values, ih, List.map_cons]

def evaluate (table : Table) (tree : Tree) (environment : Environment) : Except Failure Int64 := do
  (← table.value environment tree).toInt .integerProgramExpected

def evaluatePredicate (table : Table) (tree : Tree) (environment : Environment) :
    Except Failure Bool := do
  (← table.value environment tree).toBool .predicateExpected

def semantics (table : Table) : Semantics Environment Int64 where
  isPredicate category := table.predicates.getD category.index false
  evaluate tree environment := (table.evaluate tree environment).mapError Failure.toEvalError
  evaluatePredicate tree environment :=
    (table.evaluatePredicate tree environment).mapError Failure.toEvalError

end Table

end ByExample.Arithmetic
