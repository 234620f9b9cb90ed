import ByExample.Proofs.Arithmetic.Reading
import ByExample.Proofs.Decimal
import ByExample.Proofs.Rules
import Mathlib.Data.Int.ModEq

/-!
Arithmetic of words is arithmetic of integers modulo 2^64. An expression of numbers, parameters,
negations, sums, differences and products has a value among the unbounded integers
(`Expression.value`). A tree that writes it with the names of a grammar evaluates to the only word
that is congruent to this value (`wraps_value`).
-/

namespace ByExample.Arithmetic

theorem toInt_modEq_iff (word : Int64) (value : Int) :
    word.toInt ≡ value [ZMOD 2 ^ 64] ↔ word = .ofInt value := by
  constructor
  · intro same
    apply Int64.toInt_inj.mp
    calc
      word.toInt = word.toInt.bmod (2 ^ 64) := word.toInt_bmod.symm
      _ = (word.toInt % 2 ^ 64).bmod (2 ^ 64) := (Int.emod_bmod word.toInt (2 ^ 64)).symm
      _ = (value % 2 ^ 64).bmod (2 ^ 64) := by rw [same]
      _ = value.bmod (2 ^ 64) := Int.emod_bmod value (2 ^ 64)
      _ = (Int64.ofInt value).toInt := Int64.toInt_ofInt.symm
  · rintro rfl
    rw [Int64.toInt_ofInt]
    exact Int.bmod_emod

inductive RingOperation where
  | sum | difference | product

namespace RingOperation

def words : RingOperation → List String
  | .sum => ["add", "plus"]
  | .difference => ["sub", "minus"]
  | .product => ["mul", "multiply", "times"]

def apply : RingOperation → Int → Int → Int
  | .sum, left, right => left + right
  | .difference, left, right => left - right
  | .product, left, right => left * right

def onWords : RingOperation → IntOperation
  | .sum => .add
  | .difference => .sub
  | .product => .mul

theorem onWords_apply (operation : RingOperation) (left right : Int) :
    operation.onWords.apply (.ofInt left) (.ofInt right) =
      .ok (.ofInt (operation.apply left right)) := by
  cases operation with
  | sum => rw [apply, Int64.ofInt_add, onWords, IntOperation.apply]
  | difference => rw [apply, Int64.ofInt_sub, onWords, IntOperation.apply]
  | product => rw [apply, Int64.ofInt_mul, onWords, IntOperation.apply]

end RingOperation

inductive Expression where
  | number (value : Int)
  | parameter (name : String)
  | negation (argument : Expression)
  | calculation (operation : RingOperation) (left right : Expression)

namespace Expression

def value (assignment : String → Int) : Expression → Int
  | .number value => value
  | .parameter name => assignment name
  | .negation argument => -argument.value assignment
  | .calculation operation left right =>
    operation.apply (left.value assignment) (right.value assignment)

def parameters : Expression → List String
  | .number _ => []
  | .parameter name => [name]
  | .negation argument => argument.parameters
  | .calculation _ left right => left.parameters ++ right.parameters

end Expression

def negationWords : List String :=
  ["neg", "negate"]

/-- The tree writes the expression with the names of the grammar, its words in any letter case. -/
inductive Writes (grammar : Grammar) : Tree → Expression → Prop where
  | number (terminal : Terminal) (name : String) (value : Int)
      (named : grammar.nameOf (.terminal terminal) = .ok name)
      (read : Decimal.integer? name.toList = some value)
      (fits : Int64.minValue.toInt ≤ value ∧ value ≤ Int64.maxValue.toInt) :
      Writes grammar (.leaf terminal) (.number value)
  | parameter (terminal : Terminal) (name : String)
      (named : grammar.nameOf (.terminal terminal) = .ok name)
      (free : Operator.ofName name = .parameter) : Writes grammar (.leaf terminal) (.parameter name)
  | negation (terminal : Terminal) (name : String) (child : Tree) (argument : Expression)
      (named : grammar.nameOf (.terminal terminal) = .ok name)
      (word : name.map Char.toLower ∈ negationWords) (inner : Writes grammar child argument) :
      Writes grammar (.node terminal [child]) (.negation argument)
  | calculation (terminal : Terminal) (name : String) (operation : RingOperation)
      (first second : Tree) (left right : Expression)
      (named : grammar.nameOf (.terminal terminal) = .ok name)
      (word : name.map Char.toLower ∈ operation.words) (onLeft : Writes grammar first left)
      (onRight : Writes grammar second right) :
      Writes grammar (.node terminal [first, second]) (.calculation operation left right)

namespace Operator

theorem ofName_of_word (name : String)
    (letter : (name.map Char.toLower).toList.any Char.isAlpha = true) :
    ofName name = ofWord (name.map Char.toLower) := by
  have unread : literal? name = none := by
    rw [literal?, Option.bind_eq_none_iff]
    intro value read
    obtain ⟨c, member, alpha⟩ := List.any_eq_true.mp letter
    rw [String.toList_map] at member
    obtain ⟨original, within, rfl⟩ := List.mem_map.mp member
    rw [Decimal.not_isAlpha_of_integer? _ value read original within] at alpha
    cases alpha
  rw [ofName, unread]

theorem ofName_of_mem_words (words : List String) (operator : Operator)
    (meaning : ∀ word ∈ words, word.toList.any Char.isAlpha = true ∧ ofWord word = operator)
    (name : String) (member : name.map Char.toLower ∈ words) : ofName name = operator := by
  obtain ⟨letter, same⟩ := meaning _ member
  rw [ofName_of_word name letter, same]

theorem ofName_negation (name : String) (member : name.map Char.toLower ∈ negationWords) :
    ofName name = .negate :=
  ofName_of_mem_words negationWords .negate (by decide) name member

theorem ofName_calculation (operation : RingOperation) (name : String)
    (member : name.map Char.toLower ∈ operation.words) :
    ofName name = .calculate operation.onWords := by
  refine ofName_of_mem_words operation.words _ ?_ name member
  cases operation <;> decide

end Operator

namespace Table

variable {grammar : Grammar} {table : Table} {environment : Environment} {tree : Tree}
  {expression : Expression}

theorem operators_of_nameOf (made : ofGrammar grammar = .ok table) (operator : Terminal)
    (name : String) (named : grammar.nameOf (.terminal operator) = .ok name) :
    table.operators[operator.index]? = some (name, .ofName name) :=
  (operators_eq_some_iff made _ _ _).mpr
    ⟨(grammar.nameOf_terminal_eq_ok_iff operator name).mp named, rfl⟩

theorem value_of_writes (made : ofGrammar grammar = .ok table)
    (written : Writes grammar tree expression) (assignment : String → Int64)
    (bound : ∀ name ∈ expression.parameters, environment.get? name = some (assignment name)) :
    table.value environment tree =
      .ok (.int (.ofInt (expression.value fun name => (assignment name).toInt))) := by
  induction written with
  | number terminal name value named read fits =>
    have literal : Operator.ofName name = .literal (.ofInt value) := by
      rw [Operator.ofName, Operator.literal?, read, Option.bind_some, Decimal.word?, if_pos fits]
    rw [Tree.leaf, Table.value, operators_of_nameOf made terminal name named, literal]
    rfl
  | parameter terminal name named free =>
    have binding := bound name List.mem_cons_self
    rw [Tree.leaf, Table.value, operators_of_nameOf made terminal name named, free]
    simp only [values, Operator.combine, Operator.ofNone, binding, Expression.value,
      Int64.ofInt_toInt]
  | negation terminal name child argument named word inner ih =>
    rw [Table.value, operators_of_nameOf made terminal name named,
      Operator.ofName_negation name word]
    simp only [values, ih bound, Expression.value, Int64.ofInt_neg]
    rfl
  | calculation terminal name operation first second left right named word _ _ onLeft onRight =>
    obtain ⟨leftBound, rightBound⟩ := List.forall_mem_append.mp bound
    rw [Table.value, operators_of_nameOf made terminal name named,
      Operator.ofName_calculation operation name word]
    simp only [values, onLeft leftBound, onRight rightBound, Operator.combine, Operator.ofTwo, bind,
      Except.bind, Value.toInt, operation.onWords_apply]
    rfl

/-- A tree that writes an expression evaluates to the only word that is congruent to the value of the
expression among the integers, in every environment that binds its parameters. -/
theorem wraps_value (made : ofGrammar grammar = .ok table) (tree : Tree) (expression : Expression)
    (written : Writes grammar tree expression) (environment : Environment)
    (assignment : String → Int64)
    (bound : ∀ name ∈ expression.parameters, environment.get? name = some (assignment name)) :
    ∃ output, table.semantics.evaluate tree environment = .ok output ∧ ∀ word : Int64,
      word.toInt ≡ expression.value (fun name => (assignment name).toInt) [ZMOD 2 ^ 64] ↔
        word = output := by
  refine ⟨.ofInt (expression.value fun name => (assignment name).toInt), ?_, ?_⟩
  · rw [evaluate_eq_ok_iff]
    exact value_of_writes made written assignment bound
  · intro word
    exact toInt_modEq_iff word _

end Table

def shoutedGrammar : Grammar where
  terminals := .ofList ["x", "9223372036854775807", "NEGATE", "Plus", "tImeS"]
  categories := .ofList ["E"]
  productions :=
    [⟨⟨0⟩, ⟨0⟩, []⟩, ⟨⟨0⟩, ⟨1⟩, []⟩, ⟨⟨0⟩, ⟨2⟩, [.category ⟨0⟩]⟩,
      ⟨⟨0⟩, ⟨3⟩, [.category ⟨0⟩, .category ⟨0⟩]⟩, ⟨⟨0⟩, ⟨4⟩, [.category ⟨0⟩, .category ⟨0⟩]⟩]
  start := ⟨0⟩
  wellFormed := (Draft.fault?_eq_none _ _).mp (by decide)

def shoutedTable : Table where
  operators :=
    #[("x", .parameter), ("9223372036854775807", .literal 9223372036854775807), ("NEGATE", .negate),
      ("Plus", .calculate .add), ("tImeS", .calculate .mul)]
  predicates := #[false]

theorem ofGrammar_shouted : Table.ofGrammar shoutedGrammar = .ok shoutedTable := by
  rw [Table.ofGrammar_eq_ok_iff]
  decide +kernel

/-- The sum wraps, and the product wraps again: the integer has 39 digits, the word has one. -/
theorem product_wraps :
    let tree := Tree.node ⟨4⟩ [.node ⟨3⟩ [.leaf ⟨1⟩, .leaf ⟨0⟩], .node ⟨2⟩ [.leaf ⟨0⟩]]
    let expression := Expression.calculation .product
      (.calculation .sum (.number 9223372036854775807) (.parameter "x"))
      (.negation (.parameter "x"))
    Table.ofGrammar shoutedGrammar = .ok shoutedTable ∧ Writes shoutedGrammar tree expression ∧
    expression.value (fun _ => Int64.maxValue.toInt) = -170141183460469231694793815568465002498 ∧
    shoutedTable.semantics.evaluate tree (.ofList [("x", Int64.maxValue)]) = .ok (-2) := by
  intro tree expression
  have sum : Writes shoutedGrammar (.node ⟨3⟩ [.leaf ⟨1⟩, .leaf ⟨0⟩])
      (.calculation .sum (.number 9223372036854775807) (.parameter "x")) := by
    apply Writes.calculation ⟨3⟩ "Plus" .sum _ _ _ _ rfl (by decide +kernel)
    · exact .number ⟨1⟩ "9223372036854775807" _ rfl (by decide +kernel) (by decide)
    · exact .parameter ⟨0⟩ "x" rfl (by decide +kernel)
  have opposite : Writes shoutedGrammar (.node ⟨2⟩ [.leaf ⟨0⟩]) (.negation (.parameter "x")) := by
    apply Writes.negation ⟨2⟩ "NEGATE" _ _ rfl (by decide +kernel)
    exact .parameter ⟨0⟩ "x" rfl (by decide +kernel)
  have written : Writes shoutedGrammar tree expression :=
    .calculation ⟨4⟩ "tImeS" .product _ _ _ _ rfl (by decide +kernel) sum opposite
  have bound : ∀ name ∈ expression.parameters,
      (Environment.ofList [("x", Int64.maxValue)]).get? name = some Int64.maxValue := by
    decide
  obtain ⟨output, evaluated, unique⟩ := Table.wraps_value ofGrammar_shouted tree expression written
    _ (fun _ => Int64.maxValue) bound
  have same : -2 = output := (unique (-2)).mp (by decide)
  exact ⟨ofGrammar_shouted, written, by decide, same ▸ evaluated⟩

end ByExample.Arithmetic
