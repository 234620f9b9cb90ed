import ByExample.Arithmetic.Evaluation
import ByExample.Proofs.Language
import Mathlib.Data.List.Basic

/-!
The table made from a grammar holds the names of its terminals, each with the operator that the name
is read as (`operators_eq_some_iff`), so that it knows the operator of every production; and it knows
the predicate categories. A program of such a category never has an integer for a value
(`exists_truth_of_generates`).
-/

namespace ByExample.Arithmetic

theorem bind_eq_ok_iff {α β ε : Type} (result : Except ε α) (carry : α → Except ε β) (value : β) :
    (result >>= carry) = .ok value ↔ ∃ inner, result = .ok inner ∧ carry inner = .ok value := by
  cases result <;> simp [bind, Except.bind]

theorem Operator.exists_truth_of_isBoolean (operator : Operator)
    (boolean : operator.isBoolean = true) (name : String) (environment : Environment)
    (results : List Evaluated) (value : Value)
    (made : operator.combine name environment results = .ok value) :
    ∃ truth, value = .bool truth := by
  by_cases fitting : results.length = operator.arity
  · cases operator with
    | truth constant =>
      cases List.length_eq_zero_iff.mp fitting
      exact ⟨constant, (Except.ok.inj made).symm⟩
    | not =>
      obtain ⟨argument, rfl⟩ := List.length_eq_one_iff.mp fitting
      simp only [combine, ofOne, bind_eq_ok_iff] at made
      obtain ⟨_, _, truth, _, same⟩ := made
      exact ⟨!truth, (Except.ok.inj same).symm⟩
    | compare comparison =>
      obtain ⟨left, right, rfl⟩ := List.length_eq_two.mp fitting
      simp only [combine, ofTwo, bind_eq_ok_iff] at made
      obtain ⟨_, _, first, _, _, _, second, _, same⟩ := made
      exact ⟨comparison.holds first second, (Except.ok.inj same).symm⟩
    | connect connective =>
      obtain ⟨left, right, rfl⟩ := List.length_eq_two.mp fitting
      simp only [combine, ofTwo, bind_eq_ok_iff] at made
      obtain ⟨_, _, first, _, rest⟩ := made
      split at rest
      · exact ⟨first, (Except.ok.inj rest).symm⟩
      · simp only [bind_eq_ok_iff] at rest
        obtain ⟨_, _, second, _, same⟩ := rest
        exact ⟨second, (Except.ok.inj same).symm⟩
    | literal _ | parameter | negate | calculate _ | choose => cases boolean
  · rw [operator.combine_of_length_ne name environment results fitting] at made
    cases made

namespace Table

variable {grammar : Grammar} {table : Table}

theorem mismatch?_eq_none (grammar : Grammar) (production : Production) :
    mismatch? grammar production = none ↔
      production.arity = (operatorOf grammar production).arity := by
  simp only [mismatch?]
  split
  · simp_all
  · split <;> simp_all

theorem ofGrammar_eq_ok_iff (grammar : Grammar) (table : Table) :
    ofGrammar grammar = .ok table ↔
      (∀ production ∈ grammar.productions,
        production.arity = (operatorOf grammar production).arity) ∧
      table.operators = (grammar.terminals.names.map fun name => (name, .ofName name)).toArray ∧
      table.predicates = (grammar.allCategories.map (isPredicate grammar)).toArray := by
  have fitting : grammar.allProductions.findSome? (mismatch? grammar) = none ↔
      ∀ production ∈ grammar.productions,
        production.arity = (operatorOf grammar production).arity := by
    simp only [List.findSome?_eq_none_iff, mismatch?_eq_none, Draft.mem_allProductions]
    constructor
    · intro listed production member
      exact listed production ⟨member, grammar.category_issued production member⟩
    · intro all production listed
      exact all production listed.1
  rw [← fitting]
  obtain ⟨operators, predicates⟩ := table
  cases found : grammar.allProductions.findSome? (mismatch? grammar) <;>
    simp [ofGrammar, found, eq_comm]

theorem operators_eq_some_iff (made : ofGrammar grammar = .ok table) (index : Nat) (name : String)
    (operator : Operator) :
    table.operators[index]? = some (name, operator) ↔
      grammar.terminals.name? index = some name ∧ operator = .ofName name := by
  obtain ⟨_, operators, _⟩ := (ofGrammar_eq_ok_iff grammar table).mp made
  rw [operators, List.getElem?_toArray, List.getElem?_map, Option.map_eq_some_iff]
  constructor
  · rintro ⟨entered, found, same⟩
    cases same
    exact ⟨found, rfl⟩
  · rintro ⟨found, rfl⟩
    exact ⟨name, found, rfl⟩

theorem operators_of_issued (made : ofGrammar grammar = .ok table) (operator : Terminal)
    (issued : grammar.Issued (.terminal operator)) :
    table.operators[operator.index]? =
      some (grammar.textOf (.terminal operator), .ofName (grammar.textOf (.terminal operator))) := by
  have below : operator.index < grammar.terminals.names.length := issued
  exact (operators_eq_some_iff made _ _ _).mpr
    ⟨by simp [Draft.textOf, Draft.nameOf, NameTable.name?, below], rfl⟩

theorem operators_of_ofGrammar (made : ofGrammar grammar = .ok table) (production : Production)
    (member : production ∈ grammar.productions) :
    table.operators[production.operator.index]? =
      some (grammar.textOf (.terminal production.operator), operatorOf grammar production) :=
  operators_of_issued made production.operator (grammar.operator_issued production member)

theorem isPredicate_of_ofGrammar (made : ofGrammar grammar = .ok table) (category : Category)
    (issued : grammar.Issued (.category category)) :
    table.semantics.isPredicate category = isPredicate grammar category := by
  have below : category.index < grammar.categories.size := issued
  obtain ⟨_, _, predicates⟩ := (ofGrammar_eq_ok_iff grammar table).mp made
  simp [semantics, predicates, Draft.allCategories, below]

theorem isBoolean_of_isPredicate (made : ofGrammar grammar = .ok table) (production : Production)
    (member : production ∈ grammar.productions)
    (predicate : table.semantics.isPredicate production.category = true) :
    (operatorOf grammar production).isBoolean = true := by
  rw [isPredicate_of_ofGrammar made _ (grammar.category_issued production member), isPredicate,
    List.all_eq_true] at predicate
  exact predicate production (by simp [Draft.ofCategory, member])

theorem exists_truth_of_generates (made : ofGrammar grammar = .ok table) (category : Category)
    (predicate : table.semantics.isPredicate category = true) (tree : Tree)
    (generated : grammar.Generates category tree) (environment : Environment) (value : Value)
    (evaluated : table.value environment tree = .ok value) : ∃ truth, value = .bool truth := by
  obtain ⟨production, member, children, rfl, rfl, _⟩ := generated.exists_production
  have boolean := isBoolean_of_isPredicate made production member predicate
  rw [Table.value, operators_of_ofGrammar made production member] at evaluated
  exact Operator.exists_truth_of_isBoolean _ boolean _ environment _ value evaluated

theorem evaluate_eq_ok_iff (table : Table) (tree : Tree) (environment : Environment)
    (output : Int64) :
    table.semantics.evaluate tree environment = .ok output ↔
      table.value environment tree = .ok (.int output) := by
  simp only [semantics, evaluate]
  rcases table.value environment tree with _ | _ | _ <;>
    simp [bind, Except.bind, Value.toInt, Except.mapError]

theorem evaluate_eq_error_iff (table : Table) (tree : Tree) (environment : Environment)
    (error : EvalError) :
    table.semantics.evaluate tree environment = .error error ↔
      (∃ failure, table.value environment tree = .error failure ∧ failure.toEvalError = error) ∨
      ∃ truth, table.value environment tree = .ok (.bool truth) ∧
        Failure.integerProgramExpected.toEvalError = error := by
  simp only [semantics, evaluate]
  rcases table.value environment tree with _ | _ | _ <;>
    simp [bind, Except.bind, Value.toInt, Except.mapError]

theorem evaluatePredicate_eq_error_iff (table : Table) (tree : Tree) (environment : Environment)
    (error : EvalError) :
    table.semantics.evaluatePredicate tree environment = .error error ↔
      (∃ failure, table.value environment tree = .error failure ∧ failure.toEvalError = error) ∨
      ∃ number, table.value environment tree = .ok (.int number) ∧
        Failure.predicateExpected.toEvalError = error := by
  simp only [semantics, evaluatePredicate]
  rcases table.value environment tree with _ | _ | _ <;>
    simp [bind, Except.bind, Value.toBool, Except.mapError]

theorem eq_error_iff_of_ne (table : Table) (tree : Tree) (environment : Environment)
    (error : EvalError) (integer : Failure.integerProgramExpected.toEvalError ≠ error)
    (predicate : Failure.predicateExpected.toEvalError ≠ error) :
    (table.semantics.evaluate tree environment = .error error ↔
      ∃ failure, table.value environment tree = .error failure ∧ failure.toEvalError = error) ∧
    (table.semantics.evaluatePredicate tree environment = .error error ↔
      ∃ failure, table.value environment tree = .error failure ∧ failure.toEvalError = error) := by
  simp [evaluate_eq_error_iff, evaluatePredicate_eq_error_iff, integer, predicate]

end Table

end ByExample.Arithmetic
