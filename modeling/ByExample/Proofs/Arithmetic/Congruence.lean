import ByExample.Arithmetic.Evaluation
import ByExample.Proofs.Outcome
import ByExample.Proofs.Replacement

/-!
Observational equivalence is a congruence of arithmetic: where two trees have the same outcome, one
may stand for the other inside any tree (`outcome_replace`). The outcome of a tree is as good as the
ending of its value, and an operator passes on nothing else of its arguments.
-/

namespace ByExample.Arithmetic

variable {α β : Type}

def ending (result : Except Failure α) : Ending α :=
  .ofResult (result.mapError Failure.toEvalError)

theorem ending_bind (result : Except Failure α) (carry : α → Except Failure β) :
    ending (result >>= carry) = (ending result).bind fun value => ending (carry value) := by
  cases result with
  | ok value => rfl
  | error failure => cases failure <;> rfl

theorem ending_combine_congr (operator : Operator) (name : String) (environment : Environment)
    (results others : List Evaluated)
    (same : List.Forall₂ (fun result other => ending result = ending other) results others) :
    ending (operator.combine name environment results) =
      ending (operator.combine name environment others) := by
  -- The right number of results is needed first: with any other no result is looked at.
  by_cases fitting : others.length = operator.arity
  · cases operator with
    | literal value | truth value | parameter =>
      cases List.length_eq_zero_iff.mp fitting
      cases same
      rfl
    | negate | not =>
      obtain ⟨argument, rfl⟩ := List.length_eq_one_iff.mp fitting
      obtain _ | ⟨first, _ | _⟩ := same
      simp only [Operator.combine, Operator.ofOne, ending_bind, first]
    | calculate _ | compare _ =>
      obtain ⟨left, right, rfl⟩ := List.length_eq_two.mp fitting
      obtain _ | ⟨first, _ | ⟨second, _ | _⟩⟩ := same
      simp only [Operator.combine, Operator.ofTwo, ending_bind, first, second]
    | connect connective =>
      obtain ⟨left, right, rfl⟩ := List.length_eq_two.mp fitting
      obtain _ | ⟨first, _ | ⟨second, _ | _⟩⟩ := same
      simp only [Operator.combine, Operator.ofTwo, ending_bind, apply_ite ending, first, second]
    | choose =>
      obtain ⟨condition, positive, negative, rfl⟩ := List.length_eq_three.mp fitting
      obtain _ | ⟨first, _ | ⟨second, _ | ⟨third, _ | _⟩⟩⟩ := same
      simp only [Operator.combine, Operator.ofThree, ending_bind, apply_ite ending, first, second,
        third]
  · have misfit : results.length ≠ operator.arity := same.length_eq ▸ fitting
    rw [operator.combine_of_length_ne name environment results misfit,
      operator.combine_of_length_ne name environment others fitting]
    rfl

namespace Table

variable (table : Table) (environment : Environment)

theorem ending_value_congr (terminal : Terminal) (children others : List Tree)
    (same : List.Forall₂ (fun child other => ending (table.value environment child) =
      ending (table.value environment other)) children others) :
    ending (table.value environment (.node terminal children)) =
      ending (table.value environment (.node terminal others)) := by
  rw [value, value]
  cases table.operators[terminal.index]? with
  | none => rfl
  | some entry =>
    apply ending_combine_congr
    rwa [values_eq_map, values_eq_map, List.forall₂_map_left_iff, List.forall₂_map_right_iff]

theorem ending_value_replacement {part new tree changed : Tree} {path : Path}
    (same : ending (table.value environment part) = ending (table.value environment new))
    (replacement : Tree.Replacement part new path tree changed) :
    ending (table.value environment tree) = ending (table.value environment changed) := by
  induction replacement with
  | root => exact same
  | child operator children position path child changed found _ ih =>
    apply Eq.symm
    apply ending_value_congr
    have unchanged : List.Forall₂ (fun child other => ending (table.value environment child) =
        ending (table.value environment other)) children children :=
      List.forall₂_same.mpr fun _ _ => rfl
    apply forall₂_set unchanged position child changed found
    intro other _ equal
    exact ih.symm.trans equal

/-- The two evaluations, read off the ending of the value. -/
def views (value : Ending Value) : Ending Int64 × Ending Bool :=
  (value.bind fun value => ending (value.toInt .integerProgramExpected),
    value.bind fun value => ending (value.toBool .predicateExpected))

/-- What value the two evaluations are views of. -/
def joint : Ending Int64 × Ending Bool → Ending Value
  | (.value value, _) => .value (.int value)
  | (_, .value value) => .value (.bool value)
  | (.rejected, _) => .rejected
  | (.fault, _) => .fault

theorem joint_views (value : Ending Value) : joint (views value) = value := by
  rcases value with (_ | _) | _ | _ <;> rfl

theorem outcome_eq_views (tree : Tree) :
    table.semantics.outcome tree environment = views (ending (table.value environment tree)) :=
  Prod.ext (ending_bind (table.value environment tree) _)
    (ending_bind (table.value environment tree) _)

theorem outcome_eq_iff (left right : Tree) :
    table.semantics.outcome left environment = table.semantics.outcome right environment ↔
      ending (table.value environment left) = ending (table.value environment right) := by
  rw [outcome_eq_views, outcome_eq_views]
  exact (Function.LeftInverse.injective joint_views).eq_iff

/-- A tree keeps its outcome when a part of it is replaced by a tree of the part's outcome. -/
theorem outcome_replace (tree part new : Tree) (path : Path) (found : tree.get? path = some part)
    (same : table.semantics.outcome part environment = table.semantics.outcome new environment) :
    (tree.replace? path new).map (table.semantics.outcome · environment) =
      some (table.semantics.outcome tree environment) := by
  obtain ⟨changed, replacement⟩ := Tree.exists_replacement new found
  have kept := table.ending_value_replacement environment
    ((table.outcome_eq_iff environment part new).mp same) replacement
  rw [replacement.replace?_eq, Option.map_some,
    (table.outcome_eq_iff environment tree changed).mpr kept]

theorem outcome_replace_quotient :
    let table : Table :=
      { operators := #[("x", .parameter), ("0", .literal 0), ("div", .calculate .div),
          ("mod", .calculate .mod), ("add", .calculate .add)]
        predicates := #[false] }
    let environment := Environment.ofList [("x", 7)]
    let quotient := Tree.node ⟨2⟩ [.leaf ⟨0⟩, .leaf ⟨1⟩]
    let remainder := Tree.node ⟨3⟩ [.leaf ⟨0⟩, .leaf ⟨1⟩]
    (Tree.replace? (.node ⟨4⟩ [.leaf ⟨0⟩, quotient]) [1] remainder).map
        (table.semantics.outcome · environment) =
      some (table.semantics.outcome (.node ⟨4⟩ [.leaf ⟨0⟩, quotient]) environment) := by
  intro table environment quotient remainder
  have same : table.semantics.outcome quotient environment =
      table.semantics.outcome remainder environment := by rfl
  exact table.outcome_replace environment _ quotient remainder [1] rfl same

end Table

end ByExample.Arithmetic
