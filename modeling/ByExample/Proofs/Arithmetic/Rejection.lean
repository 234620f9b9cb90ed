import ByExample.Proofs.Arithmetic.Origins

/-!
What rejects a program: a quotient or a remainder that the evaluation comes to and that it takes to
be undefined (`rejected_iff`). That is one by zero, but also one of the least integer by minus one,
where the divisor is not zero (`least_by_minus_one_rejected`).
-/

namespace ByExample.Arithmetic

theorem not_hasQuotient_iff (left right : Int64) :
    ¬HasQuotient left right ↔ right = 0 ∨ left = Int64.minValue ∧ right = -1 := by
  rw [HasQuotient, Decidable.not_and_iff_not_or_not, Decidable.not_not, Decidable.not_not]

namespace Table

inductive Calculates (table : Table) (environment : Environment) :
    IntOperation → Int64 → Int64 → Tree → Prop where
  | node (terminal : Terminal) (name : String) (operation : IntOperation) (left right : Tree)
      (first second : Int64)
      (known : table.operators[terminal.index]? = some (name, .calculate operation))
      (leftValue : table.semantics.evaluate left environment = .ok first)
      (rightValue : table.semantics.evaluate right environment = .ok second) :
      Calculates table environment operation first second (.node terminal [left, right])

/-- The evaluation comes to a quotient or a remainder by zero, or of the least integer by minus one,
and this is the reason given for it. -/
def Rejects (table : Table) (environment : Environment) (tree : Tree) (reason : String) : Prop :=
  ∃ path part operation dividend divisor, table.Visits environment path tree part ∧
    table.Calculates environment operation dividend divisor part ∧
    (divisor = 0 ∨ dividend = Int64.minValue ∧ divisor = -1) ∧
    (operation = .div ∧ reason = "division by zero" ∨
      operation = .mod ∧ reason = "remainder by zero")

variable {table : Table} {environment : Environment} {tree part : Tree} {operation : IntOperation}
  {left right : Int64} {failure : Failure} {reason : String}

theorem Calculates.value_eq (calculates : table.Calculates environment operation left right part)
    (undefined : operation.apply left right = .error failure) :
    table.value environment part = .error failure := by
  cases calculates with
  | node terminal name _ first second _ _ known leftValue rightValue =>
    apply FailsAt.value_eq
    apply FailsAt.raised terminal _ name _ failure known
    rw [values_eq_map, List.map_cons, List.map_cons, List.map_nil,
      (table.evaluate_eq_ok_iff first environment left).mp leftValue,
      (table.evaluate_eq_ok_iff second environment right).mp rightValue]
    exact .undefined operation left right failure undefined

theorem FailsAt.exists_calculates (fails : table.FailsAt environment part failure)
    (rejected : failure.toEvalError = .rejected reason) :
    ∃ operation left right, table.Calculates environment operation left right part ∧
      operation.apply left right = .error failure := by
  cases fails with
  | incomplete category => cases rejected
  | notInTable terminal children unknown => cases rejected
  | raised terminal children name operator failure known raises =>
    generalize reached : table.values environment children = results at raises
    cases raises with
    | argumentCount operator results misfit => cases rejected
    | unbound free => cases rejected
    | kind operator results position value failure looks found wrong =>
      rcases Operator.complaint?_eq_some wrong with rfl | rfl
      · cases rejected
      · cases rejected
    | undefined operation left right failure undefined =>
      rw [values_eq_map, List.map_eq_cons_iff] at reached
      obtain ⟨first, _, rfl, leftValue, others⟩ := reached
      obtain ⟨second, _, rfl, rightValue, rest⟩ := List.map_eq_cons_iff.mp others
      cases List.map_eq_nil_iff.mp rest
      refine ⟨operation, left, right, ?_, undefined⟩
      exact .node terminal name operation first second left right known
        ((table.evaluate_eq_ok_iff first environment left).mpr leftValue)
        ((table.evaluate_eq_ok_iff second environment right).mpr rightValue)

theorem rejects_iff :
    table.Rejects environment tree reason ↔
      ∃ failure, table.value environment tree = .error failure ∧
        failure.toEvalError = .rejected reason := by
  constructor
  · rintro ⟨path, part, operation, left, right, visits, calculates, undefined, because⟩
    have none := (not_hasQuotient_iff left right).mpr undefined
    rcases because with ⟨rfl, rfl⟩ | ⟨rfl, rfl⟩
    · have failed := (IntOperation.apply_eq_error_iff .div left right .divisionByZero).mpr
        ⟨none, Or.inl ⟨rfl, rfl⟩⟩
      exact ⟨_, visits.value_eq (calculates.value_eq failed), rfl⟩
    · have failed := (IntOperation.apply_eq_error_iff .mod left right .remainderByZero).mpr
        ⟨none, Or.inr ⟨rfl, rfl⟩⟩
      exact ⟨_, visits.value_eq (calculates.value_eq failed), rfl⟩
  · rintro ⟨failure, failed, rejected⟩
    obtain ⟨path, part, visits, fails⟩ := value_eq_error_iff.mp failed
    obtain ⟨operation, left, right, calculates, undefined⟩ := fails.exists_calculates rejected
    obtain ⟨none, because⟩ := (operation.apply_eq_error_iff left right failure).mp undefined
    refine ⟨path, part, operation, left, right, visits, calculates,
      (not_hasQuotient_iff left right).mp none, ?_⟩
    rcases because with ⟨rfl, rfl⟩ | ⟨rfl, rfl⟩
    · cases rejected
      exact Or.inl ⟨rfl, rfl⟩
    · cases rejected
      exact Or.inr ⟨rfl, rfl⟩

/-- Either evaluation of a tree is rejected exactly if it comes to a quotient or a remainder by zero,
or of the least integer by minus one. The reason tells a quotient from a remainder, and it speaks of
zero whatever the divisor is. -/
theorem rejected_iff (table : Table) (environment : Environment) (tree : Tree) (reason : String) :
    (table.semantics.evaluate tree environment = .error (.rejected reason) ↔
      table.Rejects environment tree reason) ∧
    (table.semantics.evaluatePredicate tree environment = .error (.rejected reason) ↔
      table.Rejects environment tree reason) := by
  rw [rejects_iff]
  exact table.eq_error_iff_of_ne tree environment (.rejected reason) nofun nofun

end Table

def divisionGrammar : Grammar where
  terminals := .ofList ["-9223372036854775808", "-1", "Div", "Mod"]
  categories := .ofList ["E"]
  productions :=
    [⟨⟨0⟩, ⟨0⟩, []⟩, ⟨⟨0⟩, ⟨1⟩, []⟩, ⟨⟨0⟩, ⟨2⟩, [.category ⟨0⟩, .category ⟨0⟩]⟩,
      ⟨⟨0⟩, ⟨3⟩, [.category ⟨0⟩, .category ⟨0⟩]⟩]
  start := ⟨0⟩
  wellFormed := (Draft.fault?_eq_none _ _).mp (by decide)

def divisionTable : Table where
  operators :=
    #[("-9223372036854775808", .literal Int64.minValue), ("-1", .literal (-1)),
      ("Div", .calculate .div), ("Mod", .calculate .mod)]
  predicates := #[false]

/-- The quotient of the least integer by minus one is rejected as a division by zero, and so is the
remainder, although no node of either program has zero for its right argument. -/
theorem least_by_minus_one_rejected :
    let program := fun root => Tree.node root [.leaf ⟨0⟩, .leaf ⟨1⟩]
    let evaluate := fun tree => divisionTable.semantics.evaluate tree .empty
    Table.ofGrammar divisionGrammar = .ok divisionTable ∧
    (∀ root, (program root).isComplete = true) ∧
    evaluate (program ⟨2⟩) = .error (.rejected "division by zero") ∧
    evaluate (program ⟨3⟩) = .error (.rejected "remainder by zero") ∧
    ∀ root path operator left right,
      (program root).get? path = some (.node operator [left, right]) → evaluate right = .ok (-1) := by
  intro program evaluate
  have made : Table.ofGrammar divisionGrammar = .ok divisionTable := by
    rw [Table.ofGrammar_eq_ok_iff]
    decide +kernel
  refine ⟨made, fun _ => rfl, rfl, rfl, ?_⟩
  intro root path operator left right found
  -- Only the root has two children.
  rcases path with _ | ⟨_ | _ | position, _ | ⟨further, path⟩⟩
  · cases found
    rfl
  all_goals simp [program, Tree.get?, Tree.children, Tree.leaf] at found

end ByExample.Arithmetic
