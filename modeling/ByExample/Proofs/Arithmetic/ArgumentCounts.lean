import ByExample.Proofs.Arithmetic.FailureText
import ByExample.Proofs.Arithmetic.Origins

/-!
Programs that fail for their shape. Making a table of a grammar checks that every production gives
its operator as many arguments as it takes, so that no program has a node with another number of
them. Only a literal argument, which stands for a leaf whatever its name means, is not looked at
(`misplaced_literal_overlooked`); and a program fails for its shape exactly where the evaluation
comes to such a literal (`misshapen_iff`).
-/

namespace ByExample

variable {grammar : Grammar}

theorem Grammar.Generates.part {category : Category} {tree part : Tree} {path : Path}
    (generated : grammar.Generates category tree) (found : tree.get? path = some part) :
    (∃ inner, grammar.Generates inner part) ∨
      ∃ production ∈ grammar.productions, ∃ literal,
        .terminal literal ∈ production.arguments ∧ part = .leaf literal := by
  induction path generalizing category tree with
  | nil => exact Or.inl ⟨category, Option.some.inj found ▸ generated⟩
  | cons position path ih =>
    obtain ⟨production, member, children, _, rfl, supplied⟩ := generated.exists_production
    obtain ⟨child, there, below⟩ := (Tree.get?_node_cons_eq_some_iff ..).mp found
    obtain ⟨argument, given, supplies⟩ := exists_getElem?_of_forall₂ supplied position child there
    cases argument with
    | category argument => exact ih supplies below
    | terminal literal =>
      have leaf : child = .leaf literal := supplies
      subst leaf
      cases path with
      | nil =>
        exact Or.inr ⟨production, member, literal, List.mem_of_getElem? given,
          (Option.some.inj below).symm⟩
      | cons next path => simp [Tree.get?, Tree.children, Tree.leaf] at below

namespace Arithmetic

theorem Operator.Raises.of_structural {operator : Operator} {name : String}
    {environment : Environment} {results : List Evaluated} {failure : Failure}
    (raises : operator.Raises name environment results failure) (structural : failure.Structural) :
    results.length ≠ operator.arity ∧ failure = .argumentCount name results.length := by
  cases raises with
  | argumentCount operator results misfit => exact ⟨misfit, rfl⟩
  | unbound free => cases structural
  | kind operator results position value failure looks found wrong =>
    rcases Operator.complaint?_eq_some wrong with rfl | rfl
    · cases structural
    · cases structural
  | undefined operation left right failure undefined =>
    rcases ((operation.apply_eq_error_iff left right failure).mp undefined).2 with
      ⟨_, rfl⟩ | ⟨_, rfl⟩
    · cases structural
    · cases structural

namespace Table

/-- A literal argument with the name of an operator that takes arguments. -/
def Misplaced (grammar : Grammar) (literal : Terminal) : Prop :=
  (∃ production ∈ grammar.productions, .terminal literal ∈ production.arguments) ∧
    (Operator.ofName (grammar.textOf (.terminal literal))).arity ≠ 0

variable {table : Table} {environment : Environment} {tree : Tree} {failure : Failure}

theorem FailsAt.exists_misplaced (made : ofGrammar grammar = .ok table) {category : Category}
    {path : Path} {part : Tree} (generated : grammar.Generates category tree)
    (found : tree.get? path = some part) (fails : table.FailsAt environment part failure)
    (structural : failure.Structural) :
    ∃ literal, part = .leaf literal ∧ Misplaced grammar literal ∧
      failure = .argumentCount (grammar.textOf (.terminal literal)) 0 := by
  rcases generated.part found with ⟨inner, program⟩ | ⟨production, member, literal, given, rfl⟩
  · obtain ⟨production, member, children, _, rfl, supplied⟩ := program.exists_production
    have entry := operators_of_ofGrammar made production member
    cases fails with
    | notInTable _ _ unknown => cases entry.symm.trans unknown
    | raised _ _ name operator _ known raises =>
      cases entry.symm.trans known
      have fitting : children.length = (operatorOf grammar production).arity :=
        supplied.length_eq.trans
          (((ofGrammar_eq_ok_iff grammar table).mp made).1 production member)
      have misfit := (raises.of_structural structural).1
      rw [values_eq_map, List.length_map] at misfit
      exact absurd fitting misfit
  · have entry :=
      operators_of_issued made literal (grammar.argument_issued production member _ given)
    cases fails with
    | notInTable _ _ unknown => cases entry.symm.trans unknown
    | raised _ _ name operator _ known raises =>
      cases entry.symm.trans known
      obtain ⟨misfit, rfl⟩ := raises.of_structural structural
      exact ⟨literal, rfl, ⟨⟨production, member, given⟩, misfit.symm⟩, rfl⟩

theorem Misplaced.value_eq (made : ofGrammar grammar = .ok table) {literal : Terminal}
    (misplaced : Misplaced grammar literal) :
    table.value environment (.leaf literal) =
      .error (.argumentCount (grammar.textOf (.terminal literal)) 0) := by
  obtain ⟨⟨production, member, given⟩, takes⟩ := misplaced
  have entry :=
    operators_of_issued made literal (grammar.argument_issued production member _ given)
  simp only [Tree.leaf, value, entry, values]
  exact Operator.combine_of_length_ne _ _ environment [] takes.symm

/-- The evaluation of the program comes to a misplaced literal, which the failure blames. -/
def MeetsMisplaced (grammar : Grammar) (table : Table) (environment : Environment) (tree : Tree)
    (failure : Failure) : Prop :=
  ∃ path literal, table.Visits environment path tree (.leaf literal) ∧ Misplaced grammar literal ∧
    failure = .argumentCount (grammar.textOf (.terminal literal)) 0

theorem value_eq_error_iff_misplaced (made : ofGrammar grammar = .ok table) {category : Category}
    (generated : grammar.Generates category tree) (structural : failure.Structural) :
    table.value environment tree = .error failure ↔
      MeetsMisplaced grammar table environment tree failure := by
  constructor
  · intro failed
    obtain ⟨path, part, visits, fails⟩ := value_eq_error_iff.mp failed
    obtain ⟨literal, rfl, misplaced, same⟩ :=
      fails.exists_misplaced made generated visits.get?_eq structural
    exact ⟨path, literal, visits, misplaced, same⟩
  · rintro ⟨path, literal, visits, misplaced, rfl⟩
    exact visits.value_eq (misplaced.value_eq made)

/-- A program never fails for a hole or for an operator that the table does not know. It fails for
the number of an operator's arguments exactly if its evaluation comes to a literal argument named
like an operator that takes some: this one has none. -/
theorem misshapen_iff (made : ofGrammar grammar = .ok table) (category : Category) (tree : Tree)
    (generated : grammar.Generates category tree) (environment : Environment) (failure : Failure)
    (structural : failure.Structural) :
    (table.semantics.evaluate tree environment = .error failure.toEvalError ↔
      MeetsMisplaced grammar table environment tree failure) ∧
    (table.semantics.evaluatePredicate tree environment = .error failure.toEvalError ↔
      MeetsMisplaced grammar table environment tree failure) := by
  have tell : (∃ other, table.value environment tree = .error other ∧
      other.toEvalError = failure.toEvalError) ↔ table.value environment tree = .error failure := by
    constructor
    · rintro ⟨other, failed, same⟩
      rwa [structural.eq_of_toEvalError_eq same] at failed
    · exact fun failed => ⟨failure, failed, rfl⟩
  rw [← value_eq_error_iff_misplaced made generated structural, ← tell]
  apply table.eq_error_iff_of_ne
  · intro same
    cases structural.eq_of_toEvalError_eq same
    cases structural
  · intro same
    cases structural.eq_of_toEvalError_eq same
    cases structural

end Table

def scalingGrammar : Grammar where
  terminals := .ofList ["x", "Multiply", "Neg", "Ite", "Lt", "0"]
  categories := .ofList ["E", "B"]
  productions :=
    [⟨⟨0⟩, ⟨0⟩, []⟩, ⟨⟨0⟩, ⟨1⟩, [.category ⟨0⟩, .terminal ⟨2⟩]⟩,
      ⟨⟨0⟩, ⟨3⟩, [.category ⟨1⟩, .category ⟨0⟩, .category ⟨0⟩]⟩,
      ⟨⟨1⟩, ⟨4⟩, [.category ⟨0⟩, .terminal ⟨5⟩]⟩]
  start := ⟨0⟩
  wellFormed := (Draft.fault?_eq_none _ _).mp (by decide)

def scalingTable : Table where
  operators :=
    #[("x", .parameter), ("Multiply", .calculate .mul), ("Neg", .negate), ("Ite", .choose),
      ("Lt", .compare .less), ("0", .literal 0)]
  predicates := #[false, true]

theorem ofGrammar_scaling : Table.ofGrammar scalingGrammar = .ok scalingTable := by
  rw [Table.ofGrammar_eq_ok_iff]
  decide +kernel

def scaling : Tree :=
  .node ⟨3⟩ [.node ⟨4⟩ [.leaf ⟨0⟩, .leaf ⟨5⟩], .node ⟨1⟩ [.leaf ⟨0⟩, .leaf ⟨2⟩], .leaf ⟨0⟩]

theorem scaling_meets_literal :
    Table.ofGrammar scalingGrammar = .ok scalingTable ∧ scalingGrammar.Generates ⟨0⟩ scaling ∧
    (Failure.argumentCount "Neg" 0).Structural ∧
    scalingTable.semantics.evaluate scaling (.ofList [("x", -3)]) =
      .error (Failure.argumentCount "Neg" 0).toEvalError ∧
    scalingTable.semantics.evaluate scaling (.ofList [("x", 3)]) = .ok 3 := by
  have generated : scalingGrammar.Generates ⟨0⟩ scaling := ⟨⟨by decide, by decide⟩, by decide⟩
  have structural : (Failure.argumentCount "Neg" 0).Structural := .argumentCount "Neg" 0
  have failed := (Table.misshapen_iff ofGrammar_scaling ⟨0⟩ scaling generated
    (.ofList [("x", -3)]) _ structural).1
  have misplaced : Table.Misplaced scalingGrammar ⟨2⟩ := by
    refine ⟨⟨⟨⟨0⟩, ⟨1⟩, [.category ⟨0⟩, .terminal ⟨2⟩]⟩, by decide, by decide⟩, ?_⟩
    decide +kernel
  have visits : scalingTable.Visits (.ofList [("x", -3)]) [1, 1] scaling (.leaf ⟨2⟩) := by
    -- The input is less than zero, and it is a number.
    apply Table.Visits.child ⟨3⟩ _ "Ite" .choose 1 _ _ _ rfl (.next (.bool true) _ 1 rfl rfl) rfl
    apply Table.Visits.child ⟨1⟩ _ "Multiply" (.calculate .mul) 1 _ _ _ rfl
      (.next (.int (-3)) _ 1 rfl rfl) rfl
    exact .here _
  exact ⟨ofGrammar_scaling, generated, structural,
    failed.mpr ⟨[1, 1], ⟨2⟩, visits, misplaced, rfl⟩, rfl⟩

/-- A program whose evaluation fails for the number of an operator's arguments, although its grammar
has a table. -/
theorem misplaced_literal_overlooked :
    let program := Tree.node ⟨1⟩ [.leaf ⟨0⟩, .leaf ⟨2⟩]
    Table.ofGrammar scalingGrammar = .ok scalingTable ∧
    program.isComplete = true ∧ scalingGrammar.wellTyped program = true ∧
    scalingGrammar.typeOf program = .ok scalingGrammar.start ∧
    scalingTable.semantics.evaluate program (.ofList [("x", 3)]) =
      .error (.fault "`Neg` cannot be applied to 0 arguments") :=
  ⟨ofGrammar_scaling, rfl, rfl, rfl, rfl⟩

end Arithmetic

end ByExample
