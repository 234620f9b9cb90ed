import ByExample.Proofs.Arithmetic.Laziness

/-!
Where the failure of an evaluation comes from. An operator fails by the failure of an argument that
it looks at, or by itself (`Operator.Raises`), and there is no other way
(`exists_of_combine_eq_error`). So a tree fails exactly as some part of it fails at its root that
the evaluation comes to (`value_eq_error_iff`).
-/

namespace ByExample.Arithmetic

theorem IntOperation.apply_eq_error_iff (operation : IntOperation) (left right : Int64)
    (failure : Failure) :
    operation.apply left right = .error failure ↔ ¬HasQuotient left right ∧
      (operation = .div ∧ failure = .divisionByZero ∨
        operation = .mod ∧ failure = .remainderByZero) := by
  by_cases defined : HasQuotient left right <;> cases operation <;> simp [apply, defined, eq_comm]

namespace Operator

def complaint? (name : String) (position : Nat) : Operator → Value → Option Failure
  | .negate, .bool _ => some (.integerExpected name position)
  | .calculate _, .bool _ => some (.integerExpected name position)
  | .compare _, .bool _ => some (.integerExpected name position)
  | .not, .int _ => some (.booleanExpected name position)
  | .connect _, .int _ => some (.booleanExpected name position)
  -- Whatever kind of value the chosen branch has is the kind of the whole.
  | .choose, .int _ => if position = 0 then some (.booleanExpected name position) else none
  | _, _ => none

/-- The operator fails by itself, and not by the failure of an argument. -/
inductive Raises (name : String) (environment : Environment) :
    Operator → List Evaluated → Failure → Prop where
  | argumentCount (operator : Operator) (results : List Evaluated)
      (misfit : results.length ≠ operator.arity) :
      Raises name environment operator results (.argumentCount name results.length)
  | unbound (free : environment.get? name = none) :
      Raises name environment .parameter [] (.unbound name)
  | kind (operator : Operator) (results : List Evaluated) (position : Nat) (value : Value)
      (failure : Failure) (looks : operator.LooksAt results position)
      (found : results[position]? = some (.ok value))
      (wrong : operator.complaint? name position value = some failure) :
      Raises name environment operator results failure
  | undefined (operation : IntOperation) (left right : Int64) (failure : Failure)
      (undefined : operation.apply left right = .error failure) :
      Raises name environment (.calculate operation) [.ok (.int left), .ok (.int right)] failure

theorem complaint?_eq_some {operator : Operator} {name : String} {position : Nat} {value : Value}
    {failure : Failure} (wrong : operator.complaint? name position value = some failure) :
    failure = .integerExpected name position ∨ failure = .booleanExpected name position := by
  cases operator <;> cases value <;> simp_all [complaint?, eq_comm]

section

variable {α : Type} {result : Evaluated} {mistake failure : Failure}

theorem bind_toInt_eq_error (carry : Int64 → Except Failure α)
    (failed : (result >>= fun value => value.toInt mistake >>= carry) = .error failure) :
    result = .error failure ∨ (∃ truth, result = .ok (.bool truth) ∧ mistake = failure) ∨
      ∃ number, result = .ok (.int number) ∧ carry number = .error failure := by
  rcases result with inner | number | truth
  · cases failed
    exact Or.inl rfl
  · exact Or.inr (Or.inr ⟨number, rfl, failed⟩)
  · exact Or.inr (Or.inl ⟨truth, rfl, Except.error.inj failed⟩)

theorem bind_toBool_eq_error (carry : Bool → Except Failure α)
    (failed : (result >>= fun value => value.toBool mistake >>= carry) = .error failure) :
    result = .error failure ∨ (∃ number, result = .ok (.int number) ∧ mistake = failure) ∨
      ∃ truth, result = .ok (.bool truth) ∧ carry truth = .error failure := by
  rcases result with inner | number | truth
  · cases failed
    exact Or.inl rfl
  · exact Or.inr (Or.inl ⟨number, rfl, Except.error.inj failed⟩)
  · exact Or.inr (Or.inr ⟨truth, rfl, failed⟩)

end

variable {operator : Operator} {name : String} {environment : Environment}
  {results : List Evaluated} {failure : Failure}

theorem Raises.combine_eq (raises : operator.Raises name environment results failure) :
    operator.combine name environment results = .error failure := by
  cases raises with
  | argumentCount operator results misfit =>
    exact operator.combine_of_length_ne name environment results misfit
  | unbound free => simp [combine, ofNone, free]
  | undefined operation left right failure undefined =>
    simp [combine, ofTwo, bind, Except.bind, Value.toInt, undefined]
  | kind operator results position value failure looks found wrong =>
    cases operator with
    | literal _ | truth _ | parameter => cases wrong
    | negate =>
      obtain ⟨argument, rfl⟩ := List.length_eq_one_iff.mp looks.fitting
      rcases value with number | truth
      · cases wrong
      · cases wrong
        rcases looks with _ | ⟨_, _, _, _, ⟨⟩⟩
        cases found
        rfl
    | not =>
      obtain ⟨argument, rfl⟩ := List.length_eq_one_iff.mp looks.fitting
      rcases value with number | truth
      · cases wrong
        rcases looks with _ | ⟨_, _, _, _, ⟨⟩⟩
        cases found
        rfl
      · cases wrong
    | calculate _ | compare _ =>
      obtain ⟨left, right, rfl⟩ := List.length_eq_two.mp looks.fitting
      rcases value with number | truth
      · cases wrong
      · cases wrong
        rcases looks with _ | ⟨first | first, _, _, _, ⟨⟩⟩
        · cases found
          rfl
        · cases found
          rfl
    | connect connective =>
      obtain ⟨left, right, rfl⟩ := List.length_eq_two.mp looks.fitting
      rcases value with number | truth
      · cases wrong
        rcases looks with _ | ⟨first | first, _, _, _, further⟩
        · cases found
          rfl
        · cases further
        · obtain ⟨undecided, same⟩ := Option.ite_none_left_eq_some.mp further
          cases same
          cases found
          simp [combine, ofTwo, bind, Except.bind, Value.toBool, undecided]
      · cases wrong
    | choose =>
      obtain ⟨condition, positive, negative, rfl⟩ := List.length_eq_three.mp looks.fitting
      rcases value with number | truth
      · obtain ⟨rfl, same⟩ := Option.ite_none_right_eq_some.mp wrong
        cases same
        rcases looks with _ | ⟨first | _ | _, _, _, _, ⟨⟩⟩
        cases found
        rfl
      · cases wrong

theorem exists_of_integers_eq_error (operator : Operator) {left right : Evaluated}
    (carry : Int64 → Int64 → Evaluated) (two : operator.arity = 2)
    (integers : ∀ position truth, operator.complaint? name position (.bool truth) =
      some (.integerExpected name position))
    (further : ∀ number, operator.next? (.int number) = some 1)
    (failed : (do
      let first ← (← left).toInt (.integerExpected name 0)
      let second ← (← right).toInt (.integerExpected name 1)
      carry first second) = .error failure) :
    (∃ position, operator.LooksAt [left, right] position ∧
        [left, right][position]? = some (.error failure)) ∨
      operator.Raises name environment [left, right] failure ∨
      ∃ first second, left = .ok (.int first) ∧ right = .ok (.int second) ∧
        carry first second = .error failure := by
  rcases bind_toInt_eq_error _ failed with rfl | ⟨truth, rfl, rfl⟩ | ⟨first, rfl, rest⟩
  · exact Or.inl ⟨0, .first _ _ two.symm, rfl⟩
  · exact Or.inr (Or.inl (.kind _ _ 0 _ _ (.first _ _ two.symm) rfl (integers 0 truth)))
  have looks : operator.LooksAt [.ok (.int first), right] 1 :=
    .next _ _ 1 two.symm (further first)
  rcases bind_toInt_eq_error _ rest with rfl | ⟨truth, rfl, rfl⟩ | ⟨second, rfl, last⟩
  · exact Or.inl ⟨1, looks, rfl⟩
  · exact Or.inr (Or.inl (.kind _ _ 1 _ _ looks rfl (integers 1 truth)))
  · exact Or.inr (Or.inr ⟨first, second, rfl, rfl, last⟩)

theorem exists_of_combine_eq_error
    (failed : operator.combine name environment results = .error failure) :
    (∃ position, operator.LooksAt results position ∧
        results[position]? = some (.error failure)) ∨
      operator.Raises name environment results failure := by
  by_cases fitting : results.length = operator.arity
  · cases operator with
    | literal _ | truth _ =>
      cases List.length_eq_zero_iff.mp fitting
      cases failed
    | parameter =>
      cases List.length_eq_zero_iff.mp fitting
      cases bound : environment.get? name with
      | some value => simp [combine, ofNone, bound] at failed
      | none =>
        simp only [combine, ofNone, bound, Except.error.injEq] at failed
        exact Or.inr (failed ▸ .unbound bound)
    | negate =>
      obtain ⟨argument, rfl⟩ := List.length_eq_one_iff.mp fitting
      rcases bind_toInt_eq_error _ failed with rfl | ⟨truth, rfl, rfl⟩ | ⟨number, rfl, ⟨⟩⟩
      · exact Or.inl ⟨0, .first _ _ rfl, rfl⟩
      · exact Or.inr (.kind _ _ 0 _ _ (.first _ _ rfl) rfl rfl)
    | not =>
      obtain ⟨argument, rfl⟩ := List.length_eq_one_iff.mp fitting
      rcases bind_toBool_eq_error _ failed with rfl | ⟨number, rfl, rfl⟩ | ⟨truth, rfl, ⟨⟩⟩
      · exact Or.inl ⟨0, .first _ _ rfl, rfl⟩
      · exact Or.inr (.kind _ _ 0 _ _ (.first _ _ rfl) rfl rfl)
    | calculate operation =>
      obtain ⟨left, right, rfl⟩ := List.length_eq_two.mp fitting
      rcases exists_of_integers_eq_error (.calculate operation) _ rfl (fun _ _ => rfl)
        (fun _ => rfl) failed with argument | raises | ⟨first, second, rfl, rfl, last⟩
      · exact Or.inl argument
      · exact Or.inr raises
      cases applied : operation.apply first second with
      | ok value =>
        rw [applied] at last
        cases last
      | error inner =>
        rw [applied] at last
        cases last
        exact Or.inr (.undefined operation first second _ applied)
    | compare comparison =>
      obtain ⟨left, right, rfl⟩ := List.length_eq_two.mp fitting
      rcases exists_of_integers_eq_error (.compare comparison) _ rfl (fun _ _ => rfl)
        (fun _ => rfl) failed with argument | raises | ⟨first, second, _, _, ⟨⟩⟩
      · exact Or.inl argument
      · exact Or.inr raises
    | connect connective =>
      obtain ⟨left, right, rfl⟩ := List.length_eq_two.mp fitting
      rcases bind_toBool_eq_error _ failed with rfl | ⟨number, rfl, rfl⟩ | ⟨first, rfl, rest⟩
      · exact Or.inl ⟨0, .first _ _ rfl, rfl⟩
      · exact Or.inr (.kind _ _ 0 _ _ (.first _ _ rfl) rfl rfl)
      split at rest
      · cases rest
      rename_i undecided
      have looks : (Operator.connect connective).LooksAt [.ok (.bool first), right] 1 :=
        .next _ _ 1 rfl (if_neg undecided)
      rcases bind_toBool_eq_error _ rest with rfl | ⟨number, rfl, rfl⟩ | ⟨second, rfl, ⟨⟩⟩
      · exact Or.inl ⟨1, looks, rfl⟩
      · exact Or.inr (.kind _ _ 1 _ _ looks rfl rfl)
    | choose =>
      obtain ⟨condition, positive, negative, rfl⟩ := List.length_eq_three.mp fitting
      rcases bind_toBool_eq_error _ failed with rfl | ⟨number, rfl, rfl⟩ | ⟨_ | _, rfl, rfl⟩
      · exact Or.inl ⟨0, .first _ _ rfl, rfl⟩
      · exact Or.inr (.kind _ _ 0 _ _ (.first _ _ rfl) rfl rfl)
      · exact Or.inl ⟨2, .next _ _ 2 rfl rfl, rfl⟩
      · exact Or.inl ⟨1, .next _ _ 1 rfl rfl, rfl⟩
  · rw [operator.combine_of_length_ne name environment results fitting] at failed
    cases failed
    exact Or.inr (.argumentCount operator results fitting)

end Operator

namespace Table

/-- The evaluation of the tree evaluates this part of it, which is at the path. -/
inductive Visits (table : Table) (environment : Environment) : Path → Tree → Tree → Prop where
  | here (tree : Tree) : Visits table environment [] tree tree
  | child (terminal : Terminal) (children : List Tree) (name : String) (operator : Operator)
      (position : Nat) (path : Path) (child part : Tree)
      (known : table.operators[terminal.index]? = some (name, operator))
      (looks : operator.LooksAt (table.values environment children) position)
      (found : children[position]? = some child)
      (below : Visits table environment path child part) :
      Visits table environment (position :: path) (.node terminal children) part

/-- The evaluation fails at the root of the tree, and not by the failure of a child. -/
inductive FailsAt (table : Table) (environment : Environment) : Tree → Failure → Prop where
  | incomplete (category : Category) : FailsAt table environment (.hole category) .incomplete
  | notInTable (terminal : Terminal) (children : List Tree)
      (unknown : table.operators[terminal.index]? = none) :
      FailsAt table environment (.node terminal children) (.notInTable terminal)
  | raised (terminal : Terminal) (children : List Tree) (name : String) (operator : Operator)
      (failure : Failure) (known : table.operators[terminal.index]? = some (name, operator))
      (raises : operator.Raises name environment (table.values environment children) failure) :
      FailsAt table environment (.node terminal children) failure

variable {table : Table} {environment : Environment} {path : Path} {tree part : Tree}
  {failure : Failure}

theorem Visits.get?_eq (visits : table.Visits environment path tree part) :
    tree.get? path = some part := by
  induction visits with
  | here tree => rfl
  | child terminal children name operator position path child part known looks found below ih =>
    simp [Tree.get?, Tree.children, found, ih]

theorem Visits.value_eq (visits : table.Visits environment path tree part)
    (failed : table.value environment part = .error failure) :
    table.value environment tree = .error failure := by
  induction visits with
  | here tree => exact failed
  | child terminal children name operator position path child part known looks found below ih =>
    simp only [value, known]
    apply Operator.combine_of_looksAt looks
    simp [values_eq_map, found, ih failed]

theorem FailsAt.value_eq (fails : table.FailsAt environment part failure) :
    table.value environment part = .error failure := by
  cases fails with
  | incomplete category => rfl
  | notInTable terminal children unknown => simp only [value, unknown]
  | raised terminal children name operator failure known raises =>
    simp only [value, known, raises.combine_eq]

theorem exists_of_value_eq_error (failed : table.value environment tree = .error failure) :
    ∃ path part, table.Visits environment path tree part ∧
      table.FailsAt environment part failure := by
  induction tree using Tree.induction with
  | hole category =>
    cases failed
    exact ⟨[], _, .here _, .incomplete category⟩
  | node terminal children ih =>
    rw [value] at failed
    cases known : table.operators[terminal.index]? with
    | none =>
      rw [known] at failed
      cases failed
      exact ⟨[], _, .here _, .notInTable terminal children known⟩
    | some entry =>
      obtain ⟨name, operator⟩ := entry
      simp only [known] at failed
      rcases Operator.exists_of_combine_eq_error failed with ⟨position, looks, found⟩ | raises
      · rw [values_eq_map, List.getElem?_map, Option.map_eq_some_iff] at found
        obtain ⟨child, there, childFailed⟩ := found
        obtain ⟨path, part, visits, fails⟩ :=
          ih child (List.mem_of_getElem? there) childFailed
        exact ⟨position :: path, part,
          .child terminal children name operator position path child part known looks there visits,
          fails⟩
      · exact ⟨[], _, .here _, .raised terminal children name operator failure known raises⟩

theorem value_eq_error_iff :
    table.value environment tree = .error failure ↔
      ∃ path part, table.Visits environment path tree part ∧
        table.FailsAt environment part failure := by
  constructor
  · exact exists_of_value_eq_error
  · rintro ⟨path, part, visits, fails⟩
    exact visits.value_eq fails.value_eq

end Table

end ByExample.Arithmetic
