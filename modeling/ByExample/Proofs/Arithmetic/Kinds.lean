import ByExample.Proofs.Arithmetic.Pruning
import ByExample.Proofs.Faults

/-!
Type soundness of arithmetic. Where every production gives its operator arguments of the right kinds
(`Kinded`), a program has a value of the kind of its category, unless a division rejects it
(`Kinded.safe_value`). So no search ends with an error (`kinded_never_fails`).
-/

namespace ByExample.Arithmetic

inductive Kind where
  | integer
  | boolean
  deriving DecidableEq

def Value.kind : Value → Kind
  | .int _ => .integer
  | .bool _ => .boolean

namespace Operator

def argumentKinds : Operator → List Kind
  | .literal _ | .truth _ | .parameter => []
  | .negate => [.integer]
  | .not => [.boolean]
  | .calculate _ | .compare _ => [.integer, .integer]
  | .connect _ => [.boolean, .boolean]
  | .choose => [.boolean, .integer, .integer]

def kind (operator : Operator) : Kind :=
  if operator.isBoolean then .boolean else .integer

def literalKind? : Operator → Option Kind
  | .literal _ | .parameter => some .integer
  | .truth _ => some .boolean
  | .negate | .not | .calculate _ | .compare _ | .connect _ | .choose => none

end Operator

/-- There is a result and it has the property, or the tree is rejected. -/
inductive Safe {α : Type} (holds : α → Prop) : Except Failure α → Prop where
  | ok (value : α) (held : holds value) : Safe holds (.ok value)
  | rejected (failure : Failure) (reason : String)
      (same : failure.toEvalError = .rejected reason) : Safe holds (.error failure)

section

variable {α β : Type} {holds : α → Prop} {after : β → Prop}

theorem Safe.bind {result : Except Failure α} (safe : Safe holds result)
    (carry : α → Except Failure β) (next : ∀ value, holds value → Safe after (carry value)) :
    Safe after (result >>= carry) := by
  cases safe with
  | ok value held => exact next value held
  | rejected failure reason same => exact .rejected failure reason same

theorem Safe.ending_ne_fault {result : Except Failure α} (safe : Safe holds result) :
    ending result ≠ .fault := by
  cases safe with
  | ok value _ => nofun
  | rejected failure reason same => simp [ending, Except.mapError, same]

def HasKind (kind : Kind) (result : Evaluated) : Prop :=
  Safe (fun value => value.kind = kind) result

theorem safe_toInt (value : Value) (integer : value.kind = .integer) (failure : Failure) :
    Safe (fun _ => True) (value.toInt failure) := by
  cases value with
  | int value => exact .ok value trivial
  | bool value => cases integer

theorem safe_toBool (value : Value) (boolean : value.kind = .boolean) (failure : Failure) :
    Safe (fun _ => True) (value.toBool failure) := by
  cases value with
  | int value => cases boolean
  | bool value => exact .ok value trivial

theorem HasKind.toInt {result : Evaluated} (integer : HasKind .integer result) (failure : Failure)
    (carry : Int64 → Except Failure β) (next : ∀ value, Safe after (carry value)) :
    Safe after (result >>= fun value => value.toInt failure >>= carry) :=
  integer.bind _ fun value kind =>
    (safe_toInt value kind failure).bind carry fun value _ => next value

theorem HasKind.toBool {result : Evaluated} (boolean : HasKind .boolean result) (failure : Failure)
    (carry : Bool → Except Failure β) (next : ∀ value, Safe after (carry value)) :
    Safe after (result >>= fun value => value.toBool failure >>= carry) :=
  boolean.bind _ fun value kind =>
    (safe_toBool value kind failure).bind carry fun value _ => next value

end

theorem IntOperation.safe_apply (operation : IntOperation) (left right : Int64) :
    Safe (fun _ => True) (operation.apply left right) := by
  cases operation with
  | add | sub | mul => exact .ok _ trivial
  | div =>
    rw [apply]
    split
    · exact .ok _ trivial
    · exact .rejected _ _ rfl
  | mod =>
    rw [apply]
    split
    · exact .ok _ trivial
    · exact .rejected _ _ rfl

theorem Operator.hasKind_combine (operator : Operator) (name : String) (environment : Environment)
    (bound : operator = .parameter → ∃ value, environment.get? name = some value)
    (results : List Evaluated)
    (fitting : List.Forall₂ (fun result kind => HasKind kind result) results
      operator.argumentKinds) :
    HasKind operator.kind (operator.combine name environment results) := by
  cases operator with
  | literal value | truth value =>
    cases fitting
    exact .ok _ rfl
  | parameter =>
    cases fitting
    obtain ⟨value, found⟩ := bound rfl
    simp only [combine, ofNone, found]
    exact .ok _ rfl
  | negate =>
    obtain _ | ⟨argument, _ | _⟩ := fitting
    exact argument.toInt _ _ fun value => .ok _ rfl
  | not =>
    obtain _ | ⟨argument, _ | _⟩ := fitting
    exact argument.toBool _ _ fun value => .ok _ rfl
  | calculate operation =>
    obtain _ | ⟨left, _ | ⟨right, _ | _⟩⟩ := fitting
    refine left.toInt _ _ fun first => right.toInt _ _ fun second => ?_
    exact (operation.safe_apply first second).bind _ fun value _ => .ok _ rfl
  | compare comparison =>
    obtain _ | ⟨left, _ | ⟨right, _ | _⟩⟩ := fitting
    exact left.toInt _ _ fun first => right.toInt _ _ fun second => .ok _ rfl
  | connect connective =>
    obtain _ | ⟨left, _ | ⟨right, _ | _⟩⟩ := fitting
    refine left.toBool _ _ fun first => ?_
    split
    · exact .ok _ rfl
    · exact right.toBool _ _ fun second => .ok _ rfl
  | choose =>
    obtain _ | ⟨condition, _ | ⟨positive, _ | ⟨negative, _ | _⟩⟩⟩ := fitting
    refine condition.toBool _ _ fun decided => ?_
    split
    · exact positive
    · exact negative

theorem Operator.literalKind?_eq_some (operator : Operator) (kind : Kind)
    (literal : operator.literalKind? = some kind) :
    operator.argumentKinds = [] ∧ operator.kind = kind := by
  cases operator <;> simp_all [literalKind?, argumentKinds, Operator.kind, isBoolean]

namespace Table

def kindOf (table : Table) (category : Category) : Kind :=
  if table.semantics.isPredicate category then .boolean else .integer

def argumentKind? (table : Table) (grammar : Grammar) : Symbol → Option Kind
  | .category category => some (table.kindOf category)
  | .terminal operator =>
    (Operator.ofName (grammar.textOf (.terminal operator))).literalKind?

/-- Operators are given arguments of the right kinds, nothing in an integer category makes truth
values, and the programs asked for are integers. -/
structure Kinded (table : Table) (grammar : Grammar) : Prop where
  arguments : ∀ production ∈ grammar.productions,
    production.arguments.map (table.argumentKind? grammar) =
      (operatorOf grammar production).argumentKinds.map some
  integers : ∀ production ∈ grammar.productions, table.kindOf production.category = .integer →
    (operatorOf grammar production).isBoolean = false
  start : table.kindOf grammar.start = .integer

/-- Every parameter that the grammar has a name for is bound. -/
def Binds (grammar : Grammar) (environment : Environment) : Prop :=
  ∀ operator, grammar.Issued (.terminal operator) →
    Operator.ofName (grammar.textOf (.terminal operator)) = .parameter →
    ∃ value, environment.get? (grammar.textOf (.terminal operator)) = some value

variable {table : Table} {grammar : Grammar} {environment : Environment}

theorem kindOf_eq_integer_iff (category : Category) :
    table.kindOf category = .integer ↔ table.semantics.isPredicate category = false := by
  cases kind : table.semantics.isPredicate category <;> simp [kindOf, kind]

theorem kindOf_eq_boolean_iff (category : Category) :
    table.kindOf category = .boolean ↔ table.semantics.isPredicate category = true := by
  cases kind : table.semantics.isPredicate category <;> simp [kindOf, kind]

theorem Kinded.kind_operatorOf (kinded : table.Kinded grammar)
    (made : ofGrammar grammar = .ok table) (production : Production)
    (member : production ∈ grammar.productions) :
    (operatorOf grammar production).kind = table.kindOf production.category := by
  cases kind : table.kindOf production.category with
  | integer => simp [Operator.kind, kinded.integers production member kind]
  | boolean =>
    have predicate := (kindOf_eq_boolean_iff production.category).mp kind
    simp [Operator.kind, isBoolean_of_isPredicate made production member predicate]

theorem hasKind_leaf (made : ofGrammar grammar = .ok table) (bound : Binds grammar environment)
    (operator : Terminal) (issued : grammar.Issued (.terminal operator)) (kind : Kind)
    (literal : table.argumentKind? grammar (.terminal operator) = some kind) :
    HasKind kind (table.value environment (.leaf operator)) := by
  obtain ⟨bare, rfl⟩ := Operator.literalKind?_eq_some _ kind literal
  rw [Tree.leaf, value, operators_of_issued made operator issued]
  apply Operator.hasKind_combine _ _ environment (bound operator issued)
  rw [bare]
  exact .nil

theorem Kinded.hasKind_value (kinded : table.Kinded grammar) (made : ofGrammar grammar = .ok table)
    (bound : Binds grammar environment) (category : Category) (tree : Tree)
    (generated : grammar.Generates category tree) :
    HasKind (table.kindOf category) (table.value environment tree) := by
  induction tree using Tree.induction generalizing category with
  | hole other => cases generated.complete
  | node operator children ih =>
    obtain ⟨production, member, _, rfl, ⟨⟩, supplied⟩ := generated.exists_production
    have expected := kinded.arguments production member
    have fitting : List.Forall₂ (fun result kind? => ∃ kind, kind? = some kind ∧ HasKind kind result)
        (children.map (table.value environment))
        (production.arguments.map (table.argumentKind? grammar)) := by
      rw [List.forall₂_map_left_iff, List.forall₂_map_right_iff]
      refine forall₂_imp_of_mem supplied fun child among argument given supplies => ?_
      cases argument with
      | category argument => exact ⟨_, rfl, ih child among argument supplies⟩
      | terminal literal =>
        -- The production asks for some kind, so the literal has one.
        obtain ⟨kind, _, same⟩ :=
          List.mem_map.mp (expected ▸ List.mem_map_of_mem (f := table.argumentKind? grammar) given)
        have leaf : child = .leaf literal := supplies
        rw [leaf]
        exact ⟨kind, same.symm, hasKind_leaf made bound literal
          (grammar.argument_issued production member _ given) kind same.symm⟩
    rw [Table.value, operators_of_ofGrammar made production member, values_eq_map,
      ← kinded.kind_operatorOf made production member]
    apply Operator.hasKind_combine
    · exact bound production.operator (grammar.operator_issued production member)
    · rw [expected, List.forall₂_map_right_iff] at fitting
      refine fitting.imp fun result kind typed => ?_
      obtain ⟨_, ⟨⟩, kinded⟩ := typed
      exact kinded

theorem Kinded.evaluate_ne_fault (kinded : table.Kinded grammar)
    (made : ofGrammar grammar = .ok table) (bound : Binds grammar environment)
    (category : Category) (tree : Tree) (generated : grammar.Generates category tree)
    (primary : table.semantics.isPredicate category = false) :
    Ending.ofResult (table.semantics.evaluate tree environment) ≠ .fault := by
  have typed := kinded.hasKind_value made bound category tree generated
  rw [(kindOf_eq_integer_iff category).mpr primary] at typed
  have safe : Safe (fun _ => True) (table.evaluate tree environment) :=
    typed.bind _ fun value kind => safe_toInt value kind _
  exact safe.ending_ne_fault

theorem Kinded.evaluatePredicate_ne_fault (kinded : table.Kinded grammar)
    (made : ofGrammar grammar = .ok table) (bound : Binds grammar environment)
    (category : Category) (tree : Tree) (generated : grammar.Generates category tree)
    (predicate : table.semantics.isPredicate category = true) :
    Ending.ofResult (table.semantics.evaluatePredicate tree environment) ≠ .fault := by
  have typed := kinded.hasKind_value made bound category tree generated
  rw [(kindOf_eq_boolean_iff category).mpr predicate] at typed
  have safe : Safe (fun _ => True) (table.evaluatePredicate tree environment) :=
    typed.bind _ fun value kind => safe_toBool value kind _
  exact safe.ending_ne_fault

theorem Kinded.not_faults (kinded : table.Kinded grammar) (made : ofGrammar grammar = .ok table)
    (examples : List (Example Environment Int64))
    (bound : ∀ given ∈ examples, Binds grammar given.input) (error : SearchError) :
    ¬(table.context grammar examples).Faults error := by
  intro faults
  cases faults with
  | @primary category tree given reason generated member kind fault =>
    have primary : table.semantics.isPredicate category = false := by
      rcases kind with primary | rfl
      · exact primary
      · exact (kindOf_eq_integer_iff grammar.start).mp kinded.start
    apply kinded.evaluate_ne_fault made (bound given member) category tree generated primary
    exact congrArg Ending.ofResult fault
  | @predicate category tree given reason generated member kind fault =>
    apply kinded.evaluatePredicate_ne_fault made (bound given member) category tree generated kind
    exact congrArg Ending.ofResult fault

/-- On a language of operators with arguments of the right kinds, every program has a value of its
category's kind or is rejected, on each example that binds the parameters, and no search for a
program ever fails. -/
theorem kinded_never_fails (made : ofGrammar grammar = .ok table) (kinded : table.Kinded grammar)
    (examples : List (Example Environment Int64))
    (bound : ∀ given ∈ examples, Binds grammar given.input) :
    let ctx := table.context grammar examples
    (∀ category tree, grammar.wellTyped tree = true → tree.isComplete = true →
      grammar.typeOf tree = .ok category → ∀ given ∈ examples,
        (table.semantics.isPredicate category = false →
          Ending.ofResult (table.semantics.evaluate tree given.input) ≠ .fault) ∧
        (table.semantics.isPredicate category = true →
          Ending.ofResult (table.semantics.evaluatePredicate tree given.input) ≠ .fault)) ∧
    ∀ strategy limits steps,
      let search : Search Int64 :=
        (Search.advance ctx)^[steps] (Search.start grammar strategy limits)
      ∀ error, (search.step ctx).1 ≠ .error error ∧
        (∀ others elapsed, (search.turn ctx others elapsed).1 ≠ some (.error error)) ∧
        ∀ others turns, (search.run ctx others turns).1 ≠ some (.error error) := by
  intro ctx
  have faultless : ∀ error, ¬ctx.Faults error := kinded.not_faults made examples bound
  constructor
  · intro category tree wellTyped complete typed given member
    have generated : grammar.Generates category tree := ⟨⟨wellTyped, typed⟩, complete⟩
    exact ⟨kinded.evaluate_ne_fault made (bound given member) category tree generated,
      kinded.evaluatePredicate_ne_fault made (bound given member) category tree generated⟩
  · intro strategy limits steps search error
    have sound : search.progress.Sound ctx strategy limits.maxSize :=
      Search.sound_iterate steps _ (Search.sound_start ctx strategy limits)
    refine ⟨fun failed => ?_, fun others elapsed failed => ?_, fun others turns failed => ?_⟩
    · exact faultless error (Search.faults_of_step search sound error failed)
    · exact faultless error (Search.faults_of_turn search sound others elapsed error failed)
    · exact faultless error (Search.faults_of_run search sound others turns error failed)

end Table

def choiceGrammar : Grammar where
  terminals := .ofList ["x", "Neg", "Ite", "Lt", "0"]
  categories := .ofList ["E", "B"]
  productions :=
    [⟨⟨0⟩, ⟨0⟩, []⟩, ⟨⟨0⟩, ⟨1⟩, [.category ⟨0⟩]⟩,
      ⟨⟨0⟩, ⟨2⟩, [.category ⟨1⟩, .category ⟨0⟩, .category ⟨0⟩]⟩,
      ⟨⟨1⟩, ⟨3⟩, [.category ⟨0⟩, .terminal ⟨4⟩]⟩]
  start := ⟨0⟩
  wellFormed := (Draft.fault?_eq_none _ _).mp (by decide)

def choiceTable : Table where
  operators :=
    #[("x", .parameter), ("Neg", .negate), ("Ite", .choose), ("Lt", .compare .less),
      ("0", .literal 0)]
  predicates := #[false, true]

theorem choices_never_fail :
    Table.ofGrammar choiceGrammar = .ok choiceTable ∧ choiceTable.Kinded choiceGrammar ∧
    Table.Binds choiceGrammar (.ofList [("x", -3)]) ∧
    let ctx := choiceTable.context choiceGrammar [⟨.ofList [("x", -3)], 3⟩]
    ∀ steps error,
      (((Search.advance ctx)^[steps] (Search.start choiceGrammar .bottomUp { })).step ctx).1 ≠
        .error error := by
  have made : Table.ofGrammar choiceGrammar = .ok choiceTable := by
    rw [Table.ofGrammar_eq_ok_iff]
    decide +kernel
  have kinded : choiceTable.Kinded choiceGrammar :=
    ⟨by decide +kernel, by decide +kernel, by decide +kernel⟩
  have bound : Table.Binds choiceGrammar (.ofList [("x", -3)]) := by
    have alone : ∀ operator ∈ choiceGrammar.allTerminals,
        Operator.ofName (choiceGrammar.textOf (.terminal operator)) = .parameter →
          operator = ⟨0⟩ := by
      decide +kernel
    intro operator issued parameter
    have listed : operator ∈ choiceGrammar.allTerminals :=
      List.mem_map.mpr ⟨operator.index, List.mem_range.mpr issued, rfl⟩
    rw [alone operator listed parameter]
    exact ⟨-3, by decide +kernel⟩
  refine ⟨made, kinded, bound, ?_⟩
  intro ctx steps error
  obtain ⟨_, searches⟩ := Table.kinded_never_fails made kinded [⟨.ofList [("x", -3)], 3⟩]
    (by simpa using bound)
  exact (searches .bottomUp { } steps error).1

end ByExample.Arithmetic
