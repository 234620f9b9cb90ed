import ByExample.Proofs.Arithmetic.Pruning
import ByExample.Proofs.Resemblance

/-!
Which bindings of an environment matter. The parameters of a grammar are the names of its terminals
that are neither numbers nor words of the language (`IsParameter`). Environments give every tree the
same value or the same failure exactly if they agree on them, so that examples that differ in other
bindings make no search go another way (`Table.only_parameters_matter`).
-/

namespace ByExample.Arithmetic

namespace Operator

def words : List String :=
  ["true", "false", "neg", "negate", "not", "add", "plus", "sub", "minus", "mul", "multiply",
    "times", "div", "mod", "lt", "gt", "eq", "and", "or", "ite"]

theorem ofWord_eq_parameter_iff (word : String) : ofWord word = .parameter ↔ word ∉ words := by
  unfold ofWord
  split <;> simp_all [words]

def IsNumber (name : String) : Prop :=
  ∃ value, Decimal.integer? name.toList = some value ∧
    Int64.minValue.toInt ≤ value ∧ value ≤ Int64.maxValue.toInt

theorem literal?_eq_none_iff (name : String) : literal? name = none ↔ ¬IsNumber name := by
  simp [literal?, IsNumber, Decimal.word?]

theorem ofName_eq_parameter_iff (name : String) :
    ofName name = .parameter ↔ ¬IsNumber name ∧ name.map Char.toLower ∉ words := by
  rw [← literal?_eq_none_iff, ← ofWord_eq_parameter_iff, ofName]
  cases literal? name <;> simp

end Operator

/-- A terminal's name that is no number and, in whatever letter case, no word. -/
structure IsParameter (grammar : Grammar) (name : String) : Prop where
  named : name ∈ grammar.terminals.names
  no_number : ¬Operator.IsNumber name
  no_word : name.map Char.toLower ∉ Operator.words

/-- Every parameter of the grammar is bound to the same value in both, or in neither. -/
def AgreeOn (grammar : Grammar) (left right : Environment) : Prop :=
  ∀ name, IsParameter grammar name → left.get? name = right.get? name

theorem Operator.combine_of_get? (operator : Operator) (name : String) {left right : Environment}
    (bound : operator = .parameter → left.get? name = right.get? name)
    (results : List Evaluated) :
    operator.combine name left results = operator.combine name right results := by
  cases operator with
  | parameter => rw [combine, combine, bound rfl]
  | _ => rfl

namespace Table

variable {grammar : Grammar} {table : Table}

variable {left right : Environment} (made : ofGrammar grammar = .ok table)

include made

theorem value_of_agreeOn (agree : AgreeOn grammar left right) (tree : Tree) :
    table.value left tree = table.value right tree := by
  induction tree using Tree.induction with
  | hole category => rw [value, value]
  | node operator children ih =>
    rw [value, value, values_eq_map, values_eq_map, List.map_congr_left ih]
    cases known : table.operators[operator.index]? with
    | none => rfl
    | some entry =>
      obtain ⟨named, meaning⟩ := (operators_eq_some_iff made _ _ _).mp known
      apply Operator.combine_of_get?
      intro free
      obtain ⟨number, word⟩ :=
        (Operator.ofName_eq_parameter_iff entry.1).mp (meaning.symm.trans free)
      exact agree entry.1 ⟨List.mem_of_getElem? named, number, word⟩

theorem exists_value_of_isParameter {name : String} (parameter : IsParameter grammar name) :
    ∃ operator, ∀ environment, table.value environment (.leaf operator) =
      match environment.get? name with
      | some value => .ok (.int value)
      | none => .error (.unbound name) := by
  obtain ⟨index, named⟩ := List.getElem?_of_mem parameter.named
  have free : Operator.ofName name = .parameter :=
    (Operator.ofName_eq_parameter_iff name).mpr ⟨parameter.no_number, parameter.no_word⟩
  have known := (operators_eq_some_iff made index name _).mpr ⟨named, rfl⟩
  refine ⟨⟨index⟩, fun environment => ?_⟩
  rw [Tree.leaf, value, known, free]
  rfl

theorem agreeOn_of_evaluate (same : ∀ tree,
    table.semantics.evaluate tree left = table.semantics.evaluate tree right) :
    AgreeOn grammar left right := by
  intro name parameter
  obtain ⟨operator, shown⟩ := exists_value_of_isParameter made parameter
  have told := same (.leaf operator)
  simp only [semantics, evaluate, shown] at told
  cases onLeft : left.get? name <;> cases onRight : right.get? name <;>
    simp_all [bind, Except.bind, Except.mapError, Value.toInt]

theorem resembles_of_agreeOn {examples others : List (Example Environment Int64)}
    (alike : List.Forall₂ (fun given also =>
      Example.output given = Example.output also ∧ AgreeOn grammar given.input also.input)
      examples others) :
    (table.context grammar examples).Resembles (table.context grammar others) where
  grammar := rfl
  isPredicate := rfl
  examples := by
    refine alike.imp fun given also ⟨outputs, agree⟩ => ⟨outputs.symm, ?_, ?_⟩
    · intro tree
      simp only [context, semantics, evaluate, value_of_agreeOn made agree]
    · intro tree
      simp only [context, semantics, evaluatePredicate, value_of_agreeOn made agree]

/-- Environments that agree on the parameters of the grammar, and no others, make no difference to
either evaluation of any tree, down to the text of a failure. So two lists of examples with the same
outputs and with inputs that agree pair by pair make no difference to a search: from every state it
takes the same steps with the same reports, its runs go the same way on whatever clock, and
`synthesize` returns the same. -/
theorem only_parameters_matter :
    (∀ left right, AgreeOn grammar left right ↔ ∀ tree,
      table.semantics.evaluate tree left = table.semantics.evaluate tree right ∧
      table.semantics.evaluatePredicate tree left =
        table.semantics.evaluatePredicate tree right) ∧
    ∀ examples others, List.Forall₂ (fun given also =>
        Example.output given = Example.output also ∧ AgreeOn grammar given.input also.input)
        examples others →
      let ctx := table.context grammar examples
      let other := table.context grammar others
      (∀ (search : Search Int64) steps,
        ((Search.advance other)^[steps] search).step other =
          ((Search.advance ctx)^[steps] search).step ctx) ∧
      (∀ (search : Search Int64) limits elapsed,
        search.turn other limits elapsed = search.turn ctx limits elapsed) ∧
      (∀ (search : Search Int64) limits turns,
        search.run other limits turns = search.run ctx limits turns) ∧
      ∀ strategy limits turns,
        synthesize other strategy limits turns = synthesize ctx strategy limits turns := by
  constructor
  · intro left right
    constructor
    · intro agree tree
      have same := value_of_agreeOn made agree tree
      simp only [semantics, evaluate, evaluatePredicate, same, and_self]
    · exact fun same => agreeOn_of_evaluate made fun tree => (same tree).1
  · intro examples others alike ctx other
    have resembles : ctx.Resembles other := resembles_of_agreeOn made alike
    refine ⟨?_, ?_, ?_, resembles.synthesize⟩
    · intro search steps
      rw [resembles.iterate, resembles.step]
    · exact fun search limits elapsed => resembles.turn limits elapsed search
    · exact fun search limits turns => resembles.run limits turns search

end Table

theorem other_bindings_ignored :
    let plain := Environment.ofList [("x", 3)]
    let stuffed := Environment.ofList [("1", 7), ("add", 8), ("x", 3), ("y", 9)]
    Table.ofGrammar sumGrammar = .ok sumTable ∧ AgreeOn sumGrammar plain stuffed ∧
    sumTable.semantics.evaluate (.node ⟨2⟩ [.leaf ⟨0⟩, .leaf ⟨1⟩]) stuffed = .ok 4 ∧
    ∀ strategy limits turns,
      synthesize (sumTable.context sumGrammar [⟨stuffed, 4⟩]) strategy limits turns =
        synthesize (sumTable.context sumGrammar [⟨plain, 4⟩]) strategy limits turns := by
  intro plain stuffed
  have made : Table.ofGrammar sumGrammar = .ok sumTable := by
    rw [Table.ofGrammar_eq_ok_iff]
    decide +kernel
  have agree : AgreeOn sumGrammar plain stuffed := by
    rintro name ⟨named, number, word⟩
    have known : name = "x" ∨ name = "1" ∨ name = "add" := by
      simpa [sumGrammar] using named
    rcases known with rfl | rfl | rfl
    · decide
    · exact absurd ⟨1, by decide, by decide, by decide⟩ number
    · exact absurd (by decide +kernel) word
  obtain ⟨evaluations, searches⟩ := Table.only_parameters_matter made
  obtain ⟨_, _, _, results⟩ := searches [⟨plain, 4⟩] [⟨stuffed, 4⟩] (.cons ⟨rfl, agree⟩ .nil)
  refine ⟨made, agree, ?_, results⟩
  rw [← ((evaluations plain stuffed).mp agree _).1]
  rfl

end ByExample.Arithmetic
