import ByExample.Problem.Format
import ByExample.Proofs.Json.Reading
import ByExample.Proofs.Language

/-!
Problem files. What is written of a problem is read back as the problem, whatever its names and
numbers are, and it does not matter whether rules without arguments leave the arguments out
(`written_is_read`). So writing a problem that has been read gives a file of the same problem.
-/

namespace ByExample

namespace Arithmetic.Environment

theorem setBinding_of_last (name : String) (value : Int64) (bindings : List (String × Int64))
    (last : ∀ binding ∈ bindings, binding.1 < name) :
    setBinding name value bindings = bindings ++ [(name, value)] := by
  induction bindings with
  | nil => rfl
  | cons first rest ih =>
    obtain ⟨before, others⟩ := List.forall_mem_cons.mp last
    simp only [setBinding, String.lt_asymm before, before, ↓reduceIte, ih others, List.cons_append]

theorem eq_of_bindings {left right : Environment} (same : left.bindings = right.bindings) :
    left = right := by
  cases left
  cases right
  cases same
  rfl

theorem ofList_bindings (environment : Environment) :
    ofList environment.bindings = environment := by
  have bound (rest : List (String × Int64)) (before : Environment)
      (sorted : (before.bindings ++ rest).Pairwise (·.1 < ·.1)) :
      (rest.foldl (fun environment binding => environment.insert binding.1 binding.2)
        before).bindings = before.bindings ++ rest := by
    induction rest generalizing before with
    | nil => simp
    | cons binding rest ih =>
      have last : ∀ earlier ∈ before.bindings, earlier.1 < binding.1 := fun earlier member =>
        (List.pairwise_append.mp sorted).2.2 earlier member binding List.mem_cons_self
      have inserted : (before.insert binding.1 binding.2).bindings = before.bindings ++ [binding] :=
        setBinding_of_last _ _ _ last
      rw [List.foldl_cons, ih _ (by simpa [inserted] using sorted), inserted]
      simp
  exact eq_of_bindings (bound environment.bindings empty environment.sorted)

theorem ofJson?_toJson (environment : Environment) :
    ofJson? environment.toJson = some environment := by
  simp only [ofJson?, toJson, Json.Value.members?_ofMembers, Option.bind_eq_bind, Option.bind_some]
  rw [Json.mapM_map_eq_some environment.bindings fun binding => by simp [Json.Value.word?_ofWord],
    Option.bind_some, ofList_bindings]
  rfl

theorem proper_toJson (environment : Environment) : environment.toJson.Proper := by
  apply Json.Value.proper_ofMembers
  intro written among
  obtain ⟨binding, _, rfl⟩ := List.mem_map.mp among
  exact Json.Value.proper_ofWord binding.2

end Arithmetic.Environment

namespace Rule

/-- How a rule may be written: in full, or without its arguments if it has none. -/
inductive Written : Rule → Json.Value → Prop where
  | full (rule : Rule) : Written rule rule.toJson
  | bare (category operator : String) :
      Written ⟨category, operator, []⟩
        (.ofMembers [("ret", .ofText category), ("op", .ofText operator)])

variable {rule : Rule} {value : Json.Value}

theorem Written.ofJson?_eq (written : Written rule value) : ofJson? value = some rule := by
  cases written with
  | full =>
    have arguments := Json.mapM_map_eq_some rule.arguments Json.Value.text?_ofText
    simp [ofJson?, toJson, Json.Value.fields?_ofMembers, Json.Value.uniqueMember?,
      Json.Value.text?_ofText, Json.Value.list?, arguments]
  | bare category operator =>
    simp [ofJson?, Json.Value.fields?_ofMembers, Json.Value.uniqueMember?,
      Json.Value.text?_ofText, Json.Value.list?]

theorem Written.proper (written : Written rule value) : value.Proper := by
  cases written with
  | full =>
    apply Json.Value.proper_ofMembers
    simp only [List.forall_mem_cons, Json.Value.proper_ofText, true_and]
    refine ⟨Json.Value.proper_array _ ?_, nofun⟩
    intro item member
    obtain ⟨argument, _, rfl⟩ := List.mem_map.mp member
    exact Json.Value.proper_ofText argument
  | bare category operator =>
    apply Json.Value.proper_ofMembers
    simp only [List.forall_mem_cons, Json.Value.proper_ofText, true_and]
    nofun

end Rule

namespace Problem

theorem exampleOfJson?_exampleToJson (sample : Example Arithmetic.Environment Int64) :
    exampleOfJson? (exampleToJson sample) = some sample := by
  simp [exampleOfJson?, exampleToJson, Json.Value.fields?_ofMembers, Json.Value.uniqueMember?,
    Arithmetic.Environment.ofJson?_toJson, Json.Value.word?_ofWord]

theorem proper_exampleToJson (sample : Example Arithmetic.Environment Int64) :
    (exampleToJson sample).Proper := by
  apply Json.Value.proper_ofMembers
  simp only [List.forall_mem_cons, Arithmetic.Environment.proper_toJson, Json.Value.proper_ofWord,
    true_and]
  nofun

def fileOf (problem : Problem) (rules : List Json.Value) : Json.Value :=
  .ofMembers [("start", .ofText problem.start), ("productions", .array rules),
    ("examples", .array (problem.examples.map exampleToJson))]

variable {problem : Problem} {rules : List Json.Value}

theorem ofJson?_fileOf (written : List.Forall₂ Rule.Written problem.rules rules) :
    ofJson? (problem.fileOf rules) = some problem := by
  have read : rules.mapM Rule.ofJson? = some problem.rules :=
    Json.mapM_eq_some_of_forall₂ (written.flip.imp fun _ _ => Rule.Written.ofJson?_eq)
  have examples := Json.mapM_map_eq_some problem.examples exampleOfJson?_exampleToJson
  simp [ofJson?, fileOf, Json.Value.fields?_ofMembers, Json.Value.uniqueMember?,
    Json.Value.text?_ofText, Json.Value.list?, read, examples]

theorem proper_fileOf (written : List.Forall₂ Rule.Written problem.rules rules) :
    (problem.fileOf rules).Proper := by
  apply Json.Value.proper_ofMembers
  simp only [List.forall_mem_cons, Json.Value.proper_ofText, true_and]
  refine ⟨Json.Value.proper_array _ ?_, Json.Value.proper_array _ ?_, nofun⟩
  · intro value member
    obtain ⟨rule, _, spelled⟩ := exists_of_forall₂_of_mem written.flip value member
    exact spelled.proper
  · intro value member
    obtain ⟨sample, _, rfl⟩ := List.mem_map.mp member
    exact proper_exampleToJson sample

theorem read?_fileOf (written : List.Forall₂ Rule.Written problem.rules rules) :
    read? (problem.fileOf rules).write = some problem := by
  rw [read?, Json.Value.read?_write _ (proper_fileOf written), Option.bind_some,
    ofJson?_fileOf written]

/-- A problem is read back from its file, also if some of its rules without arguments leave the
arguments out. So if a problem has been read from a file, writing and reading it once more gives the
same problem with the same grammar. -/
theorem written_is_read (problem : Problem) :
    read? problem.write = some problem ∧
    (∀ rules, List.Forall₂ Rule.Written problem.rules rules →
      read? (problem.fileOf rules).write = some problem) ∧
    ∀ bytes, read? bytes = some problem →
      ∃ again, read? problem.write = some again ∧ again = problem ∧
        again.grammar = problem.grammar := by
  have whole : read? problem.write = some problem := by
    apply read?_fileOf
    rw [List.forall₂_map_right_iff, List.forall₂_same]
    exact fun rule _ => .full rule
  exact ⟨whole, fun _ => read?_fileOf, fun _ _ => ⟨problem, whole, rfl, rfl⟩⟩

/-- Names that need escapes or are empty, the least and the greatest integer, and the first rule
without its arguments. -/
theorem escapes_read :
    let problem : Problem :=
      { start := ""
        rules := [⟨"", "\t\"é\\", []⟩, ⟨"", "Add", ["", "\n"]⟩]
        examples := [⟨.ofList [("x", -9223372036854775808), ("", 0)], 9223372036854775807⟩] }
    let rules : List Json.Value :=
      [.ofMembers [("ret", .ofText ""), ("op", .ofText "\t\"é\\")],
        Rule.toJson ⟨"", "Add", ["", "\n"]⟩]
    List.Forall₂ Rule.Written problem.rules rules ∧
    read? (problem.fileOf rules).write = some problem ∧
    ∃ again, read? problem.write = some again ∧ again = problem ∧
      again.grammar = problem.grammar := by
  intro problem rules
  have written : List.Forall₂ Rule.Written problem.rules rules :=
    .cons (.bare _ _) (.cons (.full _) .nil)
  obtain ⟨_, spelled, again⟩ := written_is_read problem
  have read := spelled rules written
  exact ⟨written, read, again _ read⟩

end Problem

end ByExample
