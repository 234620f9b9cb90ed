import ByExample.Proofs.Rules

/-!
What becomes of a list of rules. The rules are refused for an operator named like a category, or
else for a repeated operator, or else for a start name that heads no rule, or else for a literal
that names an operator with arguments (`Refused`); otherwise they make a grammar that says what they
say (`Grammar.Renders`).
-/

namespace ByExample

theorem exists_first {α : Type} {p : α → Prop} {xs : List α} (found : ∃ x ∈ xs, p x) :
    ∃ before x after, xs = before ++ x :: after ∧ (∀ y ∈ before, ¬p y) ∧ p x := by
  induction xs with
  | nil => simp at found
  | cons x xs ih =>
    by_cases here : p x
    · exact ⟨[], x, xs, rfl, by simp, here⟩
    · have later : ∃ y ∈ xs, p y := by simpa [here] using found
      obtain ⟨before, y, after, rfl, clear, there⟩ := ih later
      refine ⟨x :: before, y, after, rfl, ?_, there⟩
      intro z member
      rcases List.mem_cons.mp member with rfl | earlier
      · exact here
      · exact clear z earlier

namespace Rule

inductive Refused (start : String) (rules : List Rule) : GrammarError → Prop
  | kindClash (before : List Rule) (rule : Rule) (after : List Rule)
      (split : rules = before ++ rule :: after)
      (first : ∀ earlier ∈ before, ¬IsCategory start rules earlier.operator)
      (clash : IsCategory start rules rule.operator) :
      Refused start rules (.kindClash rule.operator)
  | duplicateOperator (before : List Rule) (rule : Rule) (after : List Rule)
      (apart : ∀ rule ∈ rules, ¬IsCategory start rules rule.operator)
      (split : rules = before ++ rule :: after)
      (first : (before.map Rule.operator).Nodup)
      (repeated : rule.operator ∈ before.map Rule.operator) :
      Refused start rules (.duplicateOperator rule.operator)
  | missingProductions
      (apart : ∀ rule ∈ rules, ¬IsCategory start rules rule.operator)
      (distinct : (rules.map Rule.operator).Nodup)
      (missing : ∀ rule ∈ rules, rule.category ≠ start) :
      Refused start rules (.missingProductions start)
  | literalOperator (before : List String) (name : String) (after : List String)
      (apart : ∀ rule ∈ rules, ¬IsCategory start rules rule.operator)
      (distinct : (rules.map Rule.operator).Nodup)
      (headed : ∃ rule ∈ rules, rule.category = start)
      (split : (grouped rules).flatMap Rule.arguments = before ++ name :: after)
      (first : ∀ earlier ∈ before, ¬TakesArguments rules earlier)
      (takes : TakesArguments rules name) :
      Refused start rules (.literalOperator name)

/-- Of two faults at once only the earlier kind is reported. -/
example : Refused "E" [⟨"E", "f", ["f"]⟩, ⟨"E", "f", []⟩] (.duplicateOperator "f") :=
  .duplicateOperator [⟨"E", "f", ["f"]⟩] ⟨"E", "f", []⟩ [] (by decide) rfl (by decide) (by decide)

end Rule

namespace Grammar

variable (start : String) (rules : List Rule)

theorem clash_eq_some_iff (rule : Rule) :
    rules.find? (·.operator ∈ (Rule.categoriesOf start rules).names) = some rule ↔
      ∃ before after, rules = before ++ rule :: after ∧
        (∀ earlier ∈ before, ¬Rule.IsCategory start rules earlier.operator) ∧
        Rule.IsCategory start rules rule.operator := by
  simp only [List.find?_eq_some_iff_append, Rule.mem_categoriesOf, decide_eq_true_eq,
    Bool.not_eq_true', decide_eq_false_iff_not]
  constructor
  · rintro ⟨clash, before, after, split, first⟩
    exact ⟨before, after, split, first, clash⟩
  · rintro ⟨before, after, split, first, clash⟩
    exact ⟨clash, before, after, split, first⟩

theorem clash_eq_none_iff :
    rules.find? (·.operator ∈ (Rule.categoriesOf start rules).names) = none ↔
      ∀ rule ∈ rules, ¬Rule.IsCategory start rules rule.operator := by
  simp [Rule.mem_categoriesOf]

theorem ofRules_of_apart (apart : ∀ rule ∈ rules, ¬Rule.IsCategory start rules rule.operator) :
    ofRules start rules = (Draft.ofRules start rules).build
      ⟨(Draft.ofRules start rules).categories.idxOf start⟩ := by
  simp only [ofRules, (clash_eq_none_iff start rules).mpr apart]
  rfl

theorem ofRules_eq_error_iff_of_apart
    (apart : ∀ rule ∈ rules, ¬Rule.IsCategory start rules rule.operator) (error : GrammarError) :
    ofRules start rules = .error error ↔ Rule.Refused start rules error := by
  rw [ofRules_of_apart start rules apart, Draft.build_eq_error_iff, Draft.fault?_ofRules]
  simp only [Option.or_eq_some_iff, Option.or_eq_none_iff, Draft.duplicate?_eq_some_iff,
    Draft.duplicate?_eq_none_iff, Option.ite_none_left_eq_some, Option.some.injEq,
    ite_eq_left_iff, reduceCtorEq, imp_false, not_not]
  constructor
  · rintro ((⟨before, rule, after, split, first, repeated, rfl⟩ | ⟨distinct, missing, rfl⟩) |
      ⟨⟨distinct, headed⟩, found⟩)
    · exact .duplicateOperator before rule after apart split first repeated
    · exact .missingProductions apart distinct fun rule member same =>
        missing ⟨rule, member, same⟩
    · obtain ⟨before, name, after, split, first, takes, rfl⟩ :=
        (Draft.literal_eq_some_iff start rules apart headed error).mp found
      exact .literalOperator before name after apart distinct headed split first takes
  · intro refused
    cases refused with
    | kindClash before rule after split first clash =>
      exact absurd clash (apart rule (by simp [split]))
    | duplicateOperator before rule after _ split first repeated =>
      exact Or.inl (Or.inl ⟨before, rule, after, split, first, repeated, rfl⟩)
    | missingProductions _ distinct missing =>
      exact Or.inl (Or.inr ⟨distinct, fun ⟨rule, member, same⟩ => missing rule member same, rfl⟩)
    | literalOperator before name after _ distinct headed split first takes =>
      exact Or.inr ⟨⟨distinct, headed⟩, (Draft.literal_eq_some_iff start rules apart headed _).mpr
        ⟨before, name, after, split, first, takes, rfl⟩⟩

theorem ofRules_eq_error_iff (error : GrammarError) :
    ofRules start rules = .error error ↔ Rule.Refused start rules error := by
  cases found : rules.find? (·.operator ∈ (Rule.categoriesOf start rules).names) with
  | none =>
    exact ofRules_eq_error_iff_of_apart start rules ((clash_eq_none_iff start rules).mp found) error
  | some rule =>
    obtain ⟨before, after, split, first, clash⟩ := (clash_eq_some_iff start rules rule).mp found
    have clashes : ¬∀ rule ∈ rules, ¬Rule.IsCategory start rules rule.operator :=
      fun apart => apart rule (by simp [split]) clash
    have verdict : ofRules start rules = .error (.kindClash rule.operator) := by
      simp only [ofRules, found]
    rw [verdict, Except.error.injEq]
    constructor
    · rintro rfl
      exact .kindClash before rule after split first clash
    · intro refused
      cases refused with
      | kindClash earlier other later split first clash =>
        have also := (clash_eq_some_iff start rules other).mpr ⟨earlier, later, split, first, clash⟩
        cases found.symm.trans also
        rfl
      | duplicateOperator _ _ _ apart => exact absurd apart clashes
      | missingProductions apart => exact absurd apart clashes
      | literalOperator _ _ _ apart => exact absurd apart clashes

end Grammar

namespace Rule

variable {start : String} {rules others : List Rule}

structure Accepted (start : String) (rules : List Rule) : Prop where
  operators_apart : ∀ rule ∈ rules, ¬IsCategory start rules rule.operator
  operators_distinct : (rules.map Rule.operator).Nodup
  start_headed : ∃ rule ∈ rules, rule.category = start
  literals_bare : ∀ rule ∈ rules, ∀ name ∈ rule.arguments, ¬TakesArguments rules name

theorem not_nodup_of_split {before after : List Rule} {rule : Rule}
    (split : rules = before ++ rule :: after)
    (repeated : rule.operator ∈ before.map Rule.operator) :
    ¬(rules.map Rule.operator).Nodup := by
  rw [split, List.map_append, List.nodup_append]
  rintro ⟨_, _, different⟩
  exact different _ repeated rule.operator (by simp) rfl

theorem exists_kindClash (clash : ∃ rule ∈ rules, IsCategory start rules rule.operator) :
    ∃ name, Refused start rules (.kindClash name) := by
  obtain ⟨before, rule, after, split, first, here⟩ := exists_first clash
  exact ⟨_, .kindClash before rule after split first here⟩

theorem exists_duplicateOperator (apart : ∀ rule ∈ rules, ¬IsCategory start rules rule.operator)
    (repeated : ¬(rules.map Rule.operator).Nodup) :
    ∃ name, Refused start rules (.duplicateOperator name) := by
  obtain ⟨error, found⟩ := Option.ne_none_iff_exists'.mp
    (mt (Draft.duplicate?_eq_none_iff start rules).mp repeated)
  obtain ⟨before, rule, after, split, first, here, _⟩ :=
    (Draft.duplicate?_eq_some_iff start rules error).mp found
  exact ⟨_, .duplicateOperator before rule after apart split first here⟩

theorem exists_literalOperator (apart : ∀ rule ∈ rules, ¬IsCategory start rules rule.operator)
    (distinct : (rules.map Rule.operator).Nodup)
    (headed : ∃ rule ∈ rules, rule.category = start)
    (takes : ∃ rule ∈ rules, ∃ name ∈ rule.arguments, TakesArguments rules name) :
    ∃ name, Refused start rules (.literalOperator name) := by
  obtain ⟨rule, member, name, among, here⟩ := takes
  have listed := (mem_arguments_grouped rules name).mpr ⟨rule, member, among⟩
  obtain ⟨before, found, after, split, first, taken⟩ := exists_first ⟨name, listed, here⟩
  exact ⟨_, .literalOperator before found after apart distinct headed split first taken⟩

theorem accepted_iff (start : String) (rules : List Rule) :
    Accepted start rules ↔ ∀ error, ¬Refused start rules error := by
  constructor
  · intro accepted error refused
    cases refused with
    | kindClash before rule after split first clash =>
      exact accepted.operators_apart rule (by simp [split]) clash
    | duplicateOperator before rule after apart split first repeated =>
      exact not_nodup_of_split split repeated accepted.operators_distinct
    | missingProductions apart distinct missing =>
      obtain ⟨rule, member, same⟩ := accepted.start_headed
      exact missing rule member same
    | literalOperator before name after apart distinct headed split first takes =>
      obtain ⟨rule, member, argument⟩ := (mem_arguments_grouped rules name).mp (by simp [split])
      exact accepted.literals_bare rule member name argument takes
  · intro sound
    have apart : ∀ rule ∈ rules, ¬IsCategory start rules rule.operator := by
      intro rule member clash
      obtain ⟨name, refused⟩ := exists_kindClash ⟨rule, member, clash⟩
      exact sound _ refused
    have distinct : (rules.map Rule.operator).Nodup := by
      by_contra repeated
      obtain ⟨name, refused⟩ := exists_duplicateOperator apart repeated
      exact sound _ refused
    have headed : ∃ rule ∈ rules, rule.category = start := by
      by_contra missing
      exact sound _ (.missingProductions apart distinct fun rule member same =>
        missing ⟨rule, member, same⟩)
    refine ⟨apart, distinct, headed, fun rule member name among takes => ?_⟩
    obtain ⟨other, refused⟩ :=
      exists_literalOperator apart distinct headed ⟨rule, member, name, among, takes⟩
    exact sound _ refused

/-- In another order the rules are refused for the same kind of fault. -/
theorem Refused.reordered {error : GrammarError} (refused : Refused start rules error)
    (same : rules.Perm others) :
    ∃ other, Refused start others other ∧ other.ctorIdx = error.ctorIdx := by
  have category : ∀ name, IsCategory start others name ↔ IsCategory start rules name := by
    intro name
    simp only [IsCategory, same.mem_iff]
  have takes : ∀ name, TakesArguments others name ↔ TakesArguments rules name := by
    intro name
    simp only [TakesArguments, same.mem_iff]
  have apart : (∀ rule ∈ rules, ¬IsCategory start rules rule.operator) →
      ∀ rule ∈ others, ¬IsCategory start others rule.operator := by
    intro apart rule member
    rw [category]
    exact apart rule (same.mem_iff.mpr member)
  have distinct := (same.map Rule.operator).nodup_iff
  cases refused with
  | kindClash before rule after split first clash =>
    have member : rule ∈ others := same.mem_iff.mp (by simp [split])
    obtain ⟨name, refused⟩ := exists_kindClash ⟨rule, member, (category _).mpr clash⟩
    exact ⟨_, refused, rfl⟩
  | duplicateOperator before rule after clear split first repeated =>
    have twice := not_nodup_of_split split repeated
    obtain ⟨name, refused⟩ := exists_duplicateOperator (apart clear) (mt distinct.mpr twice)
    exact ⟨_, refused, rfl⟩
  | missingProductions clear once missing =>
    exact ⟨_, .missingProductions (apart clear) (distinct.mp once) fun rule member =>
      missing rule (same.mem_iff.mpr member), rfl⟩
  | literalOperator before name after clear once headed split first taken =>
    obtain ⟨rule, member, argument⟩ := (mem_arguments_grouped rules name).mp (by simp [split])
    obtain ⟨head, listed, heads⟩ := headed
    obtain ⟨name, refused⟩ := exists_literalOperator (apart clear) (distinct.mp once)
      ⟨head, same.mem_iff.mp listed, heads⟩
      ⟨rule, same.mem_iff.mp member, name, argument, (takes name).mpr taken⟩
    exact ⟨_, refused, rfl⟩

end Rule

namespace Grammar

variable (start : String) (rules : List Rule)

theorem exists_ofRules_iff :
    (∃ grammar, ofRules start rules = .ok grammar) ↔ Rule.Accepted start rules := by
  rw [Rule.accepted_iff]
  cases verdict : ofRules start rules with
  | error error =>
    have refused := (ofRules_eq_error_iff start rules error).mp verdict
    simpa using ⟨error, refused⟩
  | ok grammar =>
    refine iff_of_true ⟨grammar, rfl⟩ fun error refused => ?_
    cases verdict.symm.trans ((ofRules_eq_error_iff start rules error).mpr refused)

def kind? : Except GrammarError Grammar → Option Nat
  | .ok _ => none
  | .error error => some error.ctorIdx

theorem kind?_reordered (others : List Rule) (same : rules.Perm others) :
    kind? (ofRules start others) = kind? (ofRules start rules) := by
  cases verdict : ofRules start rules with
  | error error =>
    have refused := (ofRules_eq_error_iff start rules error).mp verdict
    obtain ⟨other, also, alike⟩ := refused.reordered same
    rw [(ofRules_eq_error_iff start others other).mpr also, kind?, kind?, alike]
  | ok grammar =>
    cases reordered : ofRules start others with
    | ok other => rfl
    | error error =>
      have refused := (ofRules_eq_error_iff start others error).mp reordered
      obtain ⟨other, also, _⟩ := refused.reordered same.symm
      cases verdict.symm.trans ((ofRules_eq_error_iff start rules other).mpr also)

/-- The symbol stands for the name: a category if the name heads a rule, else a terminal. -/
structure Denotes (grammar : Grammar) (rules : List Rule) (name : String) (symbol : Symbol) :
    Prop where
  named : grammar.nameOf symbol = .ok name
  category_iff : (∃ category, symbol = .category category) ↔ ∃ rule ∈ rules, rule.category = name

structure Spells (grammar : Grammar) (rules : List Rule) (rule : Rule) (production : Production) :
    Prop where
  category_named : grammar.nameOf (.category production.category) = .ok rule.category
  operator_named : grammar.nameOf (.terminal production.operator) = .ok rule.operator
  arguments_denoted : List.Forall₂ (grammar.Denotes rules) rule.arguments production.arguments

/-- The grammar says what the rules say. -/
structure Renders (grammar : Grammar) (start : String) (rules : List Rule) : Prop where
  start_named : grammar.nameOf (.category grammar.start) = .ok start
  rules_spelled : List.Forall₂ (grammar.Spells rules) rules grammar.productions
  names_apart : ∀ name operator category, grammar.nameOf (.terminal operator) = .ok name →
    grammar.nameOf (.category category) ≠ .ok name

variable {start rules}

theorem denotes_argument {grammar : Grammar} (same : grammar.toDraft = Draft.ofRules start rules)
    (headed : ∃ rule ∈ rules, rule.category = start) (rule : Rule) (member : rule ∈ rules)
    (name : String) (among : name ∈ rule.arguments) :
    grammar.Denotes rules name (Rule.argument (Draft.ofRules start rules).categories
      (Draft.ofRules start rules).terminals name) where
  named := by
    rw [same]
    exact Draft.nameOf_argument _ _ (Draft.argument_entered start rules rule member name among)
  category_iff := by
    have known : name ∈ (Draft.ofRules start rules).categories.names ↔
        ∃ rule ∈ rules, rule.category = name := by
      refine (Rule.mem_categoriesOf start rules name).trans (or_iff_left_of_imp ?_)
      rintro rfl
      exact headed
    rw [← known]
    unfold Rule.argument
    split
    · rename_i category
      exact iff_of_true ⟨_, rfl⟩ category
    · rename_i literal
      exact iff_of_false nofun literal

theorem spells_production {grammar : Grammar}
    (same : grammar.toDraft = Draft.ofRules start rules)
    (headed : ∃ rule ∈ rules, rule.category = start) (rule : Rule) (member : rule ∈ rules) :
    grammar.Spells rules rule (Rule.production (Draft.ofRules start rules).categories
      (Draft.ofRules start rules).terminals rule) where
  category_named := by
    rw [same]
    exact Draft.nameOf_category _ _ (Draft.category_entered start rules rule member)
  operator_named := by
    rw [same]
    exact Draft.nameOf_terminal _ _ (Draft.operator_entered start rules rule member)
  arguments_denoted := List.forall₂_map_right_iff.mpr
    (List.forall₂_same.mpr fun name among => denotes_argument same headed rule member name among)

theorem toDraft_of_ofRules {grammar : Grammar} (made : ofRules start rules = .ok grammar) :
    grammar.toDraft = Draft.ofRules start rules ∧
      grammar.start = ⟨(Draft.ofRules start rules).categories.idxOf start⟩ := by
  have accepted := (exists_ofRules_iff start rules).mp ⟨grammar, made⟩
  rwa [ofRules_of_apart start rules accepted.operators_apart, Draft.build_eq_ok_iff] at made

theorem renders_of_ofRules {grammar : Grammar} (made : ofRules start rules = .ok grammar) :
    grammar.Renders start rules := by
  have accepted := (exists_ofRules_iff start rules).mp ⟨grammar, made⟩
  obtain ⟨same, started⟩ := toDraft_of_ofRules made
  refine ⟨?_, ?_, ?_⟩
  · rw [started, same]
    exact Draft.nameOf_category _ _ (Draft.start_entered start rules)
  · rw [same, Draft.productions_ofRules, List.forall₂_map_right_iff, List.forall₂_same]
    exact spells_production same accepted.start_headed
  · intro name operator category terminal named
    rw [same, Draft.nameOf_terminal_eq_ok_iff] at terminal
    rw [same, Draft.nameOf_category_eq_ok_iff] at named
    have known := List.mem_of_getElem? named
    obtain ⟨rule, member, rfl | ⟨_, literal⟩⟩ :=
      (Rule.mem_terminalsOf _ _ _).mp (List.mem_of_getElem? terminal)
    · exact accepted.operators_apart rule member ((Rule.mem_categoriesOf _ _ _).mp known)
    · exact literal known

/-- Rules are refused for their first fault, or they make a grammar that renders them. Which of the
two, and for what kind of fault, does not depend on the order of the rules. -/
theorem ofRules_verdict (start : String) (rules : List Rule) :
    (∀ error, ofRules start rules = .error error ↔ Rule.Refused start rules error) ∧
      ((∃ grammar, ofRules start rules = .ok grammar) ↔ Rule.Accepted start rules) ∧
      (∀ grammar, ofRules start rules = .ok grammar → grammar.Renders start rules) ∧
      ∀ others, rules.Perm others → kind? (ofRules start others) = kind? (ofRules start rules) :=
  ⟨ofRules_eq_error_iff start rules, exists_ofRules_iff start rules,
    fun _ made => renders_of_ofRules made, kind?_reordered start rules⟩

def sumRules : List Rule :=
  [⟨"E", "add", ["E", "T"]⟩, ⟨"E", "lift", ["T"]⟩, ⟨"T", "x", []⟩]

theorem sums_ruled : Rule.Accepted "E" sumRules ∧
    (∃ grammar, ofRules "E" sumRules = .ok grammar ∧ grammar.Renders "E" sumRules) ∧
    kind? (ofRules "E" sumRules.reverse) = none := by
  have accepted : Rule.Accepted "E" sumRules := ⟨by decide, by decide, by decide, by decide⟩
  obtain ⟨_, made, renders, reordered⟩ := ofRules_verdict "E" sumRules
  obtain ⟨grammar, built⟩ := made.mpr accepted
  refine ⟨accepted, ⟨grammar, built, renders grammar built⟩, ?_⟩
  rw [reordered _ (List.reverse_perm _).symm, built]
  rfl

end Grammar

end ByExample
