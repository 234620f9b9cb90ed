import ByExample.Grammar.Rules
import ByExample.Proofs.Drafting

/-!
Lists of rules as drafts. Rules enter all that they speak of, so what can be wrong with their draft
is a matter of names: an operator that comes twice, a start name that heads no rule, a literal that
names an operator with arguments (`Draft.fault?_ofRules`).
-/

namespace ByExample

theorem firstRepeat_eq_some_iff {α : Type} [DecidableEq α] (seen xs : List α) (x : α) :
    firstRepeat seen xs = some x ↔ ∃ before after, xs = before ++ x :: after ∧
      firstRepeat seen before = none ∧ (x ∈ seen ∨ x ∈ before) := by
  induction xs generalizing seen with
  | nil => simp [firstRepeat]
  | cons y xs ih =>
    by_cases old : y ∈ seen
    · simp only [firstRepeat, old, ↓reduceIte, Option.some.injEq]
      constructor
      · rintro rfl
        exact ⟨[], xs, rfl, rfl, Or.inl old⟩
      · rintro ⟨_ | ⟨z, before⟩, after, split, clear, _⟩
        · exact (List.cons.inj split).1
        · obtain ⟨rfl, _⟩ := List.cons.inj split
          simp [firstRepeat, old] at clear
    · simp only [firstRepeat, old, ↓reduceIte, ih]
      constructor
      · rintro ⟨before, after, rfl, clear, found⟩
        refine ⟨y :: before, after, rfl, by simpa [firstRepeat, old] using clear, ?_⟩
        simpa [or_left_comm, or_assoc] using found
      · rintro ⟨_ | ⟨z, before⟩, after, split, clear, found⟩
        · obtain ⟨rfl, _⟩ := List.cons.inj split
          simp [old] at found
        · obtain ⟨rfl, rfl⟩ := List.cons.inj split
          refine ⟨before, after, rfl, by simpa [firstRepeat, old] using clear, ?_⟩
          simpa [or_left_comm, or_assoc] using found

theorem firstRepeat_map {α β : Type} [DecidableEq α] [DecidableEq β] (f : α → β)
    (seen xs : List α) (injective : ∀ x ∈ xs, ∀ y ∈ seen ++ xs, f x = f y → x = y) :
    firstRepeat (seen.map f) (xs.map f) = (firstRepeat seen xs).map f := by
  induction xs generalizing seen with
  | nil => rfl
  | cons x xs ih =>
    have same : f x ∈ seen.map f ↔ x ∈ seen := by
      rw [List.mem_map]
      constructor
      · rintro ⟨y, member, equal⟩
        have known : x = y := injective x (by simp) y (by simp [member]) equal.symm
        exact known ▸ member
      · exact fun member => ⟨x, member, rfl⟩
    simp only [List.map_cons, firstRepeat, same]
    split
    · rfl
    · refine ih (x :: seen) fun y yMember z zMember => injective y (by simp [yMember]) z ?_
      simp only [List.mem_append, List.mem_cons] at zMember ⊢
      tauto

theorem NameTable.names_ofList (names : List String) : (ofList names).names = names.eraseDups := by
  induction names using List.reverseRecOn with
  | nil => rfl
  | append_singleton names last ih =>
    have next : ofList (names ++ [last]) = (ofList names).insert last := by simp [ofList]
    rw [next, insert, List.eraseDups_append, ← ih]
    by_cases old : last ∈ names <;> simp [old, List.removeAll, List.eraseDups_cons]

theorem NameTable.idxOf_inj (table : NameTable) {left right : String}
    (leftMember : left ∈ table.names) (rightMember : right ∈ table.names)
    (same : table.idxOf left = table.idxOf right) : left = right := by
  have named := table.name?_idxOf left leftMember
  rw [same, table.name?_idxOf right rightMember] at named
  exact (Option.some.inj named).symm

theorem Draft.issued_of_nameOf (draft : Draft) (symbol : Symbol) (name : String)
    (named : draft.nameOf symbol = .ok name) : draft.Issued symbol := by
  cases symbol with
  | terminal operator =>
    rw [nameOf_terminal_eq_ok_iff] at named
    exact (List.getElem?_eq_some_iff.mp named).1
  | category category =>
    rw [nameOf_category_eq_ok_iff] at named
    exact (List.getElem?_eq_some_iff.mp named).1

theorem Draft.errorAbout_of_nameOf (draft : Draft) (symbol : Symbol) (name : String)
    (cause : String → GrammarError) (named : draft.nameOf symbol = .ok name) :
    draft.errorAbout symbol cause = cause name := by
  rw [errorAbout, named]

namespace Rule

def IsCategory (start : String) (rules : List Rule) (name : String) : Prop :=
  (∃ rule ∈ rules, rule.category = name) ∨ name = start

instance (start : String) (rules : List Rule) (name : String) :
    Decidable (IsCategory start rules name) :=
  inferInstanceAs (Decidable ((∃ rule ∈ rules, rule.category = name) ∨ name = start))

def TakesArguments (rules : List Rule) (name : String) : Prop :=
  ∃ rule ∈ rules, rule.operator = name ∧ rule.arguments ≠ []

instance (rules : List Rule) (name : String) : Decidable (TakesArguments rules name) :=
  inferInstanceAs (Decidable (∃ rule ∈ rules, rule.operator = name ∧ rule.arguments ≠ []))

/-- The rules category by category, the categories in the order in which they first head a rule. -/
def grouped (rules : List Rule) : List Rule :=
  (rules.map Rule.category).eraseDups.flatMap fun category =>
    rules.filter (·.category = category)

theorem mem_grouped (rules : List Rule) (rule : Rule) : rule ∈ grouped rules ↔ rule ∈ rules := by
  simp only [grouped, List.mem_flatMap, List.mem_eraseDups, List.mem_filter, decide_eq_true_eq]
  exact ⟨fun ⟨_, _, member, _⟩ => member,
    fun member => ⟨_, List.mem_map_of_mem member, member, rfl⟩⟩

theorem mem_arguments_grouped (rules : List Rule) (name : String) :
    name ∈ (grouped rules).flatMap Rule.arguments ↔ ∃ rule ∈ rules, name ∈ rule.arguments := by
  simp only [List.mem_flatMap, mem_grouped]

theorem mem_categoriesOf (start : String) (rules : List Rule) (name : String) :
    name ∈ (categoriesOf start rules).names ↔ IsCategory start rules name := by
  simp [categoriesOf, IsCategory]

theorem mem_terminalsOf (categories : NameTable) (rules : List Rule) (name : String) :
    name ∈ (terminalsOf categories rules).names ↔ ∃ rule ∈ rules,
      name = rule.operator ∨ name ∈ rule.arguments ∧ name ∉ categories.names := by
  simp [terminalsOf]

end Rule

namespace Draft

section

variable (draft : Draft)

theorem nameOf_category (name : String) (member : name ∈ draft.categories.names) :
    draft.nameOf (.category ⟨draft.categories.idxOf name⟩) = .ok name := by
  rw [nameOf_category_eq_ok_iff, NameTable.name?_idxOf _ _ member]

theorem nameOf_terminal (name : String) (member : name ∈ draft.terminals.names) :
    draft.nameOf (.terminal ⟨draft.terminals.idxOf name⟩) = .ok name := by
  rw [nameOf_terminal_eq_ok_iff, NameTable.name?_idxOf _ _ member]

theorem nameOf_argument (name : String)
    (entered : name ∉ draft.categories.names → name ∈ draft.terminals.names) :
    draft.nameOf (Rule.argument draft.categories draft.terminals name) = .ok name := by
  unfold Rule.argument
  split
  · rename_i category
    exact draft.nameOf_category name category
  · rename_i literal
    exact draft.nameOf_terminal name (entered literal)

theorem allCategories_eq : draft.allCategories =
    draft.categories.names.map fun name => ⟨draft.categories.idxOf name⟩ := by
  refine List.ext_getElem (by simp [allCategories, NameTable.size]) fun index left right => ?_
  have below : index < draft.categories.names.length := by simpa using right
  simp [allCategories, NameTable.idxOf, draft.categories.distinct.idxOf_getElem index below]

end

variable (start : String) (rules : List Rule)

theorem productions_ofRules : (ofRules start rules).productions = rules.map
    (Rule.production (ofRules start rules).categories (ofRules start rules).terminals) :=
  rfl

theorem operator_entered (rule : Rule) (member : rule ∈ rules) :
    rule.operator ∈ (ofRules start rules).terminals.names :=
  (Rule.mem_terminalsOf _ rules _).mpr ⟨rule, member, Or.inl rfl⟩

theorem argument_entered (rule : Rule) (member : rule ∈ rules) (name : String)
    (among : name ∈ rule.arguments) (literal : name ∉ (ofRules start rules).categories.names) :
    name ∈ (ofRules start rules).terminals.names :=
  (Rule.mem_terminalsOf _ rules _).mpr ⟨rule, member, Or.inr ⟨among, literal⟩⟩

theorem category_entered (rule : Rule) (member : rule ∈ rules) :
    rule.category ∈ (ofRules start rules).categories.names :=
  (Rule.mem_categoriesOf start rules _).mpr (Or.inl ⟨rule, member, rfl⟩)

theorem start_entered : start ∈ (ofRules start rules).categories.names :=
  (Rule.mem_categoriesOf start rules _).mpr (Or.inr rfl)

theorem issued_ofRules (rule : Rule) (member : rule ∈ rules) (symbol : Symbol)
    (among : symbol ∈ (Rule.production (ofRules start rules).categories
      (ofRules start rules).terminals rule).symbols) :
    (ofRules start rules).Issued symbol := by
  simp only [Production.symbols, Rule.production, List.mem_cons, List.mem_map] at among
  rcases among with rfl | rfl | ⟨name, argument, rfl⟩
  · exact issued_of_nameOf _ _ _ (nameOf_category _ _ (category_entered start rules rule member))
  · exact issued_of_nameOf _ _ _ (nameOf_terminal _ _ (operator_entered start rules rule member))
  · exact issued_of_nameOf _ _ _
      (nameOf_argument _ _ (argument_entered start rules rule member name argument))

theorem duplicate?_ofRules : (ofRules start rules).duplicate? =
    (firstRepeat [] (rules.map Rule.operator)).map .duplicateOperator := by
  have entered : ∀ name ∈ rules.map Rule.operator,
      name ∈ (ofRules start rules).terminals.names := by
    intro name member
    obtain ⟨rule, among, rfl⟩ := List.mem_map.mp member
    exact operator_entered start rules rule among
  have numbered := firstRepeat_map
    (fun name => Terminal.mk ((ofRules start rules).terminals.idxOf name)) []
    (rules.map Rule.operator) fun left leftMember right rightMember same =>
      NameTable.idxOf_inj _ (entered left leftMember) (entered right rightMember)
        (congrArg Terminal.index same)
  have operators : (ofRules start rules).productions.map Production.operator =
      (rules.map Rule.operator).map fun name =>
        ⟨(ofRules start rules).terminals.idxOf name⟩ := by
    simp [productions_ofRules, Rule.production]
  rw [duplicate?, operators, ← List.map_nil, numbered, Option.map_map]
  cases found : firstRepeat [] (rules.map Rule.operator) with
  | none => rfl
  | some name =>
    obtain ⟨before, after, split, _, _⟩ := (firstRepeat_eq_some_iff _ _ _).mp found
    have member : name ∈ rules.map Rule.operator := by simp [split]
    exact congrArg some (errorAbout_of_nameOf _ _ _ _ (nameOf_terminal _ _ (entered name member)))

theorem duplicate?_eq_some_iff (error : GrammarError) :
    (ofRules start rules).duplicate? = some error ↔
      ∃ before rule after, rules = before ++ rule :: after ∧
        (before.map Rule.operator).Nodup ∧ rule.operator ∈ before.map Rule.operator ∧
        .duplicateOperator rule.operator = error := by
  rw [duplicate?_ofRules, Option.map_eq_some_iff]
  constructor
  · rintro ⟨name, found, same⟩
    obtain ⟨_, _, split, fresh, repeated⟩ := (firstRepeat_eq_some_iff _ _ _).mp found
    obtain ⟨before, _, rfl, rfl, more⟩ := List.map_eq_append_iff.mp split
    obtain ⟨rule, after, rfl, rfl, rfl⟩ := List.map_eq_cons_iff.mp more
    exact ⟨before, rule, after, rfl, ((firstRepeat_eq_none _ _).mp fresh).1,
      by simpa using repeated, same⟩
  · rintro ⟨before, rule, after, rfl, distinct, repeated, same⟩
    have fresh := (firstRepeat_eq_none [] (before.map Rule.operator)).mpr ⟨distinct, by simp⟩
    exact ⟨rule.operator, (firstRepeat_eq_some_iff _ _ _).mpr
      ⟨_, after.map Rule.operator, by simp, fresh, Or.inr repeated⟩, same⟩

theorem duplicate?_eq_none_iff :
    (ofRules start rules).duplicate? = none ↔ (rules.map Rule.operator).Nodup := by
  simp [duplicate?_ofRules, firstRepeat_eq_none]

theorem ofCategory_ofRules (name : String)
    (member : name ∈ (ofRules start rules).categories.names) :
    (ofRules start rules).ofCategory ⟨(ofRules start rules).categories.idxOf name⟩ =
      (rules.filter (·.category = name)).map
        (Rule.production (ofRules start rules).categories (ofRules start rules).terminals) := by
  rw [ofCategory, productions_ofRules, List.filter_map]
  congr 1
  refine List.filter_congr fun rule among => decide_eq_decide.mpr ?_
  constructor
  · intro same
    exact NameTable.idxOf_inj _ (category_entered start rules rule among) member
      (congrArg Category.index same)
  · rintro rfl
    rfl

theorem uninhabited?_ofRules (name : String)
    (member : name ∈ (ofRules start rules).categories.names) :
    (ofRules start rules).uninhabited? ⟨(ofRules start rules).categories.idxOf name⟩ =
      if ∃ rule ∈ rules, rule.category = name then none else some (.missingProductions name) := by
  rw [uninhabited?, ofCategory_ofRules start rules name member,
    errorAbout_of_nameOf _ _ _ _ (nameOf_category _ _ member)]
  by_cases headed : ∃ rule ∈ rules, rule.category = name
  · simp [headed]
  · simp [headed]

theorem argumentFault?_terminal (name : String)
    (member : name ∈ (ofRules start rules).terminals.names) :
    (ofRules start rules).argumentFault?
        (.terminal ⟨(ofRules start rules).terminals.idxOf name⟩) =
      if Rule.TakesArguments rules name then some (.literalOperator name) else none := by
  have named : ∀ rule ∈ rules, (ofRules start rules).terminals.idxOf rule.operator =
      (ofRules start rules).terminals.idxOf name ↔ rule.operator = name := by
    intro rule among
    constructor
    · exact NameTable.idxOf_inj _ (operator_entered start rules rule among) member
    · rintro rfl
      rfl
  have bare : ((ofRules start rules).productions.all fun owner =>
      owner.operator ≠ ⟨(ofRules start rules).terminals.idxOf name⟩ ∨ owner.arguments = []) ↔
      ¬Rule.TakesArguments rules name := by
    simp only [productions_ofRules, List.all_map, List.all_eq_true, Function.comp_apply,
      decide_eq_true_eq, Rule.production, Terminal.mk.injEq, Rule.TakesArguments, not_exists,
      not_and, ne_eq, List.map_eq_nil_iff]
    refine forall₂_congr fun rule among => ?_
    rw [named rule among]
    tauto
  rw [argumentFault?, errorAbout_of_nameOf _ _ _ _ (nameOf_terminal _ _ member)]
  by_cases takes : Rule.TakesArguments rules name
  · rw [if_neg (mt bare.mp (not_not.mpr takes)), if_pos takes]
  · rw [if_pos (bare.mpr takes), if_neg takes]

theorem argumentFault?_argument
    (apart : ∀ rule ∈ rules, ¬Rule.IsCategory start rules rule.operator)
    (headed : ∃ rule ∈ rules, rule.category = start) (rule : Rule) (member : rule ∈ rules)
    (name : String) (among : name ∈ rule.arguments) :
    (ofRules start rules).argumentFault? (Rule.argument (ofRules start rules).categories
      (ofRules start rules).terminals name) =
      if Rule.TakesArguments rules name then some (.literalOperator name) else none := by
  unfold Rule.argument
  split
  · rename_i category
    have inhabited : ∃ rule ∈ rules, rule.category = name := by
      rcases (Rule.mem_categoriesOf start rules name).mp category with heads | rfl
      · exact heads
      · exact headed
    have bare : ¬Rule.TakesArguments rules name := by
      rintro ⟨owner, owned, rfl, _⟩
      exact apart owner owned ((Rule.mem_categoriesOf start rules _).mp category)
    rw [argumentFault?, uninhabited?_ofRules start rules name category, if_pos inhabited,
      if_neg bare]
  · rename_i literal
    exact argumentFault?_terminal start rules name
      (argument_entered start rules rule member name among literal)

theorem allProductions_ofRules (headed : ∃ rule ∈ rules, rule.category = start) :
    (ofRules start rules).allProductions = (Rule.grouped rules).map
      (Rule.production (ofRules start rules).categories (ofRules start rules).terminals) := by
  have names : (ofRules start rules).categories.names = (rules.map Rule.category).eraseDups := by
    simp [ofRules, Rule.categoriesOf, NameTable.names_ofList, List.eraseDups_append,
      List.removeAll, headed]
  rw [allProductions, allCategories_eq, List.flatMap_map, names, Rule.grouped, List.map_flatMap]
  refine List.flatMap_congr fun name member => ?_
  exact ofCategory_ofRules start rules name (names ▸ member)

theorem literal_eq_some_iff
    (apart : ∀ rule ∈ rules, ¬Rule.IsCategory start rules rule.operator)
    (headed : ∃ rule ∈ rules, rule.category = start) (error : GrammarError) :
    ((ofRules start rules).allProductions.flatMap Production.arguments).findSome?
        (ofRules start rules).argumentFault? = some error ↔
      ∃ before name after, (Rule.grouped rules).flatMap Rule.arguments = before ++ name :: after ∧
        (∀ earlier ∈ before, ¬Rule.TakesArguments rules earlier) ∧
        Rule.TakesArguments rules name ∧ .literalOperator name = error := by
  have arguments : (ofRules start rules).allProductions.flatMap Production.arguments =
      ((Rule.grouped rules).flatMap Rule.arguments).map (Rule.argument
        (ofRules start rules).categories (ofRules start rules).terminals) := by
    rw [allProductions_ofRules start rules headed, List.flatMap_map, List.map_flatMap]
    rfl
  have faults : ∀ name ∈ (Rule.grouped rules).flatMap Rule.arguments,
      (ofRules start rules).argumentFault? (Rule.argument
        (ofRules start rules).categories (ofRules start rules).terminals name) =
      if Rule.TakesArguments rules name then some (.literalOperator name) else none := by
    intro name among
    obtain ⟨rule, member, argument⟩ := (Rule.mem_arguments_grouped rules name).mp among
    exact argumentFault?_argument start rules apart headed rule member name argument
  rw [arguments, List.findSome?_map, List.findSome?_eq_some_iff]
  refine exists_congr fun before => exists_congr fun name => exists_congr fun after =>
    and_congr_right fun split => ?_
  rw [split] at faults
  have clean : (∀ earlier ∈ before, (ofRules start rules).argumentFault? (Rule.argument
      (ofRules start rules).categories (ofRules start rules).terminals earlier) = none) ↔
      ∀ earlier ∈ before, ¬Rule.TakesArguments rules earlier :=
    forall₂_congr fun earlier member => by simp [faults earlier (by simp [member])]
  simp only [Function.comp_apply, clean, faults name (by simp), Option.ite_none_right_eq_some,
    Option.some.injEq]
  exact and_comm

theorem fault?_ofRules :
    (ofRules start rules).fault? ⟨(ofRules start rules).categories.idxOf start⟩ =
      ((ofRules start rules).duplicate?.or
        (if ∃ rule ∈ rules, rule.category = start then none else
          some (.missingProductions start))).or
        (((ofRules start rules).allProductions.flatMap Production.arguments).findSome?
          (ofRules start rules).argumentFault?) := by
  have issued : (Symbol.category ⟨(ofRules start rules).categories.idxOf start⟩ ::
      (ofRules start rules).productions.flatMap Production.symbols).findSome?
      (ofRules start rules).foreign? = none := by
    simp only [List.findSome?_eq_none_iff, List.mem_cons, List.mem_flatMap, foreign?_eq_none]
    rintro symbol (rfl | ⟨production, member, among⟩)
    · exact issued_of_nameOf _ _ _ (nameOf_category _ _ (start_entered start rules))
    · obtain ⟨rule, listed, rfl⟩ := List.mem_map.mp member
      exact issued_ofRules start rules rule listed symbol among
  rw [fault?, issued, Option.none_or, uninhabited?_ofRules _ _ _ (start_entered start rules)]

end Draft

end ByExample
