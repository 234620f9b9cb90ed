import ByExample.Proofs.Refusal
import ByExample.Proofs.Renaming

/-!
Grammars written back as rules. A grammar made of rules gives back the rules category by category
(`rules_of_ofRules`). These make a grammar again, and give themselves back. It has the categories of
the first one, and numbers the terminals in the order in which they come up now, so that it is the
first one with its terminals renamed (`renames_regrouped`).
-/

namespace ByExample

theorem mapM_map_eq_ok {α β ε : Type} {write : α → β} {read : β → Except ε α} (xs : List α)
    (inverse : ∀ x ∈ xs, read (write x) = .ok x) : (xs.map write).mapM read = .ok xs := by
  induction xs with
  | nil => rfl
  | cons x xs ih =>
    obtain ⟨first, rest⟩ := List.forall_mem_cons.mp inverse
    rw [List.map_cons, List.mapM_cons, first, ih rest]
    rfl

theorem NameTable.eq_of_names {left right : NameTable} (same : left.names = right.names) :
    left = right := by
  cases left
  cases right
  cases same
  rfl

theorem NameTable.nodup_eraseDups (names : List String) : names.eraseDups.Nodup :=
  names_ofList names ▸ (ofList names).distinct

theorem flatMap_eq_single {α β : Type} {xs : List α} {f : α → List β} {x : α}
    (distinct : xs.Nodup) (member : x ∈ xs) (others : ∀ y ∈ xs, y ≠ x → f y = []) :
    xs.flatMap f = f x := by
  obtain ⟨before, after, rfl⟩ := List.append_of_mem member
  obtain ⟨absent, _⟩ := List.nodup_middle.mp distinct |> List.nodup_cons.mp
  have clear (part : List α) (within : ∀ y ∈ part, y ∈ before ++ after) : part.flatMap f = [] := by
    refine List.flatMap_eq_nil_iff.mpr fun y among => others y ?_ ?_
    · have there := within y among
      simp only [List.mem_append, List.mem_cons] at there ⊢
      tauto
    · rintro rfl
      exact absent (within y among)
  rw [List.flatMap_append, List.flatMap_cons, clear before (by simp +contextual),
    clear after (by simp +contextual)]
  simp

theorem eraseDups_flatMap {α : Type} [DecidableEq α] {xs : List α} {f : α → List α}
    (distinct : xs.Nodup) (some : ∀ x ∈ xs, f x ≠ []) (same : ∀ x ∈ xs, ∀ y ∈ f x, y = x) :
    (xs.flatMap f).eraseDups = xs := by
  induction xs with
  | nil => rfl
  | cons x xs ih =>
    obtain ⟨absent, apart⟩ := List.nodup_cons.mp distinct
    obtain ⟨someHere, someLater⟩ := List.forall_mem_cons.mp some
    obtain ⟨sameHere, sameLater⟩ := List.forall_mem_cons.mp same
    have here : (f x).eraseDups = [x] := by
      obtain ⟨y, rest, split⟩ := List.exists_cons_of_ne_nil someHere
      rw [split] at sameHere ⊢
      obtain ⟨rfl, repeats⟩ := List.forall_mem_cons.mp sameHere
      have none : rest.filter (!· == y) = [] :=
        List.filter_eq_nil_iff.mpr fun other among => by simp [repeats other among]
      rw [List.eraseDups_cons, none, List.eraseDups_nil]
    have later : (xs.flatMap f).removeAll (f x) = xs.flatMap f := by
      refine List.filter_eq_self.mpr fun y member => ?_
      obtain ⟨z, among, found⟩ := List.mem_flatMap.mp member
      have new : y ∉ f x := by
        intro old
        exact absent (sameHere y old ▸ sameLater z among y found ▸ among)
      simp [new]
    rw [List.flatMap_cons, List.eraseDups_append, here, later, ih apart someLater sameLater]
    rfl

/-- The handle that another table has for the name; a number without a name stays as it is. -/
def NameTable.moveTo (table other : NameTable) (operator : Terminal) : Terminal :=
  match table.name? operator.index with
  | some name => ⟨other.idxOf name⟩
  | none => operator

theorem NameTable.moveTo_idxOf (table other : NameTable) (name : String)
    (member : name ∈ table.names) :
    table.moveTo other ⟨table.idxOf name⟩ = ⟨other.idxOf name⟩ := by
  simp only [moveTo, table.name?_idxOf name member]

theorem NameTable.moveTo_of_none (table other : NameTable) (operator : Terminal)
    (unnamed : table.name? operator.index = none) : table.moveTo other operator = operator := by
  simp only [moveTo, unnamed]

theorem NameTable.name?_moveTo {table other : NameTable}
    (same : ∀ name, name ∈ other.names ↔ name ∈ table.names) (operator : Terminal) :
    other.name? (table.moveTo other operator).index = table.name? operator.index := by
  cases found : table.name? operator.index with
  | some name =>
    simp only [moveTo, found]
    exact other.name?_idxOf name ((same name).mpr (List.mem_of_getElem? found))
  | none =>
    have length : other.names.length = table.names.length :=
      ((List.perm_ext_iff_of_nodup other.distinct table.distinct).mpr same).length_eq
    rw [table.moveTo_of_none other operator found]
    rw [name?, List.getElem?_eq_none_iff] at found ⊢
    exact length ▸ found

namespace Rule

variable (start : String) (rules : List Rule)

theorem filter_grouped (name : String) :
    (grouped rules).filter (·.category = name) = rules.filter (·.category = name) := by
  have piece (other : String) : (rules.filter (·.category = other)).filter (·.category = name) =
      if other = name then rules.filter (·.category = name) else [] := by
    rw [List.filter_filter]
    split
    · rename_i same
      simp [same]
    · rename_i different
      refine List.filter_eq_nil_iff.mpr fun rule _ => ?_
      simp only [Bool.and_eq_true, decide_eq_true_eq]
      rintro ⟨rfl, same⟩
      exact different same.symm
  simp only [grouped, List.filter_flatMap, piece]
  by_cases heads : name ∈ (rules.map Rule.category).eraseDups
  · rw [flatMap_eq_single (NameTable.nodup_eraseDups _) heads fun other _ different => if_neg different,
      if_pos rfl]
  · have none : rules.filter (·.category = name) = [] := by
      refine List.filter_eq_nil_iff.mpr fun rule member => ?_
      simp only [decide_eq_true_eq]
      rintro rfl
      exact heads (List.mem_eraseDups.mpr (List.mem_map_of_mem member))
    simp [none]

theorem perm_grouped : (grouped rules).Perm rules := by
  rw [List.perm_iff_count]
  intro rule
  have same := congrArg (List.count rule) (filter_grouped rules rule.category)
  rwa [List.count_filter (by simp), List.count_filter (by simp)] at same

theorem eraseDups_category_grouped :
    ((grouped rules).map Rule.category).eraseDups = (rules.map Rule.category).eraseDups := by
  rw [grouped, List.map_flatMap]
  refine eraseDups_flatMap (NameTable.nodup_eraseDups _) ?_ ?_
  · intro name member
    rw [List.mem_eraseDups] at member
    obtain ⟨rule, listed, rfl⟩ := List.mem_map.mp member
    exact List.ne_nil_of_mem (List.mem_map_of_mem (List.mem_filter.mpr ⟨listed, by simp⟩))
  · intro name _ other member
    obtain ⟨rule, listed, rfl⟩ := List.mem_map.mp member
    simpa using (List.mem_filter.mp listed).2

theorem grouped_grouped : grouped (grouped rules) = grouped rules := by
  rw [grouped, eraseDups_category_grouped]
  exact List.flatMap_congr fun name _ => filter_grouped rules name

theorem categoriesOf_grouped : categoriesOf start (grouped rules) = categoriesOf start rules := by
  apply NameTable.eq_of_names
  rw [categoriesOf, categoriesOf, NameTable.names_ofList, NameTable.names_ofList,
    List.eraseDups_append, List.eraseDups_append, eraseDups_category_grouped]
  congr 2
  refine List.filter_congr fun name _ => ?_
  simp [mem_grouped]

theorem rename_production (categories terminals others : NameTable) (rule : Rule)
    (operator : rule.operator ∈ terminals.names)
    (arguments : ∀ name ∈ rule.arguments, name ∉ categories.names → name ∈ terminals.names) :
    (production categories terminals rule).rename (terminals.moveTo others) =
      production categories others rule := by
  have moved : (rule.arguments.map (argument categories terminals)).map
      (Symbol.rename (terminals.moveTo others)) =
      rule.arguments.map (argument categories others) := by
    rw [List.map_map]
    refine List.map_congr_left fun name among => ?_
    by_cases category : name ∈ categories.names
    · simp [argument, category, Symbol.rename]
    · simp [argument, category, Symbol.rename,
        terminals.moveTo_idxOf others name (arguments name among category)]
  simp only [production, Production.rename, terminals.moveTo_idxOf others _ operator, moved]

end Rule

namespace Draft

variable (start : String) (rules : List Rule)

theorem categories_grouped :
    (ofRules start (Rule.grouped rules)).categories = (ofRules start rules).categories :=
  Rule.categoriesOf_grouped start rules

theorem mem_terminals_grouped (name : String) :
    name ∈ (ofRules start (Rule.grouped rules)).terminals.names ↔
      name ∈ (ofRules start rules).terminals.names := by
  have categories := categories_grouped start rules
  simp only [ofRules] at categories ⊢
  simp only [Rule.mem_terminalsOf, Rule.mem_grouped, categories]

theorem ofCategory_eq_nil (category : Category)
    (unlisted : category ∉ (ofRules start rules).allCategories) :
    (ofRules start rules).ofCategory category = [] := by
  refine List.filter_eq_nil_iff.mpr fun production member => ?_
  obtain ⟨rule, among, rfl⟩ := List.mem_map.mp (productions_ofRules start rules ▸ member)
  simp only [decide_eq_true_eq]
  rintro rfl
  rw [allCategories_eq] at unlisted
  exact unlisted (List.mem_map_of_mem (category_entered start rules rule among))

theorem ofCategory_grouped (category : Category) :
    (ofRules start (Rule.grouped rules)).ofCategory category =
      ((ofRules start rules).ofCategory category).map (Production.rename
        ((ofRules start rules).terminals.moveTo
          (ofRules start (Rule.grouped rules)).terminals)) := by
  have categories := categories_grouped start rules
  by_cases listed : category ∈ (ofRules start rules).allCategories
  · rw [allCategories_eq] at listed
    obtain ⟨name, member, rfl⟩ := List.mem_map.mp listed
    have also := ofCategory_ofRules start (Rule.grouped rules) name (categories ▸ member)
    rw [categories] at also
    rw [also, ofCategory_ofRules start rules name member, Rule.filter_grouped, List.map_map]
    refine List.map_congr_left fun rule among => ?_
    have known := (List.mem_filter.mp among).1
    exact (Rule.rename_production _ _ _ rule (operator_entered start rules rule known)
      (argument_entered start rules rule known)).symm
  · have also := listed
    rw [allCategories, ← categories, ← allCategories] at also
    rw [ofCategory_eq_nil start rules category listed,
      ofCategory_eq_nil start (Rule.grouped rules) category also, List.map_nil]

end Draft

namespace Grammar

def ruleOf (grammar : Grammar) (production : Production) : Except GrammarError Rule := do
  let category ← grammar.nameOf (.category production.category)
  let operator ← grammar.nameOf (.terminal production.operator)
  let arguments ← production.arguments.mapM grammar.nameOf
  return { category, operator, arguments }

/-- The grammar written back as rules, category by category. -/
def rules (grammar : Grammar) : Except GrammarError (List Rule) :=
  grammar.allProductions.mapM grammar.ruleOf

variable {start : String} {rules : List Rule} {grammar other : Grammar}

theorem rules_of_ofRules (made : ofRules start rules = .ok grammar) :
    grammar.rules = .ok (Rule.grouped rules) := by
  have accepted := (exists_ofRules_iff start rules).mp ⟨grammar, made⟩
  obtain ⟨same, _⟩ := toDraft_of_ofRules made
  rw [Grammar.rules, same, Draft.allProductions_ofRules start rules accepted.start_headed]
  refine mapM_map_eq_ok _ fun rule listed => ?_
  have member := (Rule.mem_grouped rules rule).mp listed
  have arguments := mapM_map_eq_ok rule.arguments fun name among =>
    Draft.nameOf_argument _ name (Draft.argument_entered start rules rule member name among)
  have category := Draft.nameOf_category _ _ (Draft.category_entered start rules rule member)
  have operator := Draft.nameOf_terminal _ _ (Draft.operator_entered start rules rule member)
  simp only [ruleOf, same, Rule.production, category, operator, arguments]
  rfl

theorem exists_regrouped (made : ofRules start rules = .ok grammar) :
    ∃ other, ofRules start (Rule.grouped rules) = .ok other := by
  have reordered := kind?_reordered start rules (Rule.grouped rules) (Rule.perm_grouped rules).symm
  rw [made] at reordered
  cases verdict : ofRules start (Rule.grouped rules) with
  | ok other => exact ⟨other, rfl⟩
  | error error =>
    rw [verdict] at reordered
    cases reordered

theorem renames_regrouped (made : ofRules start rules = .ok grammar)
    (regrouped : ofRules start (Rule.grouped rules) = .ok other) :
    grammar.Renames (grammar.terminals.moveTo other.terminals) other := by
  obtain ⟨same, started⟩ := toDraft_of_ofRules made
  obtain ⟨otherSame, otherStarted⟩ := toDraft_of_ofRules regrouped
  refine ⟨?_, ?_, ?_, ?_, ?_⟩
  · rw [started, otherStarted, Draft.categories_grouped]
  · rw [same, otherSame, Draft.categories_grouped]
  · rw [same, otherSame]
    exact NameTable.name?_moveTo (Draft.mem_terminals_grouped start rules)
  · exact NameTable.moveTo_of_none _ _
  · rw [same, otherSame]
    exact Draft.ofCategory_grouped start rules

end Grammar

end ByExample
