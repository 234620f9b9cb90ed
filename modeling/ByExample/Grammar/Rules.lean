import ByExample.Grammar.Build

/-!
Grammars written with plain names. The categories are the names that head a rule, and the start name;
in the arguments of a rule such a name is a category, and any other name is a literal terminal.
-/

namespace ByExample

structure Rule where
  category : String
  operator : String
  arguments : List String
  deriving DecidableEq

namespace Rule

def categoriesOf (start : String) (rules : List Rule) : NameTable :=
  .ofList (rules.map Rule.category ++ [start])

def terminalsOf (categories : NameTable) (rules : List Rule) : NameTable :=
  .ofList (rules.flatMap fun rule =>
    rule.operator :: rule.arguments.filter (· ∉ categories.names))

def argument (categories terminals : NameTable) (name : String) : Symbol :=
  if name ∈ categories.names then .category ⟨categories.idxOf name⟩
  else .terminal ⟨terminals.idxOf name⟩

def production (categories terminals : NameTable) (rule : Rule) : Production where
  category := ⟨categories.idxOf rule.category⟩
  operator := ⟨terminals.idxOf rule.operator⟩
  arguments := rule.arguments.map (argument categories terminals)

end Rule

def Draft.ofRules (start : String) (rules : List Rule) : Draft :=
  let categories := Rule.categoriesOf start rules
  let terminals := Rule.terminalsOf categories rules
  { categories, terminals, productions := rules.map (Rule.production categories terminals) }

/-- An operator must not be named like a category. -/
def Grammar.ofRules (start : String) (rules : List Rule) : Except GrammarError Grammar :=
  let categories := Rule.categoriesOf start rules
  -- This comes before any fault of the draft.
  match rules.find? (·.operator ∈ categories.names) with
  | some rule => .error (.kindClash rule.operator)
  | none => (Draft.ofRules start rules).build ⟨categories.idxOf start⟩

end ByExample
