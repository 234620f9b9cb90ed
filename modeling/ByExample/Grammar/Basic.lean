import ByExample.Grammar.NameTable
import ByExample.Grammar.Error

/-!
Grammars. A draft records the names entered and the productions added so far, in order and without
judging them. Entering a name gives its handle, and a draft has issued the handles of its names. A
grammar is a draft with a start category for which it is well formed.
-/

namespace ByExample

structure Production where
  category : Category
  operator : Terminal
  arguments : List Symbol
  deriving DecidableEq

namespace Production

def arity (production : Production) : Nat :=
  production.arguments.length

def symbols (production : Production) : List Symbol :=
  .category production.category :: .terminal production.operator :: production.arguments

end Production

structure Draft where
  terminals : NameTable
  categories : NameTable
  productions : List Production

namespace Draft

def empty : Draft where
  terminals := .empty
  categories := .empty
  productions := []

def terminal (draft : Draft) (name : String) : Terminal × Draft :=
  (⟨draft.terminals.idxOf name⟩, { draft with terminals := draft.terminals.insert name })

def category (draft : Draft) (name : String) : Category × Draft :=
  (⟨draft.categories.idxOf name⟩, { draft with categories := draft.categories.insert name })

def add (draft : Draft) (production : Production) : Draft :=
  { draft with productions := draft.productions ++ [production] }

def nameOf (draft : Draft) : Symbol → Except GrammarError String
  | .terminal operator =>
    match draft.terminals.name? operator.index with
    | some name => .ok name
    | none => .error (.unknownOperator operator)
  | .category category =>
    match draft.categories.name? category.index with
    | some name => .ok name
    | none => .error (.unknownCategory category)

/-- The name of the symbol, or its number if it has no name here. -/
def textOf (draft : Draft) (symbol : Symbol) : String :=
  match draft.nameOf symbol with
  | .ok name => name
  | .error _ => symbol.text

def Issued (draft : Draft) : Symbol → Prop
  | .terminal operator => operator.index < draft.terminals.size
  | .category category => category.index < draft.categories.size

instance (draft : Draft) (symbol : Symbol) : Decidable (draft.Issued symbol) :=
  match symbol with
  | .terminal operator => inferInstanceAs (Decidable (operator.index < draft.terminals.size))
  | .category category => inferInstanceAs (Decidable (category.index < draft.categories.size))

def ofCategory (draft : Draft) (category : Category) : List Production :=
  draft.productions.filter (·.category = category)

def allCategories (draft : Draft) : List Category :=
  (List.range draft.categories.size).map Category.mk

def allTerminals (draft : Draft) : List Terminal :=
  (List.range draft.terminals.size).map Terminal.mk

def allProductions (draft : Draft) : List Production :=
  draft.allCategories.flatMap draft.ofCategory

/-- A draft that makes a grammar with this start category. -/
structure WellFormed (draft : Draft) (start : Category) : Prop where
  start_issued : draft.Issued (.category start)
  symbols_issued : ∀ production ∈ draft.productions, ∀ symbol ∈ production.symbols,
    draft.Issued symbol
  operators_distinct : (draft.productions.map Production.operator).Nodup
  start_inhabited : draft.ofCategory start ≠ []
  arguments_inhabited : ∀ production ∈ draft.productions, ∀ category,
    .category category ∈ production.arguments → draft.ofCategory category ≠ []
  literals_bare : ∀ production ∈ draft.productions, ∀ operator,
    .terminal operator ∈ production.arguments →
    ∀ owner ∈ draft.productions, owner.operator = operator → owner.arguments = []

end Draft

structure Grammar extends Draft where
  start : Category
  wellFormed : toDraft.WellFormed start

namespace Grammar

def terminal? (grammar : Grammar) (name : String) : Option Terminal :=
  (grammar.terminals.idxOf? name).map Terminal.mk

def category? (grammar : Grammar) (name : String) : Option Category :=
  (grammar.categories.idxOf? name).map Category.mk

def productionsFor (grammar : Grammar) (category : Category) :
    Except GrammarError (List Production) :=
  if grammar.Issued (.category category) then .ok (grammar.ofCategory category)
  else .error (.unknownCategory category)

def productionOf (grammar : Grammar) (operator : Terminal) : Except GrammarError Production :=
  match grammar.productions.find? (·.operator = operator) with
  | some production => .ok production
  | none =>
    match grammar.nameOf (.terminal operator) with
    | .ok name => .error (.noProduction name)
    | .error error => .error error

def returnTypeOf (grammar : Grammar) (operator : Terminal) : Except GrammarError Category :=
  (grammar.productionOf operator).map Production.category

def argumentTypesOf (grammar : Grammar) (operator : Terminal) :
    Except GrammarError (List Symbol) :=
  (grammar.productionOf operator).map Production.arguments

def leafProductions (grammar : Grammar) : List Production :=
  grammar.allProductions.filter (·.arguments = [])

def innerProductions (grammar : Grammar) : List Production :=
  grammar.allProductions.filter (·.arguments ≠ [])

end Grammar

end ByExample
