import ByExample.Grammar.Build
import ByExample.Typing
import Mathlib.Data.List.Forall2
import Mathlib.Data.List.Nodup

/-!
The language of a grammar: the complete, well-typed trees of each category. Such a tree is a
production's operator over trees that supply the production's arguments (`generates_node_iff`), and
there is no other (`Generates.exists_production`).
-/

namespace ByExample

theorem forall₂_congr_of_mem {α β : Type} {R S : α → β → Prop} {ys : List β}
    (same : ∀ y ∈ ys, ∀ x, R x y ↔ S x y) {xs : List α} :
    List.Forall₂ R xs ys ↔ List.Forall₂ S xs ys := by
  induction ys generalizing xs with
  | nil => simp
  | cons y ys ih =>
    have rest := @ih fun other member => same other (List.mem_cons_of_mem y member)
    simp only [List.forall₂_cons_right_iff, same y List.mem_cons_self, rest]

theorem exists_of_forall₂_of_mem {α β : Type} {R : α → β → Prop} {xs : List α} {ys : List β}
    (related : List.Forall₂ R xs ys) (x : α) (member : x ∈ xs) : ∃ y ∈ ys, R x y := by
  induction related with
  | nil => cases member
  | cons first _ ih =>
    rcases List.mem_cons.mp member with rfl | later
    · exact ⟨_, List.mem_cons_self, first⟩
    · obtain ⟨y, among, found⟩ := ih later
      exact ⟨y, List.mem_cons_of_mem _ among, found⟩

theorem forall₂_imp_of_mem {α β : Type} {R S : α → β → Prop} {xs : List α} {ys : List β}
    (related : List.Forall₂ R xs ys) (implied : ∀ x ∈ xs, ∀ y ∈ ys, R x y → S x y) :
    List.Forall₂ S xs ys := by
  induction related with
  | nil => exact .nil
  | cons first _ ih =>
    refine .cons (implied _ List.mem_cons_self _ List.mem_cons_self first) (ih ?_)
    intro x xMember y yMember
    exact implied x (List.mem_cons_of_mem _ xMember) y (List.mem_cons_of_mem _ yMember)

theorem exists_forall₂ {α β : Type} {R : α → β → Prop} {xs : List α}
    (some : ∀ x ∈ xs, ∃ y, R x y) : ∃ ys, List.Forall₂ R xs ys := by
  induction xs with
  | nil => exact ⟨[], .nil⟩
  | cons x xs ih =>
    obtain ⟨y, first⟩ := some x List.mem_cons_self
    obtain ⟨ys, rest⟩ := ih fun other member => some other (List.mem_cons_of_mem x member)
    exact ⟨y :: ys, .cons first rest⟩

theorem Draft.nodup_allCategories (draft : Draft) : draft.allCategories.Nodup := by
  apply List.Nodup.of_map Category.index
  simpa [allCategories, Function.comp_def] using List.nodup_range

namespace Grammar

variable (grammar : Grammar)

theorem category_issued (production : Production) (member : production ∈ grammar.productions) :
    grammar.Issued (.category production.category) :=
  grammar.wellFormed.symbols_issued production member _ List.mem_cons_self

theorem operator_issued (production : Production) (member : production ∈ grammar.productions) :
    grammar.Issued (.terminal production.operator) :=
  grammar.wellFormed.symbols_issued production member _ (List.mem_cons_of_mem _ List.mem_cons_self)

theorem argument_issued (production : Production) (member : production ∈ grammar.productions)
    (argument : Symbol) (among : argument ∈ production.arguments) : grammar.Issued argument :=
  grammar.wellFormed.symbols_issued production member argument
    (List.mem_cons_of_mem _ (List.mem_cons_of_mem _ among))

theorem eq_of_operator_eq (left right : Production) (leftMember : left ∈ grammar.productions)
    (rightMember : right ∈ grammar.productions) (same : left.operator = right.operator) :
    left = right :=
  List.inj_on_of_nodup_map grammar.wellFormed.operators_distinct leftMember rightMember same

theorem productionOf_eq_ok_iff (operator : Terminal) (production : Production) :
    grammar.productionOf operator = .ok production ↔
      production ∈ grammar.productions ∧ production.operator = operator := by
  cases found : grammar.productions.find? (·.operator = operator) with
  | some owner =>
    have owned := List.mem_of_find?_eq_some found
    have named : owner.operator = operator := by simpa using List.find?_some found
    simp only [productionOf, found, Except.ok.injEq]
    constructor
    · rintro rfl
      exact ⟨owned, named⟩
    · rintro ⟨member, same⟩
      exact grammar.eq_of_operator_eq owner production owned member (named.trans same.symm)
  | none =>
    have absent : ¬(production ∈ grammar.productions ∧ production.operator = operator) := by
      rintro ⟨member, same⟩
      simpa [same] using List.find?_eq_none.mp found production member
    simp only [productionOf, found, absent, iff_false]
    cases grammar.nameOf (.terminal operator) <;> simp

theorem productionOf_operator (production : Production)
    (member : production ∈ grammar.productions) :
    grammar.productionOf production.operator = .ok production :=
  (grammar.productionOf_eq_ok_iff _ production).mpr ⟨member, rfl⟩

theorem mem_of_productionsFor (category : Category) (productions : List Production)
    (listed : grammar.productionsFor category = .ok productions) (production : Production)
    (among : production ∈ productions) :
    production ∈ grammar.productions ∧ production.category = category := by
  simp only [productionsFor] at listed
  split at listed
  · cases listed
    simpa [Draft.ofCategory] using among
  · cases listed

theorem typeOf_node (production : Production) (member : production ∈ grammar.productions)
    (children : List Tree) :
    grammar.typeOf (.node production.operator children) = .ok production.category := by
  simp [typeOf, returnTypeOf, grammar.productionOf_operator production member, Except.map]

theorem typeOf_node_eq_ok_iff (operator : Terminal) (children : List Tree) (category : Category) :
    grammar.typeOf (.node operator children) = .ok category ↔
      ∃ production ∈ grammar.productions,
        production.operator = operator ∧ production.category = category := by
  constructor
  · intro typed
    cases found : grammar.productionOf operator with
    | error error => simp [typeOf, returnTypeOf, found, Except.map] at typed
    | ok production =>
      obtain ⟨member, named⟩ := (grammar.productionOf_eq_ok_iff operator production).mp found
      have same : production.category = category := by
        simpa [typeOf, returnTypeOf, found, Except.map] using typed
      exact ⟨production, member, named, same⟩
  · rintro ⟨production, member, rfl, rfl⟩
    exact grammar.typeOf_node production member children

/-- What the typing asks of the child in an argument's place. -/
def Fills (child : Tree) (argument : Symbol) : Prop :=
  grammar.fits child argument = true ∧ grammar.wellTyped child = true

theorem allWellTyped_iff (children : List Tree) (arguments : List Symbol) :
    grammar.allWellTyped children arguments = true ↔
      List.Forall₂ grammar.Fills children arguments := by
  induction children generalizing arguments with
  | nil => cases arguments <;> simp [allWellTyped]
  | cons child rest ih =>
    cases arguments with
    | nil => simp [allWellTyped]
    | cons argument arguments => simp [allWellTyped, ih, Fills]

theorem wellTyped_node_iff (production : Production) (member : production ∈ grammar.productions)
    (children : List Tree) :
    grammar.wellTyped (.node production.operator children) = true ↔
      List.Forall₂ grammar.Fills children production.arguments := by
  simp [wellTyped, argumentTypesOf, grammar.productionOf_operator production member, Except.map,
    allWellTyped_iff]

theorem wellTyped_bare_iff (operator : Terminal)
    (bare : ∀ production ∈ grammar.productions, production.operator ≠ operator)
    (children : List Tree) :
    grammar.wellTyped (.node operator children) = true ↔ children = [] := by
  cases found : grammar.productionOf operator with
  | ok production =>
    obtain ⟨member, named⟩ := (grammar.productionOf_eq_ok_iff operator production).mp found
    exact absurd named (bare production member)
  | error error => simp [wellTyped, argumentTypesOf, found, Except.map]

theorem exists_production_of_wellTyped (operator : Terminal) (children : List Tree)
    (wellTyped : grammar.wellTyped (.node operator children) = true) (some : children ≠ []) :
    ∃ production ∈ grammar.productions, production.operator = operator ∧
      List.Forall₂ grammar.Fills children production.arguments := by
  by_cases owned : ∃ production ∈ grammar.productions, production.operator = operator
  · obtain ⟨production, member, rfl⟩ := owned
    exact ⟨production, member, rfl,
      (grammar.wellTyped_node_iff production member children).mp wellTyped⟩
  · have bare : ∀ production ∈ grammar.productions, production.operator ≠ operator :=
      fun production member same => owned ⟨production, member, same⟩
    exact absurd ((grammar.wellTyped_bare_iff operator bare children).mp wellTyped) some

theorem fills_category_iff (child : Tree) (category : Category) :
    grammar.Fills child (.category category) ↔
      grammar.typeOf child = .ok category ∧ grammar.wellTyped child = true := by
  cases found : grammar.typeOf child <;> simp [Fills, fits, found]

theorem fills_literal_iff (production : Production) (member : production ∈ grammar.productions)
    (operator : Terminal) (literal : .terminal operator ∈ production.arguments) (child : Tree) :
    grammar.Fills child (.terminal operator) ↔ child = .leaf operator := by
  cases child with
  | hole category => simp [Fills, fits, Tree.symbol, Tree.leaf]
  | node other children =>
    simp only [Fills, fits, Tree.symbol, Tree.leaf, decide_eq_true_eq, Symbol.terminal.injEq,
      Tree.node.injEq, and_congr_right_iff]
    rintro rfl
    -- The literal takes no arguments, whether it has a production of its own or not.
    by_cases owned : ∃ owner ∈ grammar.productions, owner.operator = other
    · obtain ⟨owner, ownerMember, rfl⟩ := owned
      have empty := grammar.wellFormed.literals_bare production member owner.operator literal
        owner ownerMember rfl
      simp [grammar.wellTyped_node_iff owner ownerMember, empty]
    · exact grammar.wellTyped_bare_iff other
        (fun owner ownerMember same => owned ⟨owner, ownerMember, same⟩) children

/-- The well-typed trees of a category, with or without holes. -/
structure Admits (category : Category) (tree : Tree) : Prop where
  wellTyped : grammar.wellTyped tree = true
  typed : grammar.typeOf tree = .ok category

/-- The complete, well-typed trees of a category. -/
structure Generates (category : Category) (tree : Tree) : Prop
    extends grammar.Admits category tree where
  complete : tree.isComplete = true

/-- The complete trees for the place of an argument. -/
def Supplies (tree : Tree) : Symbol → Prop
  | .terminal operator => tree = .leaf operator
  | .category category => grammar.Generates category tree

theorem supplies_iff (production : Production) (member : production ∈ grammar.productions)
    (argument : Symbol) (among : argument ∈ production.arguments) (tree : Tree) :
    grammar.Supplies tree argument ↔ tree.isComplete = true ∧ grammar.Fills tree argument := by
  cases argument with
  | terminal operator =>
    rw [grammar.fills_literal_iff production member operator among, Supplies]
    constructor
    · rintro rfl
      exact ⟨rfl, rfl⟩
    · exact And.right
  | category category =>
    rw [fills_category_iff, Supplies]
    constructor
    · intro generated
      exact ⟨generated.complete, generated.typed, generated.wellTyped⟩
    · rintro ⟨complete, typed, wellTyped⟩
      exact ⟨⟨wellTyped, typed⟩, complete⟩

theorem generates_node_iff (production : Production) (member : production ∈ grammar.productions)
    (children : List Tree) :
    grammar.Generates production.category (.node production.operator children) ↔
      List.Forall₂ grammar.Supplies children production.arguments := by
  have split : List.Forall₂ grammar.Supplies children production.arguments ↔
      (∀ child ∈ children, child.isComplete = true) ∧
        List.Forall₂ grammar.Fills children production.arguments := by
    rw [← List.forall₂_and_left]
    exact forall₂_congr_of_mem fun argument among tree =>
      grammar.supplies_iff production member argument among tree
  have complete : (Tree.node production.operator children).isComplete = true ↔
      ∀ child ∈ children, child.isComplete = true := by
    simp [Tree.isComplete, Tree.allComplete_eq_all]
  rw [split, ← complete, ← grammar.wellTyped_node_iff production member]
  constructor
  · intro generated
    exact ⟨generated.complete, generated.wellTyped⟩
  · rintro ⟨whole, typed⟩
    exact ⟨⟨typed, grammar.typeOf_node production member children⟩, whole⟩

variable {grammar}

theorem Generates.exists_production {category : Category} {tree : Tree}
    (generated : grammar.Generates category tree) :
    ∃ production ∈ grammar.productions, ∃ children, production.category = category ∧
      tree = .node production.operator children ∧
      List.Forall₂ grammar.Supplies children production.arguments := by
  cases tree with
  | hole other => cases generated.complete
  | node operator children =>
    obtain ⟨production, member, rfl, rfl⟩ :=
      (grammar.typeOf_node_eq_ok_iff operator children category).mp generated.typed
    exact ⟨production, member, children, rfl, rfl,
      (grammar.generates_node_iff production member children).mp generated⟩

theorem Generates.issued {category : Category} {tree : Tree}
    (generated : grammar.Generates category tree) : grammar.Issued (.category category) := by
  obtain ⟨production, member, _, rfl, _⟩ := generated.exists_production
  exact grammar.category_issued production member

end Grammar

end ByExample
