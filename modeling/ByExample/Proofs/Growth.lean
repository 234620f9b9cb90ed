import ByExample.Proofs.Language
import ByExample.Search.BottomUp

/-!
What a round builds: the trees of its size that apply a production to trees of the bank, one in the
place of each argument (`mem_offers_iff`).
-/

namespace ByExample

theorem mem_tuplesOfWeight_iff {α : Type} (columns : List (List (Nat × α))) (total : Nat)
    (items : List α) :
    items ∈ tuplesOfWeight columns total ↔ (total, items) ∈ tuples columns := by
  simp only [tuplesOfWeight_eq, List.mem_filterMap, Option.ite_none_right_eq_some,
    Option.some.injEq]
  constructor
  · rintro ⟨⟨weight, others⟩, member, rfl, rfl⟩
    exact member
  · intro member
    exact ⟨(total, items), member, rfl, rfl⟩

namespace Bank

variable {ο : Type} [DecidableEq ο] [Hashable ο] (bank : Bank ο)

/-- The trees that the bank has for the place of an argument. -/
def Stocks (tree : Tree) : Symbol → Prop
  | .terminal operator => tree = .leaf operator
  | .category category => tree ∈ bank.componentsOf category

theorem mem_column_iff (argument : Symbol) (weight : Nat) (tree : Tree) :
    (weight, tree) ∈ bank.column argument ↔ weight = tree.size ∧ bank.Stocks tree argument := by
  cases argument with
  | terminal operator =>
    simp only [column, Stocks, List.mem_singleton, Prod.mk.injEq]
    constructor
    · rintro ⟨rfl, rfl⟩
      exact ⟨rfl, rfl⟩
    · rintro ⟨rfl, rfl⟩
      exact ⟨rfl, rfl⟩
  | category category =>
    simp only [column, Stocks, List.mem_map, Prod.mk.injEq]
    constructor
    · rintro ⟨_, member, rfl, rfl⟩
      exact ⟨rfl, member⟩
    · rintro ⟨rfl, member⟩
      exact ⟨tree, member, rfl, rfl⟩

theorem mem_tuples_column_iff (arguments : List Symbol) (weight : Nat) (children : List Tree) :
    (weight, children) ∈ tuples (arguments.map bank.column) ↔
      weight = Tree.sizeAll children ∧ List.Forall₂ bank.Stocks children arguments := by
  induction arguments generalizing weight children with
  | nil =>
    simp only [List.map_nil, tuples, List.mem_singleton, Prod.mk.injEq,
      List.forall₂_nil_right_iff, and_congr_left_iff]
    rintro rfl
    rfl
  | cons argument arguments ih =>
    simp only [List.map_cons, tuples, List.mem_flatMap, List.mem_map, Prod.mk.injEq]
    constructor
    · rintro ⟨⟨others, rest⟩, member, ⟨size, tree⟩, among, rfl, rfl⟩
      obtain ⟨rfl, stocked⟩ := (ih others rest).mp member
      obtain ⟨rfl, first⟩ := (bank.mem_column_iff argument size tree).mp among
      exact ⟨rfl, .cons first stocked⟩
    · rintro ⟨rfl, stocked⟩
      cases stocked with
      | @cons tree _ rest _ first later =>
        exact ⟨(Tree.sizeAll rest, rest), (ih _ _).mpr ⟨rfl, later⟩, (tree.size, tree),
          (bank.mem_column_iff argument _ tree).mpr ⟨rfl, first⟩, rfl, rfl⟩

theorem mem_combinations_iff (size : Nat) (positive : 0 < size) (production : Production)
    (tree : Tree) :
    tree ∈ bank.combinations size production ↔ tree.size = size ∧
      ∃ children, tree = .node production.operator children ∧
        List.Forall₂ bank.Stocks children production.arguments := by
  simp only [combinations, List.mem_map, mem_tuplesOfWeight_iff, mem_tuples_column_iff]
  constructor
  · rintro ⟨children, ⟨weight, stocked⟩, rfl⟩
    exact ⟨by rw [Tree.size]; omega, children, rfl, stocked⟩
  · rintro ⟨sized, children, rfl, stocked⟩
    rw [Tree.size] at sized
    exact ⟨children, ⟨by omega, stocked⟩, rfl⟩

theorem mem_offers_iff (grammar : Grammar) (size : Nat) (positive : 0 < size)
    (category : Category) (tree : Tree) :
    (category, tree) ∈ bank.offers grammar size ↔ tree.size = size ∧
      ∃ production ∈ grammar.productions, production.category = category ∧
        ∃ children, tree = .node production.operator children ∧
          List.Forall₂ bank.Stocks children production.arguments := by
  simp only [offers, List.mem_flatMap, List.mem_map, mem_combinations_iff bank size positive,
    Draft.mem_allProductions, Prod.mk.injEq]
  constructor
  · rintro ⟨production, ⟨member, _⟩, _, ⟨sized, built⟩, rfl, rfl⟩
    exact ⟨sized, production, member, rfl, built⟩
  · rintro ⟨sized, production, member, rfl, built⟩
    exact ⟨production, ⟨member, grammar.category_issued production member⟩, tree,
      ⟨sized, built⟩, rfl, rfl⟩

end Bank

end ByExample
