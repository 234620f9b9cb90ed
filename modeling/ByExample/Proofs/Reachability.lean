import ByExample.Proofs.Filling
import Mathlib.Data.Fintype.EquivFin
import Mathlib.Data.Set.Finite.Basic
import Mathlib.Logic.Relation

/-!
Which categories of a grammar ask for which others. A category asks for the category arguments of
its productions, and reaches what it comes to by asking on. The start category of a grammar reaches
only categories of the grammar (`Reaches.issued`) that have a production (`Reaches.inhabited`), and
no others occur in the holes of its trees (`HoleAt.reaches`).
-/

namespace ByExample

namespace Draft

variable (draft : Draft)

def Asks (category argument : Category) : Prop :=
  ∃ production ∈ draft.productions,
    production.category = category ∧ .category argument ∈ production.arguments

/-- The second category comes from the first by any number of arguments, also by none. -/
def Reaches : Category → Category → Prop :=
  Relation.ReflTransGen draft.Asks

/-- The category reaches itself by one argument or more. -/
def Recurs (category : Category) : Prop :=
  Relation.TransGen draft.Asks category category

theorem mem_ofCategory_iff (category : Category) (production : Production) :
    production ∈ draft.ofCategory category ↔
      production ∈ draft.productions ∧ production.category = category := by
  simp [ofCategory]

theorem asks_of_production (production : Production) (member : production ∈ draft.productions)
    (argument : Category) (among : .category argument ∈ production.arguments) :
    draft.Asks production.category argument :=
  ⟨production, member, rfl, among⟩

end Draft

namespace Grammar

variable {grammar : Grammar} {category other : Category}

theorem Asks.issued (asks : grammar.Asks category other) : grammar.Issued (.category other) := by
  obtain ⟨production, member, _, among⟩ := asks
  exact grammar.argument_issued production member _ among

theorem Reaches.issued (reached : grammar.Reaches grammar.start category) :
    grammar.Issued (.category category) := by
  cases reached with
  | refl => exact grammar.wellFormed.start_issued
  | tail _ asks => exact Asks.issued asks

theorem Reaches.inhabited (reached : grammar.Reaches grammar.start category) :
    grammar.ofCategory category ≠ [] := by
  cases reached with
  | refl => exact grammar.wellFormed.start_inhabited
  | tail _ asks =>
    obtain ⟨production, member, _, among⟩ := asks
    exact grammar.wellFormed.arguments_inhabited production member _ among

theorem finite_reached (grammar : Grammar) :
    {category | grammar.Reaches grammar.start category}.Finite := by
  apply ((Set.finite_lt_nat grammar.categories.size).image Category.mk).subset
  intro category reached
  exact ⟨category.index, Reaches.issued reached, rfl⟩

abbrev Reached (grammar : Grammar) : Type :=
  {category // grammar.Reaches grammar.start category}

def Below (grammar : Grammar) (lower upper : grammar.Reached) : Prop :=
  Relation.TransGen grammar.Asks upper.1 lower.1

theorem wellFounded_below
    (straight : ∀ category, grammar.Reaches grammar.start category → ¬grammar.Recurs category) :
    WellFounded grammar.Below := by
  have : Finite grammar.Reached := grammar.finite_reached
  have : IsTrans grammar.Reached grammar.Below := ⟨fun _ _ _ lower upper => upper.trans lower⟩
  have : Std.Irrefl grammar.Below := ⟨fun category => straight category.1 category.2⟩
  exact Finite.wellFounded_of_trans_of_irrefl grammar.Below

theorem HoleAt.reaches {hole : Category} {path : Path} {tree : Tree}
    (holeAt : grammar.HoleAt hole path category tree) : grammar.Reaches category hole := by
  induction holeAt with
  | here => exact .refl
  | child production member _ _ _ _ argument _ expected _ ih =>
    exact .head (grammar.asks_of_production production member argument
      (List.mem_of_getElem? expected)) ih

end Grammar

end ByExample
