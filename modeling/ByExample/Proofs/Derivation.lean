import ByExample.Proofs.Replacement
import Mathlib.Logic.Relation

/-!
Typing decides derivability. The well-typed trees of a category, with or without holes, are the
trees that come out of a lone hole of the category when holes are expanded one after the other, in
any order (`admits_iff_derives`).
-/

namespace ByExample

namespace Tree

variable {tree part : Tree} {path : Path}

theorem isComplete_of_get? (complete : tree.isComplete = true)
    (found : tree.get? path = some part) : part.isComplete = true := by
  induction path generalizing tree with
  | nil => exact Option.some.inj found ▸ complete
  | cons position path ih =>
    obtain ⟨operator, children, child, rfl, there, below⟩ := exists_child_of_get? found
    rw [isComplete, allComplete_eq_all, List.all_eq_true] at complete
    exact ih (complete child (List.mem_of_getElem? there)) below

theorem isComplete_iff (tree : Tree) :
    tree.isComplete = true ↔ ∀ path category, tree.get? path ≠ some (.hole category) := by
  constructor
  · intro complete path category found
    cases isComplete_of_get? complete found
  · intro absent
    cases found : tree.firstHole? with
    | none => exact tree.firstHole?_eq_none.mp found
    | some hole =>
      exact absurd (tree.get?_of_firstHole? hole.1 hole.2 found) (absent hole.1 hole.2)

end Tree

namespace Grammar

/-- One step of a derivation: some hole is expanded by a production of its category. -/
def Expands (grammar : Grammar) (tree refined : Tree) : Prop :=
  ∃ path category, tree.get? path = some (.hole category) ∧
    ∃ production ∈ grammar.ofCategory category,
      tree.replace? path (.expansion production) = some refined

def Derives (grammar : Grammar) : Tree → Tree → Prop :=
  Relation.ReflTransGen grammar.Expands

variable {grammar : Grammar} {category : Category} {tree refined : Tree}

theorem expands_iff : grammar.Expands tree refined ↔
    ∃ path, ∃ production ∈ grammar.productions,
      Tree.Replacement (.hole production.category) (.expansion production) path tree refined := by
  simp only [Expands, Draft.ofCategory, List.mem_filter, decide_eq_true_eq, Tree.replacement_iff]
  constructor
  · rintro ⟨path, _, found, production, ⟨member, rfl⟩, replaced⟩
    exact ⟨path, production, member, found, replaced⟩
  · rintro ⟨path, production, member, found, replaced⟩
    exact ⟨path, production.category, found, production, ⟨member, rfl⟩, replaced⟩

theorem Admits.expands (admits : grammar.Admits category tree)
    (step : grammar.Expands tree refined) : grammar.Admits category refined := by
  obtain ⟨_, production, member, replacement⟩ := expands_iff.mp step
  exact admits.expanded production member replacement

theorem expands_hole (production : Production) (member : production ∈ grammar.productions) :
    grammar.Expands (.hole production.category) (.expansion production) :=
  expands_iff.mpr ⟨[], production, member, .root⟩

theorem Expands.node (step : grammar.Expands tree refined) (operator : Terminal)
    (before after : List Tree) :
    grammar.Expands (.node operator (before ++ tree :: after))
      (.node operator (before ++ refined :: after)) := by
  obtain ⟨path, production, member, replacement⟩ := expands_iff.mp step
  have there : (before ++ tree :: after)[before.length]? = some tree := by simp
  have lifted := Tree.Replacement.child operator _ _ path tree refined there replacement
  rw [List.set_append_right _ _ (Nat.le_refl _), Nat.sub_self, List.set_cons_zero] at lifted
  exact expands_iff.mpr ⟨_, production, member, lifted⟩

theorem derives_node (operator : Terminal) (before origins children : List Tree)
    (derived : List.Forall₂ grammar.Derives origins children) :
    grammar.Derives (.node operator (before ++ origins)) (.node operator (before ++ children)) := by
  induction derived generalizing before with
  | nil => exact .refl
  | @cons origin child origins children first _ ih =>
    have head : grammar.Derives (.node operator (before ++ origin :: origins))
        (.node operator (before ++ child :: origins)) :=
      first.lift (fun tree => Tree.node operator (before ++ tree :: origins))
        fun _ _ step => step.node operator before origins
    have rest := ih (before ++ [child])
    simp only [List.append_assoc, List.singleton_append] at rest
    exact head.trans rest

theorem Admits.derives (admits : grammar.Admits category tree) :
    grammar.Derives (.hole category) tree := by
  induction tree using Tree.induction generalizing category with
  | hole other =>
    cases admits.typed
    exact .refl
  | node operator children ih =>
    obtain ⟨production, member, rfl, rfl⟩ :=
      (grammar.typeOf_node_eq_ok_iff operator children category).mp admits.typed
    have filled := (grammar.wellTyped_node_iff production member children).mp admits.wellTyped
    have derived : List.Forall₂ grammar.Derives (production.arguments.map Tree.ofSymbol)
        children := by
      rw [List.forall₂_map_left_iff]
      refine (forall₂_imp_of_mem filled fun child among argument expected fills => ?_).flip
      cases argument with
      | terminal literal =>
        -- The expansion has put the literal's leaf in its place already.
        rw [(grammar.fills_literal_iff production member literal expected child).mp fills]
        exact .refl
      | category argument =>
        obtain ⟨typed, wellTyped⟩ := (grammar.fills_category_iff child argument).mp fills
        exact ih child among ⟨wellTyped, typed⟩
    exact (derives_node production.operator [] _ children derived).head
      (expands_hole production member)

/-- The typing accepts a tree for a category exactly if the tree can be derived from the hole of the
category. If it is also complete, the derivation has left no hole. -/
theorem admits_iff_derives (grammar : Grammar) (category : Category) (tree : Tree) :
    (grammar.wellTyped tree = true ∧ grammar.typeOf tree = .ok category ↔
      grammar.Derives (.hole category) tree) ∧
    (tree.isComplete = true ↔ ∀ path hole, tree.get? path ≠ some (.hole hole)) := by
  refine ⟨⟨?_, ?_⟩, tree.isComplete_iff⟩
  · rintro ⟨wellTyped, typed⟩
    exact Admits.derives ⟨wellTyped, typed⟩
  · intro derived
    have admits : grammar.Admits category tree := by
      induction derived with
      | refl => exact ⟨by rw [wellTyped], rfl⟩
      | tail _ step ih => exact ih.expands step
    exact ⟨admits.wellTyped, admits.typed⟩

end Grammar

end ByExample
