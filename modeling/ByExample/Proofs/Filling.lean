import ByExample.Proofs.Replacement

/-!
Filling the holes of a tree. A hole of a well-typed tree is reached through category arguments alone
(`Grammar.HoleAt`), so whatever program the tree yields has a program of the hole's category in its
place, and expanding the hole by the production of that program keeps it
(`Admits.exists_refinement`).
-/

namespace ByExample

theorem exists_getElem?_of_forall₂ {α β : Type} {R : α → β → Prop} {xs : List α} {ys : List β}
    (related : List.Forall₂ R xs ys) (position : Nat) (x : α) (found : xs[position]? = some x) :
    ∃ y, ys[position]? = some y ∧ R x y := by
  induction related generalizing position with
  | nil => simp at found
  | @cons _ y _ _ first _ ih =>
    cases position with
    | zero => exact ⟨y, rfl, Option.some.inj found ▸ first⟩
    | succ position => exact ih position found

theorem getElem?_set_of_getElem? {α : Type} {xs : List α} (position : Nat) (x new : α)
    (found : xs[position]? = some x) : (xs.set position new)[position]? = some new := by
  obtain ⟨below, _⟩ := List.getElem?_eq_some_iff.mp found
  simp [below]

theorem set_set_of_getElem? {α : Type} {xs : List α} (position : Nat) (x new : α)
    (found : xs[position]? = some x) : (xs.set position new).set position x = xs := by
  obtain ⟨below, rfl⟩ := List.getElem?_eq_some_iff.mp found
  simp

namespace Tree

/-- The second tree is the first one with its holes filled. -/
inductive Yields : Tree → Tree → Prop where
  | hole (category : Category) (filled : Tree) : Yields (.hole category) filled
  | node (operator : Terminal) (children others : List Tree)
      (below : List.Forall₂ Yields children others) :
      Yields (.node operator children) (.node operator others)

def Apart (left right : Tree) : Prop :=
  ∀ filled, left.Yields filled → ¬right.Yields filled

instance : Std.Symm Apart where
  symm _ _ apart filled fromRight fromLeft := apart filled fromLeft fromRight

theorem yields_refl (tree : Tree) : tree.Yields tree := by
  induction tree using Tree.induction with
  | hole category => exact .hole category _
  | node operator children ih =>
    exact .node operator children children (List.forall₂_same.mpr ih)

theorem symbol_of_yields (operator : Terminal) (children : List Tree) (filled : Tree)
    (yields : (node operator children).Yields filled) : filled.symbol = .terminal operator := by
  cases yields
  rfl

theorem eq_of_yields (tree filled : Tree) (complete : tree.isComplete = true)
    (yields : tree.Yields filled) : tree = filled := by
  induction tree using Tree.induction generalizing filled with
  | hole category => cases complete
  | node operator children ih =>
    obtain _ | ⟨_, _, others, below⟩ := yields
    rw [isComplete, allComplete_eq_all, List.all_eq_true] at complete
    have same := forall₂_imp_of_mem below fun child member other _ =>
      ih child member other (complete child member)
    rw [List.forall₂_eq_eq_eq] at same
    rw [same]

variable {part new tree changed filled : Tree} {path : Path}

theorem Yields.exists_get? (yields : tree.Yields filled) (found : tree.get? path = some part) :
    ∃ other, filled.get? path = some other ∧ part.Yields other := by
  induction path generalizing tree filled with
  | nil =>
    cases found
    exact ⟨filled, rfl, yields⟩
  | cons position path ih =>
    obtain ⟨operator, children, child, rfl, there, inner⟩ := exists_child_of_get? found
    obtain _ | ⟨_, _, others, below⟩ := yields
    obtain ⟨other, here, related⟩ := exists_getElem?_of_forall₂ below position child there
    obtain ⟨result, reached, fills⟩ := ih related inner
    exact ⟨result, (get?_node_cons_eq_some_iff ..).mpr ⟨other, here, reached⟩, fills⟩

theorem Replacement.symm (replacement : Replacement part new path tree changed) :
    Replacement new part path changed tree := by
  induction replacement with
  | root => exact .root
  | child operator children position path child changed found _ ih =>
    have back := Replacement.child operator (children.set position changed) position path changed
      child (getElem?_set_of_getElem? position child changed found) ih
    rwa [set_set_of_getElem? position child changed found] at back

theorem Replacement.yields_of_yields {category : Category}
    (replacement : Replacement (.hole category) new path tree changed)
    (yields : changed.Yields filled) : tree.Yields filled := by
  induction replacement generalizing filled with
  | root => exact .hole category filled
  | child operator children position path child changed found _ ih =>
    obtain _ | ⟨_, _, others, below⟩ := yields
    have back := forall₂_set below position changed child
      (getElem?_set_of_getElem? position child changed found) fun _ _ related => ih related
    rw [set_set_of_getElem? position child changed found] at back
    exact .node operator children others back

theorem Replacement.yields_of_get? {other : Tree}
    (replacement : Replacement part new path tree changed) (yields : tree.Yields filled)
    (found : filled.get? path = some other) (fills : new.Yields other) :
    changed.Yields filled := by
  induction replacement generalizing filled with
  | root => exact Option.some.inj found ▸ fills
  | child operator children position path child changed there _ ih =>
    obtain _ | ⟨_, _, others, below⟩ := yields
    apply Yields.node
    apply forall₂_set below position child changed there
    intro next here related
    rw [get?_node_cons, here] at found
    exact ih related found

theorem apart_of_operator_ne {leftChanged rightChanged : Tree} {category : Category}
    (first second : Production) (different : first.operator ≠ second.operator)
    (leftReplaced : Replacement (.hole category) (.expansion first) path tree leftChanged)
    (rightReplaced : Replacement (.hole category) (.expansion second) path tree rightChanged) :
    Apart leftChanged rightChanged := by
  intro filled fromLeft fromRight
  obtain ⟨_, there, leftYields⟩ := fromLeft.exists_get? leftReplaced.symm.get?_eq
  obtain ⟨_, same, rightYields⟩ := fromRight.exists_get? rightReplaced.symm.get?_eq
  cases there.symm.trans same
  have leftSymbol := symbol_of_yields _ _ _ leftYields
  have rightSymbol := symbol_of_yields _ _ _ rightYields
  exact different (Symbol.terminal.inj (leftSymbol.symm.trans rightSymbol))

end Tree

namespace Grammar

variable {grammar : Grammar} {category hole : Category} {path : Path} {tree filled part : Tree}

/-- In a tree of the category, the path leads through category arguments to a hole. -/
inductive HoleAt (grammar : Grammar) (hole : Category) : Path → Category → Tree → Prop where
  | here : HoleAt grammar hole [] hole (.hole hole)
  | child (production : Production) (member : production ∈ grammar.productions)
      (children : List Tree) (position : Nat) (path : Path) (child : Tree) (argument : Category)
      (found : children[position]? = some child)
      (expected : production.arguments[position]? = some (.category argument))
      (below : HoleAt grammar hole path argument child) :
      HoleAt grammar hole (position :: path) production.category
        (.node production.operator children)

theorem Admits.holeAt (admits : grammar.Admits category tree)
    (found : tree.get? path = some (.hole hole)) : grammar.HoleAt hole path category tree := by
  induction path generalizing category tree with
  | nil =>
    cases found
    cases admits.typed
    exact .here
  | cons position path ih =>
    obtain ⟨operator, children, child, rfl, there, inner⟩ := Tree.exists_child_of_get? found
    obtain ⟨production, member, rfl, rfl⟩ :=
      (grammar.typeOf_node_eq_ok_iff operator children category).mp admits.typed
    have filled := (grammar.wellTyped_node_iff production member children).mp admits.wellTyped
    obtain ⟨argument, expected, fills⟩ := exists_getElem?_of_forall₂ filled position child there
    cases argument with
    | terminal literal =>
      -- A literal's leaf has no hole in it.
      have leaf := (grammar.fills_literal_iff production member literal
        (List.mem_of_getElem? expected) child).mp fills
      subst leaf
      cases path <;> simp [Tree.get?, Tree.leaf, Tree.children] at inner
    | category argument =>
      obtain ⟨typed, wellTyped⟩ := (grammar.fills_category_iff child argument).mp fills
      exact .child production member children position path child argument there expected
        (ih ⟨wellTyped, typed⟩ inner)

theorem HoleAt.issued (holeAt : grammar.HoleAt hole path category tree)
    (known : grammar.Issued (.category category)) : grammar.Issued (.category hole) := by
  induction holeAt with
  | here => exact known
  | child production member _ position _ _ argument _ expected _ ih =>
    exact ih (grammar.argument_issued production member _ (List.mem_of_getElem? expected))

theorem Admits.productionsFor (admits : grammar.Admits grammar.start tree)
    (found : tree.get? path = some (.hole hole)) :
    grammar.productionsFor hole = .ok (grammar.ofCategory hole) := by
  have issued := (admits.holeAt found).issued grammar.wellFormed.start_issued
  simp [Grammar.productionsFor, issued]

theorem HoleAt.generates (holeAt : grammar.HoleAt hole path category tree)
    (generated : grammar.Generates category filled) (yields : tree.Yields filled)
    (found : filled.get? path = some part) : grammar.Generates hole part := by
  induction holeAt generalizing filled with
  | here => exact Option.some.inj found ▸ generated
  | child production member children position path child argument there expected _ ih =>
    obtain _ | ⟨_, _, others, below⟩ := yields
    obtain ⟨other, here, related⟩ := exists_getElem?_of_forall₂ below position child there
    rw [Tree.get?_node_cons, here] at found
    have supplied := (grammar.generates_node_iff production member others).mp generated
    obtain ⟨_, same, supplies⟩ := exists_getElem?_of_forall₂ supplied position other here
    cases expected.symm.trans same
    exact ih supplies related found

theorem expansion_yields (production : Production) (children : List Tree)
    (supplied : List.Forall₂ grammar.Supplies children production.arguments) :
    (Tree.expansion production).Yields (.node production.operator children) := by
  apply Tree.Yields.node
  rw [List.forall₂_map_left_iff]
  refine (supplied.imp fun child argument supplies => ?_).flip
  cases argument with
  | terminal operator =>
    have leaf : child = .leaf operator := supplies
    exact leaf ▸ Tree.yields_refl _
  | category argument => exact .hole argument child

theorem Admits.exists_refinement (admits : grammar.Admits category tree)
    (found : tree.get? path = some (.hole hole)) (generated : grammar.Generates category filled)
    (yields : tree.Yields filled) :
    ∃ production ∈ grammar.productions, production.category = hole ∧
      ∃ refined, Tree.Replacement (.hole hole) (.expansion production) path tree refined ∧
        refined.Yields filled := by
  obtain ⟨part, there, _⟩ := yields.exists_get? found
  -- The right production is the one that made what the program has in the place of the hole.
  obtain ⟨production, member, children, rfl, rfl, supplied⟩ :=
    ((admits.holeAt found).generates generated yields there).exists_production
  obtain ⟨refined, replacement⟩ := Tree.exists_replacement (.expansion production) found
  exact ⟨production, member, rfl, refined, replacement,
    replacement.yields_of_get? yields there (expansion_yields production children supplied)⟩

end Grammar

end ByExample
