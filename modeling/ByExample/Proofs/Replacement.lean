import ByExample.Proofs.Language

/-!
Replacing a node by another tree, as a relation that follows the path from the root. Filling a hole
with a well-typed tree of its category leaves a tree well typed and of the type it had, and what the
first hole is refined to is such a tree.
-/

namespace ByExample

theorem forall₂_set {α β : Type} {R : α → β → Prop} {xs : List α} {ys : List β}
    (related : List.Forall₂ R xs ys) (position : Nat) (x new : α)
    (found : xs[position]? = some x) (kept : ∀ y, ys[position]? = some y → R x y → R new y) :
    List.Forall₂ R (xs.set position new) ys := by
  induction related generalizing position with
  | nil => simp at found
  | cons first rest ih =>
    cases position with
    | zero =>
      have same := Option.some.inj found
      exact .cons (kept _ rfl (same ▸ first)) rest
    | succ position => exact .cons first (ih position found kept)

namespace Tree

/-- The path leads to `part` in the first tree and to `new` in the second; elsewhere the two trees
agree. -/
inductive Replacement (part new : Tree) : Path → Tree → Tree → Prop where
  | root : Replacement part new [] part new
  | child (operator : Terminal) (children : List Tree) (position : Nat) (path : Path)
      (child changed : Tree) (found : children[position]? = some child)
      (below : Replacement part new path child changed) :
      Replacement part new (position :: path) (.node operator children)
        (.node operator (children.set position changed))

variable {part new tree changed : Tree} {path : Path}

theorem Replacement.get?_eq (replacement : Replacement part new path tree changed) :
    tree.get? path = some part := by
  induction replacement with
  | root => rfl
  | child operator children position path child changed found _ ih =>
    simp [get?, Tree.children, found, ih]

theorem Replacement.replace?_eq (replacement : Replacement part new path tree changed) :
    tree.replace? path new = some changed := by
  induction replacement with
  | root => simp [replace?]
  | child operator children position path child changed found _ ih =>
    simp [replace?, found, ih]

theorem exists_replacement (new : Tree) (found : tree.get? path = some part) :
    ∃ changed, Replacement part new path tree changed := by
  induction path generalizing tree with
  | nil =>
    cases Option.some.inj found
    exact ⟨new, .root⟩
  | cons position path ih =>
    obtain ⟨operator, children, child, rfl, there, inner⟩ := exists_child_of_get? found
    obtain ⟨changed, below⟩ := ih inner
    exact ⟨_, .child operator children position path child changed there below⟩

theorem replacement_iff : Replacement part new path tree changed ↔
    tree.get? path = some part ∧ tree.replace? path new = some changed := by
  constructor
  · intro replacement
    exact ⟨replacement.get?_eq, replacement.replace?_eq⟩
  · rintro ⟨found, replaced⟩
    obtain ⟨other, replacement⟩ := exists_replacement new found
    have same : some other = some changed := replacement.replace?_eq.symm.trans replaced
    cases same
    exact replacement

theorem exists_of_firstHoleFrom? (position : Nat) (trees : List Tree) (path : Path)
    (category : Category) (found : firstHoleFrom? position trees = some (path, category)) :
    ∃ (index : Nat) (rest : Path) (child : Tree), path = (position + index) :: rest ∧
      trees[index]? = some child ∧ child.firstHole? = some (rest, category) := by
  induction trees generalizing position with
  | nil => simp [firstHoleFrom?] at found
  | cons child others ih =>
    cases first : child.firstHole? with
    | some hole =>
      obtain ⟨rest, inner⟩ := hole
      simp only [firstHoleFrom?, first, Option.some.injEq, Prod.mk.injEq] at found
      obtain ⟨rfl, rfl⟩ := found
      exact ⟨0, rest, child, rfl, rfl, first⟩
    | none =>
      simp only [firstHoleFrom?, first] at found
      obtain ⟨index, rest, later, rfl, there, hole⟩ := ih (position + 1) found
      exact ⟨index + 1, rest, later, by simp [Nat.add_assoc, Nat.add_comm 1], there, hole⟩

theorem get?_of_firstHole? (tree : Tree) (path : Path) (category : Category)
    (found : tree.firstHole? = some (path, category)) : tree.get? path = some (.hole category) := by
  induction tree using Tree.induction generalizing path with
  | hole other =>
    simp only [firstHole?, Option.some.injEq, Prod.mk.injEq] at found
    obtain ⟨rfl, rfl⟩ := found
    rfl
  | node operator children ih =>
    obtain ⟨index, rest, child, rfl, there, hole⟩ :=
      exists_of_firstHoleFrom? 0 children path category found
    have below := ih child (List.mem_of_getElem? there) rest hole
    rw [Nat.zero_add, get?_node_cons_eq_some_iff]
    exact ⟨child, there, below⟩

end Tree

namespace Grammar

variable {grammar : Grammar}

theorem fits_hole_iff (category : Category) (argument : Symbol) :
    grammar.fits (.hole category) argument = true ↔ argument = .category category := by
  cases argument with
  | terminal operator => simp [fits, Tree.symbol]
  | category other => simp [fits, typeOf, eq_comm]

/-- A tree that is as good as another one in every place: it is well typed, of the same type, and
fits wherever the other one does. -/
structure Substitutes (grammar : Grammar) (changed tree : Tree) : Prop where
  wellTyped : grammar.wellTyped changed = true
  typed : grammar.typeOf changed = grammar.typeOf tree
  fits : ∀ argument, grammar.fits tree argument = true → grammar.fits changed argument = true

theorem substitutes_hole {category : Category} {new : Tree}
    (wellTyped : grammar.wellTyped new = true) (typed : grammar.typeOf new = .ok category) :
    grammar.Substitutes new (.hole category) where
  wellTyped := wellTyped
  typed := typed
  fits argument fitting := by
    obtain rfl := (fits_hole_iff category argument).mp fitting
    simp [Grammar.fits, typed]

theorem wellTyped_set (production : Production) (member : production ∈ grammar.productions)
    (children : List Tree) (position : Nat) (child changed : Tree)
    (found : children[position]? = some child) (substitutes : grammar.Substitutes changed child)
    (wellTyped : grammar.wellTyped (.node production.operator children) = true) :
    grammar.wellTyped (.node production.operator (children.set position changed)) = true := by
  rw [grammar.wellTyped_node_iff production member] at wellTyped ⊢
  apply forall₂_set wellTyped position child changed found
  intro argument _ filled
  exact ⟨substitutes.fits argument filled.1, substitutes.wellTyped⟩

theorem substitutes_of_replacement {category : Category} {new tree changed : Tree} {path : Path}
    (newTyped : grammar.wellTyped new = true) (ofCategory : grammar.typeOf new = .ok category)
    (replacement : Tree.Replacement (.hole category) new path tree changed)
    (wellTyped : grammar.wellTyped tree = true) : grammar.Substitutes changed tree := by
  induction replacement with
  | root => exact substitutes_hole newTyped ofCategory
  | child operator children position path child changed found _ ih =>
    have among : child ∈ children := List.mem_of_getElem? found
    obtain ⟨production, member, rfl, filled⟩ :=
      grammar.exists_production_of_wellTyped operator children wellTyped
        (List.ne_nil_of_mem among)
    obtain ⟨argument, _, childFilled⟩ := exists_of_forall₂_of_mem filled child among
    exact
      { wellTyped :=
          wellTyped_set production member children position child changed found
            (ih childFilled.2) wellTyped
        typed := rfl
        fits := fun _ fitting => fitting }

theorem fills_ofSymbol (production : Production) (member : production ∈ grammar.productions)
    (argument : Symbol) (among : argument ∈ production.arguments) :
    grammar.Fills (.ofSymbol argument) argument := by
  cases argument with
  | terminal operator =>
    exact (grammar.fills_literal_iff production member operator among _).mpr rfl
  | category category => simp [fills_category_iff, Tree.ofSymbol, typeOf, Grammar.wellTyped]

theorem wellTyped_expansion (production : Production) (member : production ∈ grammar.productions) :
    grammar.wellTyped (.expansion production) = true := by
  rw [Tree.expansion, grammar.wellTyped_node_iff production member, List.forall₂_map_left_iff,
    List.forall₂_same]
  exact fills_ofSymbol production member

/-- Expanding a hole by a production of its category leaves a tree what it was. -/
theorem Admits.expanded {category : Category} {tree refined : Tree} {path : Path}
    (admits : grammar.Admits category tree) (production : Production)
    (member : production ∈ grammar.productions)
    (replacement : Tree.Replacement (.hole production.category) (.expansion production) path tree
      refined) : grammar.Admits category refined := by
  have substitutes := substitutes_of_replacement (grammar.wellTyped_expansion production member)
    (grammar.typeOf_node production member _) replacement admits.wellTyped
  exact ⟨substitutes.wellTyped, substitutes.typed.trans admits.typed⟩

end Grammar

end ByExample
