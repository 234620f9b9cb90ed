import ByExample.Proofs.Derivation
import ByExample.Proofs.Enumeration
import ByExample.Proofs.Focus
import ByExample.Proofs.Reachability
import Mathlib.Data.Set.Finite.List

/-!
When the refining search comes to an end. If no category that the start category reaches recurs, the
start category has finitely many trees, holes and all (`finite_admitted`), and the search takes off
no tree twice. If one recurs, then some tree that waits has a hole of a category that reaches the
recurring one, wherever that hole stands among the others (`Endless`).
-/

namespace ByExample

theorem finite_forall₂ {α β : Type} {R : α → β → Prop} (ys : List β)
    (finite : ∀ y ∈ ys, {x | R x y}.Finite) : {xs | List.Forall₂ R xs ys}.Finite := by
  induction ys with
  | nil => simp
  | cons y ys ih =>
    have first := finite y List.mem_cons_self
    have rest := ih fun other member => finite other (List.mem_cons_of_mem y member)
    apply ((first.prod rest).image fun pair => pair.1 :: pair.2).subset
    rintro _ (_ | ⟨related, others⟩)
    exact ⟨(_, _), ⟨related, others⟩, rfl⟩

namespace Tree

theorem get?_append (tree part : Tree) (path below : Path) (found : tree.get? path = some part) :
    tree.get? (path ++ below) = part.get? below := by
  induction path generalizing tree with
  | nil => rw [List.nil_append, Option.some.inj found]
  | cons position path ih =>
    obtain ⟨operator, children, child, rfl, there, inner⟩ := exists_child_of_get? found
    rw [List.cons_append, get?_node_cons, there]
    exact ih child inner

theorem Replacement.get?_expansion {part tree refined : Tree} {path : Path}
    {production : Production}
    (replacement : Replacement part (.expansion production) path tree refined) (position : Nat)
    (category : Category)
    (expected : production.arguments[position]? = some (.category category)) :
    refined.get? (path ++ [position]) = some (.hole category) := by
  rw [refined.get?_append _ path [position] replacement.symm.get?_eq]
  simp [get?, expansion, children, ofSymbol, expected]

theorem eq_nil_of_get?_hole {category : Category} {part : Tree} {path : Path}
    (found : (hole category).get? path = some part) : path = [] := by
  cases path with
  | nil => rfl
  | cons position path => simp [get?, children] at found

theorem diverge_of_holes {left right : Category} {tree : Tree} {path other : Path}
    (found : tree.get? path = some (.hole left)) (found' : tree.get? other = some (.hole right))
    (different : other ≠ path) : Diverge path other := by
  constructor
  · rintro ⟨rest, rfl⟩
    rw [tree.get?_append _ path rest found] at found'
    rw [eq_nil_of_get?_hole found', List.append_nil] at different
    exact different rfl
  · rintro ⟨rest, rfl⟩
    rw [tree.get?_append _ other rest found'] at found
    rw [eq_nil_of_get?_hole found, List.append_nil] at different
    exact different rfl

theorem Replacement.get?_of_ne {hole category : Category} {new tree changed : Tree}
    {path other : Path} (replacement : Replacement (.hole hole) new path tree changed)
    (found : tree.get? other = some (.hole category)) (different : other ≠ path) :
    changed.get? other = some (.hole category) := by
  have diverge := diverge_of_holes replacement.get?_eq found different
  rw [replacement.get?_of_diverge other diverge, found]

end Tree

namespace Grammar

variable {grammar : Grammar}

theorem finite_fillings (production : Production) (member : production ∈ grammar.productions)
    (finite : ∀ argument, grammar.Asks production.category argument →
      {tree | grammar.Admits argument tree}.Finite) :
    {children | List.Forall₂ grammar.Fills children production.arguments}.Finite := by
  refine finite_forall₂ production.arguments fun argument among => ?_
  cases argument with
  | terminal operator =>
    apply (Set.finite_singleton (Tree.leaf operator)).subset
    intro child fills
    exact (grammar.fills_literal_iff production member operator among child).mp fills
  | category argument =>
    apply (finite argument (grammar.asks_of_production production member argument among)).subset
    intro child fills
    obtain ⟨typed, wellTyped⟩ := (grammar.fills_category_iff child argument).mp fills
    exact ⟨wellTyped, typed⟩

theorem finite_admitted_of_asked (category : Category)
    (finite : ∀ argument, grammar.Asks category argument →
      {tree | grammar.Admits argument tree}.Finite) :
    {tree | grammar.Admits category tree}.Finite := by
  have nodes : (⋃ production ∈ {production | production ∈ grammar.ofCategory category},
      Tree.node production.operator ''
        {children | List.Forall₂ grammar.Fills children production.arguments}).Finite := by
    refine (List.finite_toSet (grammar.ofCategory category)).biUnion fun production listed => ?_
    obtain ⟨member, rfl⟩ := (grammar.mem_ofCategory_iff category production).mp listed
    exact (finite_fillings production member finite).image _
  apply (nodes.insert (.hole category)).subset
  intro tree admits
  cases tree with
  | hole other =>
    cases admits.typed
    exact Set.mem_insert _ _
  | node operator children =>
    obtain ⟨production, member, rfl, rfl⟩ :=
      (grammar.typeOf_node_eq_ok_iff operator children category).mp admits.typed
    have filled := (grammar.wellTyped_node_iff production member children).mp admits.wellTyped
    have listed := (grammar.mem_ofCategory_iff production.category production).mpr ⟨member, rfl⟩
    exact Set.mem_insert_of_mem _ (Set.mem_biUnion listed ⟨children, filled, rfl⟩)

theorem finite_admitted
    (straight : ∀ category, grammar.Reaches grammar.start category → ¬grammar.Recurs category) :
    {tree | grammar.Admits grammar.start tree}.Finite := by
  have finite (category : grammar.Reached) : {tree | grammar.Admits category.1 tree}.Finite := by
    induction category using (wellFounded_below straight).induction with
    | h category ih =>
      refine finite_admitted_of_asked category.1 fun argument asks => ?_
      exact ih ⟨argument, category.2.tail asks⟩ (.single asks)
  exact finite ⟨grammar.start, .refl⟩

/-- The category reaches one that recurs. -/
def Endless (grammar : Grammar) (category : Category) : Prop :=
  ∃ recurring, grammar.Reaches category recurring ∧ grammar.Recurs recurring

theorem Endless.exists_asked {category : Category} (endless : grammar.Endless category) :
    ∃ argument, grammar.Asks category argument ∧ grammar.Endless argument := by
  obtain ⟨recurring, reached, recurs⟩ := endless
  rcases reached.cases_head with rfl | ⟨argument, asks, onward⟩
  · obtain ⟨argument, asks, back⟩ := Relation.TransGen.head'_iff.mp recurs
    exact ⟨argument, asks, category, back, recurs⟩
  · exact ⟨argument, asks, recurring, onward, recurs⟩

end Grammar

namespace Worklist

variable {grammar : Grammar} {tree : Tree}

/-- Some hole of the tree is of an endless category. -/
def Endless (grammar : Grammar) (tree : Tree) : Prop :=
  ∃ path category, tree.get? path = some (.hole category) ∧ grammar.Endless category

theorem exists_successor (admits : grammar.Admits grammar.start tree) (path : Path)
    (category : Category) (found : tree.firstHole? = some (path, category)) :
    ∃ refined, refined ∈ successors grammar tree := by
  have there := tree.get?_of_firstHole? path category found
  obtain ⟨production, member⟩ := List.exists_mem_of_ne_nil _
    (Grammar.Reaches.inhabited (admits.holeAt there).reaches)
  obtain ⟨known, rfl⟩ := (grammar.mem_ofCategory_iff category production).mp member
  obtain ⟨refined, replacement⟩ := Tree.exists_replacement (.expansion production) there
  exact ⟨refined, mem_successors_iff.mpr ⟨path, production, known, found, replacement⟩⟩

/-- The expansion of the endless hole itself has such a hole again; every other expansion leaves the
hole where it is. -/
theorem exists_endless_successor (admits : grammar.Admits grammar.start tree)
    (endless : Endless grammar tree) :
    ∃ refined ∈ successors grammar tree, Endless grammar refined := by
  obtain ⟨path, category, there, never⟩ := endless
  cases found : tree.firstHole? with
  | none =>
    exact absurd there (tree.isComplete_iff.mp (tree.firstHole?_eq_none.mp found) path category)
  | some hole =>
    obtain ⟨first, expanded⟩ := hole
    by_cases same : path = first
    · subst same
      cases there.symm.trans (tree.get?_of_firstHole? path expanded found)
      obtain ⟨argument, ⟨production, member, rfl, among⟩, onward⟩ := never.exists_asked
      obtain ⟨refined, replacement⟩ := Tree.exists_replacement (.expansion production) there
      obtain ⟨position, expected⟩ := List.getElem?_of_mem among
      have deeper := replacement.get?_expansion position argument expected
      exact ⟨refined, mem_successors_iff.mpr ⟨path, production, member, found, replacement⟩,
        path ++ [position], argument, deeper, onward⟩
    · obtain ⟨refined, member⟩ := exists_successor admits first expanded found
      obtain ⟨_, _, _, known, replacement⟩ := mem_successors_iff.mp member
      cases found.symm.trans known
      exact ⟨refined, member, path, category, replacement.get?_of_ne there same, never⟩

variable {ι ο : Type} [DecidableEq ο] (ctx : Context ι ο)

theorem length_dequeued (steps : Nat)
    (waiting : ∀ earlier < steps, (after ctx earlier).toList ≠ []) :
    (dequeued ctx steps).length = steps := by
  induction steps with
  | zero => rfl
  | succ steps ih =>
    obtain ⟨tree, rest, first⟩ :=
      List.exists_cons_of_ne_nil (waiting steps (Nat.lt_succ_self steps))
    have before := ih fun earlier below => waiting earlier (Nat.lt_succ_of_lt below)
    simp [dequeued_succ, first, before]

theorem admits_of_dequeued (steps : Nat) (tree : Tree) (member : tree ∈ dequeued ctx steps) :
    ctx.grammar.Admits ctx.grammar.start tree := by
  obtain ⟨earlier, _, rest, first⟩ := (mem_dequeued_iff ctx steps tree).mp member
  exact admitted_after ctx earlier tree (first ▸ List.mem_cons_self)

theorem exists_empty_of_finite
    (finite : {tree | ctx.grammar.Admits ctx.grammar.start tree}.Finite) :
    ∃ steps, (after ctx steps).toList = [] := by
  by_contra never
  let steps := finite.toFinset.card + 1
  have count : (dequeued ctx steps).length = steps :=
    length_dequeued ctx steps fun earlier _ empty => never ⟨earlier, empty⟩
  have distinct := (partition_after ctx steps).distinct
  have among : (dequeued ctx steps).toFinset ⊆ finite.toFinset := by
    intro tree member
    exact finite.mem_toFinset.mpr (admits_of_dequeued ctx steps tree (List.mem_toFinset.mp member))
  have bound := Finset.card_le_card among
  rw [List.toFinset_card_of_nodup distinct, count] at bound
  omega

theorem exists_endless_after (endless : ctx.grammar.Endless ctx.grammar.start) (steps : Nat) :
    ∃ tree ∈ (after ctx steps).toList, Endless ctx.grammar tree := by
  refine invariant_after (motive := fun _ pending => ∃ tree ∈ pending, Endless ctx.grammar tree)
    ctx ⟨_, List.mem_cons_self, [], _, rfl, endless⟩ ?_ steps
  rintro _ tree rest admits ⟨waits, member, never⟩
  rcases List.mem_cons.mp member with rfl | later
  · obtain ⟨refined, among, onward⟩ := exists_endless_successor admits never
    exact ⟨refined, List.mem_append_right _ among, onward⟩
  · exact ⟨waits, List.mem_append_left _ later, never⟩

/-- However the examples come out, and with the search driven on over errors and successes, there
comes a time when no tree waits exactly if the start category reaches no category that recurs. -/
theorem exhausts_iff_straight :
    (∃ steps, (after ctx steps).size = 0) ↔
      ∀ category, ctx.grammar.Reaches ctx.grammar.start category →
        ¬ctx.grammar.Recurs category := by
  simp only [size_eq_length, List.length_eq_zero_iff]
  constructor
  · rintro ⟨steps, empty⟩ category reached recurs
    obtain ⟨tree, member, _⟩ := exists_endless_after ctx ⟨category, reached, recurs⟩ steps
    simp [empty] at member
  · intro straight
    exact exists_empty_of_finite ctx (Grammar.finite_admitted straight)

end Worklist

end ByExample
