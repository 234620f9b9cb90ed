import ByExample.Proofs.Measures
import ByExample.Proofs.Places

/-!
The holes of a tree in preorder. The first hole is the head of the list, whether it is looked for in
the tree or by the scan over recorded measures, and expanding it puts the holes of the expansion in
its place, in front of the other holes (`Tree.expansion_leads_holes`).
-/

namespace ByExample

def Symbol.isCategory : Symbol → Bool
  | .terminal _ => false
  | .category _ => true

def Production.categoryPositions (production : Production) : List Nat :=
  production.arguments.findIdxs Symbol.isCategory

namespace Tree

/-- The paths to the holes, in preorder. -/
def holes (tree : Tree) : List Path :=
  pathsTo isHole tree

theorem holes_node (operator : Terminal) (children : List Tree) :
    (node operator children).holes = pathsInto isHole 0 children := by
  simp [holes, pathsTo, isHole]

theorem mem_holes_iff (tree : Tree) (path : Path) :
    path ∈ tree.holes ↔ ∃ category, tree.get? path = some (.hole category) := by
  rw [holes, mem_pathsTo_iff]
  constructor
  · rintro ⟨_ | _, found, isHole⟩
    · exact ⟨_, found⟩
    · cases isHole
  · rintro ⟨category, found⟩
    exact ⟨.hole category, found, rfl⟩

mutual

theorem head?_holes : (tree : Tree) → tree.holes.head? = tree.firstHole?.map Prod.fst
  | .hole _ => rfl
  | .node operator children => by
    rw [holes_node, head?_pathsInto 0 children, firstHole?]

theorem head?_pathsInto (position : Nat) : (trees : List Tree) →
    (pathsInto isHole position trees).head? = (firstHoleFrom? position trees).map Prod.fst
  | [] => rfl
  | child :: rest => by
    rw [pathsInto, List.head?_append, List.head?_map, ← holes, head?_holes child,
      head?_pathsInto (position + 1) rest, firstHoleFrom?]
    cases child.firstHole? <;> rfl

end

theorem pathsInto_ofSymbol (start : Nat) (arguments : List Symbol) :
    pathsInto isHole start (arguments.map ofSymbol) =
      (arguments.findIdxs Symbol.isCategory start).map ([·]) := by
  induction arguments generalizing start with
  | nil => rfl
  | cons argument arguments ih =>
    rw [List.map_cons, pathsInto, ih, List.findIdxs_cons]
    cases argument with
    | terminal operator => simp [ofSymbol, leaf, pathsTo, pathsInto, isHole, Symbol.isCategory]
    | category category => simp [ofSymbol, pathsTo, isHole, Symbol.isCategory]

theorem holes_expansion (production : Production) :
    (expansion production).holes = production.categoryPositions.map ([·]) := by
  rw [expansion, holes_node, pathsInto_ofSymbol, Production.categoryPositions]

variable {tree changed : Tree} {path : Path}

theorem Replacement.holes_eq {category : Category} {new : Tree}
    (replacement : Replacement (.hole category) new path tree changed)
    (first : tree.holes.head? = some path) :
    changed.holes = new.holes.map (path ++ ·) ++ tree.holes.tail := by
  obtain ⟨before, after, whole, result⟩ :=
    replacement.exists_stretch isHole fun _ _ _ => rfl
  have alone : tree.holes = before ++ path :: after := by
    simpa [holes, pathsTo, isHole] using whole
  have distinct : tree.holes.Nodup := nodup_pathsTo tree
  -- Something in front of the first hole would be the first hole itself, met a second time.
  obtain rfl : before = [] := by
    cases before with
    | nil => rfl
    | cons other before =>
      rw [alone] at first distinct
      cases first
      simp at distinct
  rw [alone]
  simpa [holes] using result

/-- The holes are the places where a path leads to one, in lexicographic order. The first hole is
the first of them, also for the scan over the measures that the tree has however it was built; there
is none exactly if the tree is complete. Expanding the first hole puts the category arguments of the
production, in order, in the place of that hole, and leaves the other holes. -/
theorem expansion_leads_holes (tree : Tree) :
    (∀ path, path ∈ tree.holes ↔ ∃ category, tree.get? path = some (.hole category)) ∧
    tree.holes.Pairwise (· < ·) ∧
    tree.firstHole?.map Prod.fst = tree.holes.head? ∧
    (tree.firstHole? = none ↔ tree.isComplete = true) ∧
    (∀ built : SizedTree, built.Built → built.plain = tree → built = tree.sized) ∧
    tree.sized.firstHole? = tree.holes.head? ∧
    (tree.sized.firstHole? = none ↔ tree.sized.isComplete = true) ∧
    ∀ production path, tree.sized.firstHole? = some path →
      ∃ expanded, tree.replace? path (.expansion production) = some expanded ∧
        tree.sized.replace? path (.expansion production) = some expanded.sized ∧
        expanded.holes =
          (production.categoryPositions.map fun position => path ++ [position]) ++
            tree.holes.tail := by
  have scanned : tree.sized.firstHole? = tree.holes.head? := by
    rw [firstHole?_sized, head?_holes]
  refine ⟨tree.mem_holes_iff, pairwise_pathsTo tree, tree.head?_holes.symm,
    tree.firstHole?_eq_none, fun _ whole => whole.eq_sized, scanned, ?_, ?_⟩
  · rw [firstHole?_sized, Option.map_eq_none_iff, firstHole?_eq_none, isComplete_sized]
  · intro production path first
    rw [scanned] at first
    obtain ⟨category, found⟩ := (tree.mem_holes_iff path).mp (List.mem_of_head? first)
    obtain ⟨expanded, replacement⟩ := exists_replacement (.expansion production) found
    have replaced := replacement.replace?_eq
    refine ⟨expanded, replaced, ?_, ?_⟩
    · rw [← expansion_sized, replace?_sized, replaced, Option.map_some]
    · rw [replacement.holes_eq first, holes_expansion, List.map_map]
      rfl

end Tree

end ByExample
