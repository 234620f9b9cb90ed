import ByExample.Grammar.Printer
import ByExample.Tree.Printer
import Mathlib.Data.List.Basic

/-!
Terminals under other numbers. A renaming changes the handles of the terminals and nothing else: the
shape of a tree, its holes and its size stay (`Tree.size_rename`, `Tree.firstHole?_rename`). Two
grammars with the same names and productions up to a renaming (`Grammar.Renames`) cannot be told
apart by their texts: they are written alike, and so is a tree of the one and the renamed tree of
the other (`Grammar.Renames.display_rename`).
-/

namespace ByExample

variable (move : Terminal → Terminal)

def Symbol.rename : Symbol → Symbol
  | .terminal handle => .terminal (move handle)
  | .category handle => .category handle

def Production.rename (production : Production) : Production where
  category := production.category
  operator := move production.operator
  arguments := production.arguments.map (Symbol.rename move)

namespace Tree

mutual

def rename : Tree → Tree
  | .hole category => .hole category
  | .node operator children => .node (move operator) (renameAll children)

def renameAll : List Tree → List Tree
  | [] => []
  | child :: rest => child.rename :: renameAll rest

end

theorem renameAll_eq_map (trees : List Tree) :
    renameAll move trees = trees.map (rename move) := by
  induction trees with
  | nil => rfl
  | cons tree trees ih => rw [renameAll, ih, List.map_cons]

@[simp] theorem rename_hole (category : Category) :
    (hole category).rename move = hole category := by
  rw [rename]

@[simp] theorem rename_node (operator : Terminal) (children : List Tree) :
    (node operator children).rename move =
      node (move operator) (children.map (rename move)) := by
  rw [rename, renameAll_eq_map]

theorem rename_ofSymbol (symbol : Symbol) :
    (ofSymbol symbol).rename move = ofSymbol (symbol.rename move) := by
  cases symbol <;> simp [ofSymbol, leaf, Symbol.rename]

theorem rename_expansion (production : Production) :
    (expansion production).rename move = expansion (production.rename move) := by
  simp [expansion, Production.rename, Function.comp_def, rename_ofSymbol]

mutual

@[simp] theorem size_rename : (tree : Tree) → (tree.rename move).size = tree.size
  | .hole _ => by rw [rename]
  | .node _ children => by rw [rename, size, size, sizeAll_rename children]

theorem sizeAll_rename : (trees : List Tree) → sizeAll (renameAll move trees) = sizeAll trees
  | [] => by rw [renameAll]
  | child :: rest => by
    rw [renameAll, sizeAll, sizeAll, size_rename child, sizeAll_rename rest]

end

mutual

@[simp] theorem firstHole?_rename : (tree : Tree) →
    (tree.rename move).firstHole? = tree.firstHole?
  | .hole _ => by rw [rename]
  | .node _ children => by rw [rename, firstHole?, firstHole?, firstHoleFrom?_rename 0 children]

theorem firstHoleFrom?_rename (position : Nat) : (trees : List Tree) →
    firstHoleFrom? position (renameAll move trees) = firstHoleFrom? position trees
  | [] => by rw [renameAll]
  | child :: rest => by
    rw [renameAll, firstHoleFrom?, firstHoleFrom?, firstHole?_rename child,
      firstHoleFrom?_rename (position + 1) rest]

end

@[simp] theorem isComplete_rename (tree : Tree) :
    (tree.rename move).isComplete = tree.isComplete := by
  rw [Bool.eq_iff_iff, ← firstHole?_eq_none, ← firstHole?_eq_none, firstHole?_rename]

theorem replace?_rename (tree new : Tree) (path : Path) :
    (tree.rename move).replace? path (new.rename move) =
      (tree.replace? path new).map (rename move) := by
  induction path generalizing tree with
  | nil => simp [replace?]
  | cons position path ih =>
    cases tree with
    | hole category => simp [replace?]
    | node operator children =>
      cases found : children[position]? with
      | none => simp [replace?, found]
      | some child =>
        simp only [rename_node, replace?, List.getElem?_map, found, Option.map_some, ih,
          Option.map_map]
        congr 1
        funext changed
        simp [List.map_set]

end Tree

def Program.rename (program : Program) : Program where
  tree := program.tree.rename move
  complete := by rw [Tree.isComplete_rename, program.complete]

theorem Program.ofTree?_rename (tree : Tree) :
    Program.ofTree? (tree.rename move) = (Program.ofTree? tree).map (rename move) := by
  by_cases complete : tree.isComplete = true <;> simp [ofTree?, complete, rename]

namespace Grammar

/-- The second grammar has the categories of the first one, and its terminals under other numbers.
A number without a name stays as it is. -/
structure Renames (grammar other : Grammar) : Prop where
  start : other.start = grammar.start
  categories : other.categories = grammar.categories
  named : ∀ operator,
    other.terminals.name? (move operator).index = grammar.terminals.name? operator.index
  fixed : ∀ operator, grammar.terminals.name? operator.index = none →
    move operator = operator
  productions : ∀ category,
    other.ofCategory category = (grammar.ofCategory category).map (Production.rename move)

variable {move} {grammar other : Grammar} (renames : grammar.Renames move other)

include renames

theorem Renames.textOf (symbol : Symbol) :
    other.textOf (symbol.rename move) = grammar.textOf symbol := by
  cases symbol with
  | terminal operator =>
    have named := renames.named operator
    cases found : grammar.terminals.name? operator.index with
    | none =>
      have same := renames.fixed operator found
      rw [same, found] at named
      simp [Draft.textOf, Symbol.rename, Draft.nameOf, same, named, found]
    | some name => simp [Draft.textOf, Symbol.rename, Draft.nameOf, named, found]
  | category category => simp [Draft.textOf, Symbol.rename, Draft.nameOf, renames.categories]

theorem Renames.allProductions :
    other.allProductions = grammar.allProductions.map (Production.rename move) := by
  rw [Draft.allProductions, Draft.allProductions, List.map_flatMap, Draft.allCategories,
    Draft.allCategories, renames.categories]
  exact List.flatMap_congr fun category _ => renames.productions category

theorem Renames.productionsFor (category : Category) :
    other.productionsFor category =
      (grammar.productionsFor category).map (List.map (Production.rename move)) := by
  have issued : other.Issued (.category category) ↔ grammar.Issued (.category category) := by
    rw [Draft.Issued, Draft.Issued, renames.categories]
  simp only [Grammar.productionsFor, issued, renames.productions]
  split <;> rfl

theorem Renames.productionText (production : Production) :
    other.productionText (production.rename move) = grammar.productionText production := by
  have category := renames.textOf (.category production.category)
  have operator := renames.textOf (.terminal production.operator)
  simp only [Symbol.rename] at category operator
  simp only [Grammar.productionText, Production.rename, category, operator]
  cases production.arguments with
  | nil => rfl
  | cons first rest => simp [renames.textOf, Function.comp_def]

theorem Renames.display : other.display = grammar.display := by
  have category := renames.textOf (.category grammar.start)
  simp only [Symbol.rename] at category
  have lines : (other.allProductions.map fun production =>
      "  " ++ other.productionText production ++ "\n") =
      grammar.allProductions.map fun production =>
        "  " ++ grammar.productionText production ++ "\n" := by
    rw [renames.allProductions, List.map_map]
    refine List.map_congr_left fun production _ => ?_
    rw [Function.comp_apply, renames.productionText]
  -- Deriving the equation of a definition with string literals would take seconds.
  delta Grammar.display
  rw [renames.start, category, lines]

omit renames

mutual

theorem Renames.display_rename (renames : grammar.Renames move other) : (tree : Tree) →
    (tree.rename move).display other = tree.display grammar
  | .hole category => by
    rw [Tree.rename, Tree.display, Tree.display]
    exact renames.textOf (.category category)
  | .node operator children => by
    rw [Tree.rename, Tree.display, Tree.display, argumentsText_rename renames children]
    exact congrArg (· ++ _) (renames.textOf (.terminal operator))

theorem Renames.argumentsText_rename (renames : grammar.Renames move other) :
    (trees : List Tree) →
    Tree.argumentsText other (Tree.renameAll move trees) = Tree.argumentsText grammar trees
  | [] => by rw [Tree.renameAll, Tree.argumentsText, Tree.argumentsText]
  | child :: rest => by
    rw [Tree.renameAll, Tree.argumentsText, Tree.argumentsText, display_rename renames child,
      furtherText_rename renames rest]

theorem Renames.furtherText_rename (renames : grammar.Renames move other) :
    (trees : List Tree) →
    Tree.furtherText other (Tree.renameAll move trees) = Tree.furtherText grammar trees
  | [] => by rw [Tree.renameAll, Tree.furtherText, Tree.furtherText]
  | child :: rest => by
    rw [Tree.renameAll, Tree.furtherText, Tree.furtherText, display_rename renames child,
      furtherText_rename renames rest]

end

end Grammar

end ByExample
