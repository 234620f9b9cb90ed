import ByExample.Tree.Basic

/-!
Trees that carry their measures. Every node has the size of the tree below it at hand, and whether
that tree is complete; both are worked out once, when the node is made, from what its children have
at hand. Sizes are recorded in words of 64 bits, and their sum wraps: trees that share their parts
can have more nodes than a word can count. The scan for the first hole passes over complete trees,
and replacing a node makes only the nodes on the way to it anew.
-/

namespace ByExample

inductive SizedTree where
  | mk (symbol : Symbol) (children : List SizedTree) (size : UInt64) (complete : Bool)

namespace SizedTree

def symbol : SizedTree → Symbol
  | .mk symbol _ _ _ => symbol

def children : SizedTree → List SizedTree
  | .mk _ children _ _ => children

/-- The number of nodes as recorded, right only up to a multiple of `2 ^ 64`. -/
def size : SizedTree → UInt64
  | .mk _ _ size _ => size

def isComplete : SizedTree → Bool
  | .mk _ _ _ complete => complete

def isHole (tree : SizedTree) : Bool :=
  match tree.symbol with
  | .terminal _ => false
  | .category _ => true

def sizeAll : List SizedTree → UInt64
  | [] => 0
  | child :: rest => child.size + sizeAll rest

def make (symbol : Symbol) (children : List SizedTree) : SizedTree :=
  .mk symbol children (1 + sizeAll children)
    (match symbol with
      | .terminal _ => children.all isComplete
      | .category _ => false)

def leaf (operator : Terminal) : SizedTree :=
  make (.terminal operator) []

def hole (category : Category) : SizedTree :=
  make (.category category) []

def apply (operator : Terminal) (children : List SizedTree) : SizedTree :=
  make (.terminal operator) children

def ofSymbol (symbol : Symbol) : SizedTree :=
  make symbol []

def expansion (production : Production) : SizedTree :=
  apply production.operator (production.arguments.map ofSymbol)

mutual

/-- Looks for the first hole with a stack of positions, given as a path with its top at the end. The
stack ends at the hole if there is one, and is what it was if there is none. -/
def findHole (stack : Path) : SizedTree → Bool × Path
  | .mk (.category _) _ _ _ => (true, stack)
  | .mk (.terminal _) children _ complete =>
    if complete then (false, stack) else findHoleFrom stack 0 children

def findHoleFrom (stack : Path) (position : Nat) : List SizedTree → Bool × Path
  | [] => (false, stack)
  | child :: rest =>
    match child.findHole (stack ++ [position]) with
    | (true, found) => (true, found)
    | (false, pushed) => findHoleFrom pushed.dropLast (position + 1) rest

end

def firstHole? (tree : SizedTree) : Option Path :=
  match tree.findHole [] with
  | (true, path) => some path
  | (false, _) => none

def get? (tree : SizedTree) : Path → Option SizedTree
  | [] => some tree
  | position :: path =>
    match tree.children[position]? with
    | some child => child.get? path
    | none => none

def replace? (tree : SizedTree) (path : Path) (new : SizedTree) : Option SizedTree :=
  match path with
  | [] => some new
  | position :: path =>
    match tree.children[position]? with
    | some child =>
      (child.replace? path new).map fun changed =>
        make tree.symbol (tree.children.set position changed)
    | none => none

mutual

def plain : SizedTree → Tree
  | .mk (.category category) _ _ _ => .hole category
  | .mk (.terminal operator) children _ _ => .node operator (plainAll children)

def plainAll : List SizedTree → List Tree
  | [] => []
  | child :: rest => child.plain :: plainAll rest

end

end SizedTree

namespace Tree

mutual

def sized : Tree → SizedTree
  | .hole category => .hole category
  | .node operator children => .apply operator (sizedAll children)

def sizedAll : List Tree → List SizedTree
  | [] => []
  | child :: rest => child.sized :: sizedAll rest

end

theorem sizedAll_eq_map (trees : List Tree) : sizedAll trees = trees.map sized := by
  induction trees with
  | nil => rfl
  | cons tree trees ih => rw [sizedAll, ih, List.map_cons]

end Tree

end ByExample
