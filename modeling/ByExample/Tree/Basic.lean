import ByExample.Grammar.Basic

/-!
Candidate programs as trees. A node is an operator over its children; a hole stands for any program
of its category, and a tree without holes is complete. Nothing ties a node's children to the
arguments of its operator. A path names a node by the child positions that lead to it.
-/

namespace ByExample

inductive Tree where
  | hole (category : Category)
  | node (operator : Terminal) (children : List Tree)

abbrev Path := List Nat

namespace Tree

mutual

def decEq : (left right : Tree) → Decidable (left = right)
  | .hole c, .hole d =>
    if same : c = d then .isTrue (same ▸ rfl) else .isFalse fun equal => same (Tree.hole.inj equal)
  | .hole _, .node _ _ => .isFalse nofun
  | .node _ _, .hole _ => .isFalse nofun
  | .node f ts, .node g us =>
    if same : f = g then
      match decEqList ts us with
      | .isTrue equal => .isTrue (same ▸ equal ▸ rfl)
      | .isFalse differ => .isFalse fun equal => differ (Tree.node.inj equal).2
    else .isFalse fun equal => same (Tree.node.inj equal).1

def decEqList : (left right : List Tree) → Decidable (left = right)
  | [], [] => .isTrue rfl
  | [], _ :: _ => .isFalse nofun
  | _ :: _, [] => .isFalse nofun
  | t :: ts, u :: us =>
    match decEq t u, decEqList ts us with
    | .isTrue first, .isTrue rest => .isTrue (first ▸ rest ▸ rfl)
    | .isFalse differ, _ => .isFalse fun equal => differ (List.cons.inj equal).1
    | _, .isFalse differ => .isFalse fun equal => differ (List.cons.inj equal).2

end

instance : DecidableEq Tree := decEq

theorem induction {motive : Tree → Prop} (hole : ∀ category, motive (.hole category))
    (node : ∀ operator children, (∀ child ∈ children, motive child) →
      motive (.node operator children)) (tree : Tree) : motive tree :=
  tree.rec hole node nofun fun _ _ first rest child member => by
    rcases List.mem_cons.mp member with rfl | later
    · exact first
    · exact rest child later

def leaf (operator : Terminal) : Tree :=
  .node operator []

def ofSymbol : Symbol → Tree
  | .terminal operator => leaf operator
  | .category category => .hole category

def expansion (production : Production) : Tree :=
  .node production.operator (production.arguments.map ofSymbol)

def symbol : Tree → Symbol
  | .hole category => .category category
  | .node operator _ => .terminal operator

def children : Tree → List Tree
  | .hole _ => []
  | .node _ children => children

def isHole : Tree → Bool
  | .hole _ => true
  | .node _ _ => false

mutual

/-- The number of nodes, holes included. It has no bound; how it is recorded in words, and up to
which size the record is right, is the matter of `SizedTree`. -/
def size : Tree → Nat
  | .hole _ => 1
  | .node _ children => 1 + sizeAll children

def sizeAll : List Tree → Nat
  | [] => 0
  | child :: rest => child.size + sizeAll rest

end

mutual

def isComplete : Tree → Bool
  | .hole _ => false
  | .node _ children => allComplete children

def allComplete : List Tree → Bool
  | [] => true
  | child :: rest => child.isComplete && allComplete rest

end

theorem allComplete_eq_all (trees : List Tree) : allComplete trees = trees.all isComplete := by
  induction trees with
  | nil => rfl
  | cons tree trees ih => simp [allComplete, ih]

theorem size_pos (tree : Tree) : 0 < tree.size := by
  cases tree <;> simp only [size] <;> omega

mutual

/-- The path and the category of the first hole in preorder. -/
def firstHole? : Tree → Option (Path × Category)
  | .hole category => some ([], category)
  | .node _ children => firstHoleFrom? 0 children

def firstHoleFrom? (position : Nat) : List Tree → Option (Path × Category)
  | [] => none
  | child :: rest =>
    match child.firstHole? with
    | some (path, category) => some (position :: path, category)
    | none => firstHoleFrom? (position + 1) rest

end

def get? (tree : Tree) : Path → Option Tree
  | [] => some tree
  | position :: path =>
    match tree.children[position]? with
    | some child => child.get? path
    | none => none

def replace? (tree : Tree) (path : Path) (new : Tree) : Option Tree :=
  match path with
  | [] => some new
  | position :: path =>
    match tree with
    | .hole _ => none
    | .node operator children =>
      match children[position]? with
      | some child =>
        (child.replace? path new).map fun changed => .node operator (children.set position changed)
      | none => none

theorem get?_node_cons (operator : Terminal) (children : List Tree) (position : Nat)
    (path : Path) :
    (node operator children).get? (position :: path) =
      children[position]?.bind (·.get? path) := by
  rw [get?, Tree.children]
  cases children[position]? <;> rfl

theorem get?_node_cons_eq_some_iff (operator : Terminal) (children : List Tree) (position : Nat)
    (path : Path) (part : Tree) :
    (node operator children).get? (position :: path) = some part ↔
      ∃ child, children[position]? = some child ∧ child.get? path = some part := by
  rw [get?_node_cons, Option.bind_eq_some_iff]

theorem exists_child_of_get? {tree part : Tree} {position : Nat} {path : Path}
    (found : tree.get? (position :: path) = some part) :
    ∃ operator children child, tree = .node operator children ∧
      children[position]? = some child ∧ child.get? path = some part := by
  cases tree with
  | hole category => simp [get?, Tree.children] at found
  | node operator children =>
    obtain ⟨child, there, below⟩ := (get?_node_cons_eq_some_iff ..).mp found
    exact ⟨operator, children, child, rfl, there, below⟩

theorem replace?_node_cons (operator : Terminal) (children : List Tree) (position : Nat)
    (path : Path) (new : Tree) :
    (node operator children).replace? (position :: path) new =
      (children[position]?.bind (·.replace? path new)).map fun changed =>
        .node operator (children.set position changed) := by
  rw [replace?]
  cases children[position]? <;> rfl

mutual

theorem firstHole?_eq_none : (tree : Tree) → (tree.firstHole? = none ↔ tree.isComplete = true)
  | .hole _ => by simp [firstHole?, isComplete]
  | .node _ children => by simp [firstHole?, isComplete, firstHoleFrom?_eq_none 0 children]

theorem firstHoleFrom?_eq_none (position : Nat) : (trees : List Tree) →
    (firstHoleFrom? position trees = none ↔ allComplete trees = true)
  | [] => by simp [firstHoleFrom?, allComplete]
  | child :: rest => by
    have first := firstHole?_eq_none child
    have others := firstHoleFrom?_eq_none (position + 1) rest
    cases found : child.firstHole? <;> simp_all [firstHoleFrom?, allComplete]

end

end Tree

structure Program where
  tree : Tree
  complete : tree.isComplete = true

def Program.ofTree? (tree : Tree) : Option Program :=
  if complete : tree.isComplete = true then some ⟨tree, complete⟩ else none

def Program.size (program : Program) : Nat :=
  program.tree.size

end ByExample
