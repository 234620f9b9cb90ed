import ByExample.Tree.Basic

/-!
A first-in, first-out list of trees: `toList` in the order in which they will leave.
-/

namespace ByExample

/-- `back` holds the trees that came last, newest first. -/
structure Worklist where
  front : List Tree
  back : List Tree

namespace Worklist

def toList (worklist : Worklist) : List Tree :=
  worklist.front ++ worklist.back.reverse

def ofList (trees : List Tree) : Worklist :=
  ⟨trees, []⟩

def size (worklist : Worklist) : Nat :=
  worklist.front.length + worklist.back.length

def enqueue (worklist : Worklist) (trees : List Tree) : Worklist :=
  ⟨worklist.front, trees.reverseAux worklist.back⟩

def dequeue? (worklist : Worklist) : Option (Tree × Worklist) :=
  match worklist.front with
  | tree :: front => some (tree, ⟨front, worklist.back⟩)
  | [] =>
    match worklist.back.reverse with
    | tree :: front => some (tree, ⟨front, []⟩)
    | [] => none

@[simp] theorem toList_ofList (trees : List Tree) : (ofList trees).toList = trees := by
  simp [ofList, toList]

@[simp] theorem toList_enqueue (worklist : Worklist) (trees : List Tree) :
    (worklist.enqueue trees).toList = worklist.toList ++ trees := by
  simp [enqueue, toList, List.reverseAux_eq]

theorem size_eq_length (worklist : Worklist) : worklist.size = worklist.toList.length := by
  simp [size, toList]

theorem dequeue?_eq_none (worklist : Worklist) : worklist.dequeue? = none ↔ worklist.toList = [] := by
  obtain ⟨front, back⟩ := worklist
  cases front with
  | cons tree front => simp [dequeue?, toList]
  | nil => cases found : back.reverse <;> simp [dequeue?, toList, found]

theorem toList_of_dequeue? (worklist rest : Worklist) (tree : Tree)
    (taken : worklist.dequeue? = some (tree, rest)) : worklist.toList = tree :: rest.toList := by
  obtain ⟨front, back⟩ := worklist
  cases front with
  | cons first front =>
    cases taken
    rfl
  | nil =>
    cases found : back.reverse with
    | nil => simp [dequeue?, found] at taken
    | cons first others =>
      simp only [dequeue?, found] at taken
      cases taken
      simp [toList, found]

end Worklist

end ByExample
