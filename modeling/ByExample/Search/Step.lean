import ByExample.Tree.Basic

/-!
What a search is asked for and what it reports.
-/

namespace ByExample

inductive Strategy where
  /-- Breadth-first refinement of partial trees from the start symbol. -/
  | topDown
  /-- Growth by size, one tree kept per class. -/
  | bottomUp
  deriving DecidableEq

def Strategy.name : Strategy → String
  | .topDown => "top-down"
  | .bottomUp => "bottom-up"

def Strategy.ofName? (name : String) : Option Strategy :=
  [Strategy.topDown, .bottomUp].find? (·.name = name)

structure Limits where
  /-- The size of the largest trees that the bottom-up search builds. -/
  maxSize : Nat := 20
  maxSteps : Option Nat := none
  timeLimit : Option Nat := none

inductive Step where
  | incorrect (candidate : Tree)
  | expanded (candidate : Tree) (count : Nat)
  /-- All trees of `size` nodes were built; `frontier` of them opened a new class. -/
  | round (size frontier : Nat)
  | correct (program : Program)

inductive Result where
  | program (program : Program)
  | notFound
  | timeout

end ByExample
