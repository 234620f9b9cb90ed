/-!
The symbols of a grammar. A symbol is a numbered handle and carries no name of its own: only the
grammar that issued it knows one. Without a name it is written by number, such as `t3` or `n1`.

Handles have 32 bits and the numbers here have no bound: a grammar is assumed to have fewer than
`2 ^ 32` terminals and fewer than `2 ^ 32` categories, so that no handle is issued twice.
-/

namespace ByExample

/-- An operator: a constant, a variable or a function symbol. -/
structure Terminal where
  index : Nat
  deriving DecidableEq, Hashable

structure Category where
  index : Nat
  deriving DecidableEq, Hashable

inductive Symbol where
  | terminal (operator : Terminal)
  | category (category : Category)
  deriving DecidableEq, Hashable

def Terminal.text (terminal : Terminal) : String :=
  "t" ++ toString terminal.index

def Category.text (category : Category) : String :=
  "n" ++ toString category.index

def Symbol.text : Symbol → String
  | .terminal handle => handle.text
  | .category handle => handle.text

end ByExample
