import ByExample.Equivalence.Signature
import ByExample.Typing
import Std.Data.HashSet.Lemmas

/-!
Classes of trees with the same category and the same signature. Of every class the first tree that
comes along is kept.
-/

namespace ByExample

variable {ι ο : Type} [DecidableEq ο] [Hashable ο]

structure Classes (ο : Type) [DecidableEq ο] [Hashable ο] where
  seen : Std.HashSet (Category × Signature ο)

namespace Classes

def empty : Classes ο where
  seen := ∅

def size (classes : Classes ο) : Nat :=
  classes.seen.size

def isEmpty (classes : Classes ο) : Bool :=
  classes.seen.isEmpty

/-- Whether the class is new, and the classes with it. -/
def insert (classes : Classes ο) (category : Category) (signature : Signature ο) :
    Bool × Classes ο :=
  let (known, seen) := classes.seen.containsThenInsert (category, signature)
  (!known, { seen })

@[simp] theorem insert_fst (classes : Classes ο) (category : Category) (signature : Signature ο) :
    (classes.insert category signature).1 = true ↔ (category, signature) ∉ classes.seen := by
  simp [insert, Std.HashSet.containsThenInsert_fst]

@[simp] theorem mem_insert_snd (classes : Classes ο) (category : Category)
    (signature : Signature ο) (key : Category × Signature ο) :
    key ∈ (classes.insert category signature).2.seen ↔
      key = (category, signature) ∨ key ∈ classes.seen := by
  simp only [insert, Std.HashSet.containsThenInsert_snd, Std.HashSet.mem_insert, beq_iff_eq]
  exact or_congr_left eq_comm

end Classes

namespace Context

def classOf (ctx : Context ι ο) (tree : Tree) :
    Except SearchError (Category × Signature ο) :=
  match ctx.grammar.typeOf tree with
  | .error error => .error (.grammar error)
  | .ok category => (ctx.signature category tree).map fun signature => (category, signature)

def keepNew (ctx : Context ι ο) (classes : Classes ο) : List Tree → Except SearchError (List Tree)
  | [] => .ok []
  | tree :: rest =>
    match ctx.classOf tree with
    | .error error => .error error
    | .ok (category, signature) =>
      match classes.insert category signature with
      | (true, classes) => (keepNew ctx classes rest).map (tree :: ·)
      | (false, classes) => keepNew ctx classes rest

def eliminateEquivalents (ctx : Context ι ο) (trees : List Tree) :
    Except SearchError (List Tree) :=
  ctx.keepNew .empty trees

end Context

end ByExample
