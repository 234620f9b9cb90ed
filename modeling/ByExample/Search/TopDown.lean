import ByExample.Search.Context
import ByExample.Search.Step
import ByExample.Search.Worklist

/-!
Breadth-first refinement of partial trees. The worklist starts with a lone hole of the start
category. A step takes the first tree off it: a complete tree is checked against the examples, a
partial one comes back once per production of its first hole's category, with that hole expanded.
-/

namespace ByExample.Worklist

variable {ι ο : Type} [DecidableEq ο]

def start (grammar : Grammar) : Worklist :=
  .ofList [.hole grammar.start]

def refinements (tree : Tree) (path : Path) (productions : List Production) : List Tree :=
  productions.filterMap fun production => tree.replace? path (.expansion production)

def handle (ctx : Context ι ο) (tree : Tree) (worklist : Worklist) :
    Except SearchError Step × Worklist :=
  match found : tree.firstHole? with
  | some (path, category) =>
    match ctx.grammar.productionsFor category with
    | .error error => (.error (.grammar error), worklist)
    | .ok productions =>
      let refined := refinements tree path productions
      (.ok (.expanded tree refined.length), worklist.enqueue refined)
  | none =>
    match ctx.check tree with
    | .error error => (.error error, worklist)
    | .ok true => (.ok (.correct ⟨tree, tree.firstHole?_eq_none.mp found⟩), worklist)
    | .ok false => (.ok (.incorrect tree), worklist)

/-- Nothing is reported once the worklist is empty. -/
def step (ctx : Context ι ο) (worklist : Worklist) : Except SearchError (Option Step) × Worklist :=
  match worklist.dequeue? with
  | none => (.ok none, worklist)
  | some (tree, rest) =>
    let (report, worklist) := handle ctx tree rest
    (report.map some, worklist)

end ByExample.Worklist
