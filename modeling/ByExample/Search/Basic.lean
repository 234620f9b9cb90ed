import ByExample.Search.BottomUp
import ByExample.Search.TopDown

/-!
Searches of either strategy. A search is driven step by step, or run until it has a result or meets
one of its limits; what it has done is kept in either case, so that it can be driven on.
-/

namespace ByExample

variable {ι ο : Type} [DecidableEq ο] [Hashable ο]

inductive Progress (ο : Type) [DecidableEq ο] [Hashable ο] where
  | topDown (worklist : Worklist)
  | bottomUp (bank : Bank ο)

structure Search (ο : Type) [DecidableEq ο] [Hashable ο] where
  progress : Progress ο
  /-- The number of steps that reported something. -/
  steps : Nat

def Limits.expired (limits : Limits) (elapsed : Nat) : Bool :=
  limits.timeLimit.any (· ≤ elapsed)

def Limits.spent (limits : Limits) (steps : Nat) : Bool :=
  limits.maxSteps.any (· ≤ steps)

namespace Search

def start (grammar : Grammar) (strategy : Strategy) (limits : Limits) : Search ο where
  progress :=
    match strategy with
    | .topDown => .topDown (.start grammar)
    | .bottomUp => .bottomUp (.start limits.maxSize)
  steps := 0

def stepProgress (ctx : Context ι ο) :
    Progress ο → Except SearchError (Option Step) × Progress ο
  | .topDown worklist =>
    let (report, worklist) := worklist.step ctx
    (report, .topDown worklist)
  | .bottomUp bank =>
    let (report, bank) := bank.step ctx
    (report, .bottomUp bank)

def step (ctx : Context ι ο) (search : Search ο) :
    Except SearchError (Option Step) × Search ο :=
  -- The search is taken apart first, so that its progress is updated in place.
  let { progress, steps } := search
  match stepProgress ctx progress with
  | (.ok (some report), progress) => (.ok (some report), { progress, steps := steps + 1 })
  | (report, progress) => (report, { progress, steps })

def verdict : Except SearchError (Option Step) → Option (Except SearchError Result)
  | .error error => some (.error error)
  | .ok none => some (.ok .notFound)
  | .ok (some (.correct program)) => some (.ok (.program program))
  | .ok (some _) => none

/-- One turn of a run that has taken `elapsed` milliseconds so far: the limits come first, then one
step. -/
def turn (ctx : Context ι ο) (limits : Limits) (elapsed : Nat) (search : Search ο) :
    Option (Except SearchError Result) × Search ο :=
  if limits.expired elapsed then (some (.ok .timeout), search)
  else if limits.spent search.steps then (some (.ok .notFound), search)
  else
    let (report, search) := search.step ctx
    (verdict report, search)

/-- At most `turns` turns on a clock that stands still, so that only a time limit of zero expires.
There is no result if the run is not over by then. -/
def run (ctx : Context ι ο) (limits : Limits) (turns : Nat) (search : Search ο) :
    Option (Except SearchError Result) × Search ο :=
  match turns with
  | 0 => (none, search)
  | turns + 1 =>
    match search.turn ctx limits 0 with
    | (some result, search) => (some result, search)
    | (none, search) => search.run ctx limits turns

end Search

def synthesize (ctx : Context ι ο) (strategy : Strategy) (limits : Limits) (turns : Nat) :
    Option (Except SearchError Result) :=
  ((Search.start ctx.grammar strategy limits).run ctx limits turns).1

end ByExample
