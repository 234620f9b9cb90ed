import ByExample.Equivalence.Classes
import ByExample.Product.Weighted
import ByExample.Search.Step

/-!
Growth by size. Round `n` builds the trees of `n` nodes whose arguments are stored components, keeps
the first tree of every new class, and stores what it kept. A fault stops the round where it is: its
size is used up, and what it had kept is stored by the next round that ends.
-/

namespace ByExample

variable {ι ο : Type} [DecidableEq ο] [Hashable ο]

structure Component where
  category : Category
  tree : Tree
  solves : Bool

structure Bank (ο : Type) [DecidableEq ο] [Hashable ο] where
  maxSize : Nat
  size : Nat
  stored : Array Component
  /-- The components kept since components were last stored. -/
  frontier : Array Component
  classes : Classes ο

namespace Bank

def start (maxSize : Nat) : Bank ο where
  maxSize
  size := 0
  stored := #[]
  frontier := #[]
  classes := .empty

def componentsOf (bank : Bank ο) (category : Category) : List Tree :=
  (bank.stored.toList.filter (·.category = category)).map Component.tree

def components (bank : Bank ο) (grammar : Grammar) : List (Category × Tree) :=
  grammar.allCategories.flatMap fun category =>
    (bank.componentsOf category).map fun tree => (category, tree)

def column (bank : Bank ο) : Symbol → List (Nat × Tree)
  | .terminal operator => [(1, .leaf operator)]
  | .category category => (bank.componentsOf category).map fun tree => (tree.size, tree)

/-- The production applied to stored trees in every way that makes `size` nodes. -/
def combinations (bank : Bank ο) (size : Nat) (production : Production) : List Tree :=
  (tuplesOfWeight (production.arguments.map bank.column) (size - 1)).map
    (.node production.operator)

def offers (bank : Bank ο) (grammar : Grammar) (size : Nat) : List (Category × Tree) :=
  grammar.allProductions.flatMap fun production =>
    (bank.combinations size production).map fun tree => (production.category, tree)

def offer (ctx : Context ι ο) (bank : Bank ο) (category : Category) (tree : Tree)
    (signature : Signature ο) : Bank ο :=
  -- The bank is taken apart first, so that its arrays and classes are updated in place.
  let { maxSize, size, stored, frontier, classes } := bank
  let solves := category = ctx.grammar.start && signature.agrees ctx.expected
  match classes.insert category signature with
  | (true, classes) =>
    { maxSize, size, stored, frontier := frontier.push { category, tree, solves }, classes }
  | (false, classes) => { maxSize, size, stored, frontier, classes }

/-- Offers the trees in order, up to the first one without a signature. -/
def offerAll (ctx : Context ι ο) (bank : Bank ο) :
    List (Category × Tree) → Except SearchError Unit × Bank ο
  | [] => (.ok (), bank)
  | (category, tree) :: rest =>
    match ctx.signature category tree with
    | .error error => (.error error, bank)
    | .ok signature => offerAll ctx (bank.offer ctx category tree signature) rest

def report (bank : Bank ο) : Step :=
  match (bank.frontier.find? (·.solves)).bind fun found => Program.ofTree? found.tree with
  | some program => .correct program
  | none => .round bank.size bank.frontier.size

def store (bank : Bank ο) : Bank ο :=
  { bank with stored := bank.stored ++ bank.frontier, frontier := #[] }

/-- The next round. Nothing is reported once the trees have reached the largest size. -/
def step (ctx : Context ι ο) (bank : Bank ο) : Except SearchError (Option Step) × Bank ο :=
  if bank.maxSize ≤ bank.size then (.ok none, bank)
  else
    let size := bank.size + 1
    match offerAll ctx { bank with size } (bank.offers ctx.grammar size) with
    | (.error error, bank) => (.error error, bank)
    | (.ok (), bank) => (.ok (some bank.report), bank.store)

end Bank

end ByExample
