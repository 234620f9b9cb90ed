import ByExample.Proofs.Refinement
import ByExample.Proofs.Renaming
import ByExample.Proofs.Round
import ByExample.Proofs.Running

/-!
Searches do not look at the numbers of terminals. Where one context is another with its terminals
renamed (`Context.Renames`), both searches over it are those over the other with every tree renamed:
each operation commutes with the renaming, and so does a run (`Context.Renames.run`). What is told
of a run speaks of names only, so that the two runs give the same account
(`Context.Renames.account`).
-/

namespace ByExample

section

variable {α β : Type} (f : α → β)

theorem tuples_map (columns : List (List (Nat × α))) :
    tuples (columns.map (List.map (Prod.map id f))) =
      (tuples columns).map (Prod.map id (List.map f)) := by
  induction columns with
  | nil => simp [tuples]
  | cons column columns ih =>
    simp only [List.map_cons, tuples, ih, List.flatMap_map, List.map_flatMap, List.map_map]
    rfl

theorem tuplesOfWeight_map (columns : List (List (Nat × α))) (total : Nat) :
    tuplesOfWeight (columns.map (List.map (Prod.map id f))) total =
      (tuplesOfWeight columns total).map (List.map f) := by
  rw [tuplesOfWeight_eq, tuplesOfWeight_eq, tuples_map, List.filterMap_map, List.map_filterMap]
  refine List.filterMap_congr fun tuple _ => ?_
  by_cases heavy : tuple.1 = total <;> simp [heavy]

end

variable (move : Terminal → Terminal)

def Worklist.rename (worklist : Worklist) : Worklist :=
  ⟨worklist.front.map (Tree.rename move), worklist.back.map (Tree.rename move)⟩

def Step.rename : Step → Step
  | .incorrect candidate => .incorrect (candidate.rename move)
  | .expanded candidate count => .expanded (candidate.rename move) count
  | .round size frontier => .round size frontier
  | .correct program => .correct (program.rename move)

def Result.rename : Result → Result
  | .program found => .program (found.rename move)
  | .notFound => .notFound
  | .timeout => .timeout

def Component.rename (component : Component) : Component :=
  { component with tree := component.tree.rename move }

variable {ι ο : Type}

/-- The second context has the grammar of the first one with its terminals renamed and the examples
of the first, and takes a renamed tree for what the tree is there. -/
structure Context.Renames (ctx other : Context ι ο) : Prop where
  grammar : ctx.grammar.Renames move other.grammar
  examples : other.examples = ctx.examples
  isPredicate : other.semantics.isPredicate = ctx.semantics.isPredicate
  evaluate : ∀ tree, other.semantics.evaluate (tree.rename move) = ctx.semantics.evaluate tree
  evaluatePredicate : ∀ tree,
    other.semantics.evaluatePredicate (tree.rename move) = ctx.semantics.evaluatePredicate tree

namespace Worklist

theorem enqueue_rename (worklist : Worklist) (trees : List Tree) :
    (worklist.rename move).enqueue (trees.map (Tree.rename move)) =
      (worklist.enqueue trees).rename move := by
  simp [enqueue, rename, List.reverseAux_eq]

theorem dequeue?_rename (worklist : Worklist) :
    (worklist.rename move).dequeue? =
      worklist.dequeue?.map (Prod.map (Tree.rename move) (rename move)) := by
  obtain ⟨front, back⟩ := worklist
  cases front with
  | cons tree front => simp [dequeue?, rename]
  | nil => cases found : back.reverse <;> simp [dequeue?, rename, ← List.map_reverse, found]

theorem refinements_rename (tree : Tree) (path : Path) (productions : List Production) :
    refinements (tree.rename move) path (productions.map (Production.rename move)) =
      (refinements tree path productions).map (Tree.rename move) := by
  rw [refinements, refinements, List.filterMap_map, List.map_filterMap]
  refine List.filterMap_congr fun production _ => ?_
  rw [Function.comp_apply, ← Tree.rename_expansion, Tree.replace?_rename]

end Worklist

namespace Bank

variable [DecidableEq ο] [Hashable ο]

def rename (bank : Bank ο) : Bank ο :=
  { bank with
    stored := bank.stored.map (Component.rename move)
    frontier := bank.frontier.map (Component.rename move) }

variable {move} (bank : Bank ο)

theorem componentsOf_rename (category : Category) :
    (bank.rename move).componentsOf category =
      (bank.componentsOf category).map (Tree.rename move) := by
  simp only [componentsOf, rename, Array.toList_map, List.filter_map, List.map_map]
  rfl

theorem column_rename (symbol : Symbol) :
    (bank.rename move).column (symbol.rename move) =
      (bank.column symbol).map (Prod.map id (Tree.rename move)) := by
  cases symbol with
  | terminal operator => simp [column, Symbol.rename, Tree.leaf]
  | category category => simp [column, Symbol.rename, componentsOf_rename]

theorem combinations_rename (size : Nat) (production : Production) :
    (bank.rename move).combinations size (production.rename move) =
      (bank.combinations size production).map (Tree.rename move) := by
  have columns : (production.rename move).arguments.map (bank.rename move).column =
      (production.arguments.map bank.column).map (List.map (Prod.map id (Tree.rename move))) := by
    simp [Production.rename, column_rename]
  rw [combinations, combinations, columns, tuplesOfWeight_map, List.map_map, List.map_map]
  refine List.map_congr_left fun children _ => ?_
  simp [Production.rename]

theorem offers_rename {grammar other : Grammar} (renames : grammar.Renames move other)
    (size : Nat) :
    (bank.rename move).offers other size =
      (bank.offers grammar size).map (Prod.map id (Tree.rename move)) := by
  rw [offers, offers, renames.allProductions, List.flatMap_map, List.map_flatMap]
  refine List.flatMap_congr fun production _ => ?_
  rw [combinations_rename, List.map_map, List.map_map]
  rfl

theorem report_rename : (bank.rename move).report = bank.report.rename move := by
  have found : (bank.rename move).frontier.find? (·.solves) =
      (bank.frontier.find? (·.solves)).map (Component.rename move) := by
    rw [rename, Array.find?_map]
    rfl
  rw [report, report, found, Option.bind_map, Function.comp_def]
  cases bank.frontier.find? (·.solves) with
  | none => simp [Step.rename, rename]
  | some component =>
    rw [Option.bind_some, Option.bind_some, Component.rename, Program.ofTree?_rename]
    cases Program.ofTree? component.tree with
    | none => simp [Step.rename, rename]
    | some program => rfl

theorem store_rename : (bank.rename move).store = bank.store.rename move := by
  simp [store, rename]

end Bank

namespace Context.Renames

variable {move} {ctx other : Context ι ο} (renames : ctx.Renames move other)

include renames

theorem expected : other.expected = ctx.expected := by
  rw [Context.expected, Context.expected, renames.examples]

theorem signature (category : Category) (tree : Tree) :
    other.signature category (tree.rename move) = ctx.signature category tree := by
  simp only [Context.signature, renames.isPredicate, renames.evaluate, renames.evaluatePredicate,
    renames.examples]

variable [DecidableEq ο]

theorem check (tree : Tree) : other.check (tree.rename move) = ctx.check tree :=
  Context.check_congr renames.examples (renames.evaluate tree)

theorem handle (tree : Tree) (worklist : Worklist) :
    Worklist.handle other (tree.rename move) (worklist.rename move) =
      Prod.map (Except.map (Step.rename move)) (Worklist.rename move)
        (Worklist.handle ctx tree worklist) := by
  cases found : tree.firstHole? with
  | some hole =>
    have also := found
    rw [← Tree.firstHole?_rename move] at also
    rw [Worklist.handle_of_hole also, Worklist.handle_of_hole found,
      renames.grammar.productionsFor]
    cases ctx.grammar.productionsFor hole.2 with
    | error error => rfl
    | ok productions =>
      simp only [Except.map, Worklist.refinements_rename, Worklist.enqueue_rename,
        List.length_map]
      rfl
  | none =>
    have complete := tree.firstHole?_eq_none.mp found
    have also := complete
    rw [← Tree.isComplete_rename move] at also
    rw [Worklist.handle_of_complete also, Worklist.handle_of_complete complete,
      renames.check]
    rcases ctx.check tree with error | _ | _ <;> rfl

theorem worklist_step (worklist : Worklist) :
    (worklist.rename move).step other =
      Prod.map (Except.map (Option.map (Step.rename move))) (Worklist.rename move)
        (worklist.step ctx) := by
  rw [Worklist.step, Worklist.step, Worklist.dequeue?_rename]
  cases worklist.dequeue? with
  | none => rfl
  | some next =>
    obtain ⟨tree, rest⟩ := next
    simp only [Option.map_some, Prod.map_apply, renames.handle]
    rcases Worklist.handle ctx tree rest with ⟨error | report, after⟩ <;> rfl

variable [Hashable ο]

theorem offer (bank : Bank ο) (category : Category) (tree : Tree) (signature : Signature ο) :
    (bank.rename move).offer other category (tree.rename move) signature =
      (bank.offer ctx category tree signature).rename move := by
  rw [Bank.offer_eq, Bank.offer_eq, renames.grammar.start, renames.expected]
  by_cases known : (category, signature) ∈ bank.classes.seen <;>
    simp [Bank.rename, known, Component.rename]

theorem offerAll (bank : Bank ο) (offers : List (Category × Tree)) :
    (bank.rename move).offerAll other (offers.map (Prod.map id (Tree.rename move))) =
      Prod.map id (Bank.rename move) (bank.offerAll ctx offers) := by
  induction offers generalizing bank with
  | nil => rfl
  | cons first rest ih =>
    simp only [List.map_cons, Prod.map, id_eq, Bank.offerAll, renames.signature]
    cases ctx.signature first.1 first.2 with
    | error error => rfl
    | ok signature =>
      simp only [renames.offer, ih]
      rfl

theorem round (bank : Bank ο) :
    (bank.rename move).round other = Prod.map id (Bank.rename move) (bank.round ctx) := by
  rw [Bank.round, Bank.round, bank.offers_rename renames.grammar]
  exact renames.offerAll { bank with size := bank.size + 1 } _

theorem bank_step (bank : Bank ο) :
    (bank.rename move).step other =
      Prod.map (Except.map (Option.map (Step.rename move))) (Bank.rename move)
        (bank.step ctx) := by
  have built := renames.round bank
  rw [Bank.round, Bank.round] at built
  by_cases full : bank.maxSize ≤ bank.size
  · have also : (bank.rename move).maxSize ≤ (bank.rename move).size := full
    rw [Bank.step, Bank.step, if_pos full, if_pos also]
    rfl
  · have also : ¬(bank.rename move).maxSize ≤ (bank.rename move).size := full
    rw [Bank.step, Bank.step, if_neg full, if_neg also]
    simp only [built]
    rcases Bank.offerAll ctx { bank with size := bank.size + 1 }
      (bank.offers ctx.grammar (bank.size + 1)) with ⟨error | _, after⟩
    · rfl
    · simp only [Prod.map, id_eq, Bank.report_rename, Bank.store_rename]
      rfl

end Context.Renames

section

variable [DecidableEq ο] [Hashable ο]

def Progress.rename : Progress ο → Progress ο
  | .topDown worklist => .topDown (worklist.rename move)
  | .bottomUp bank => .bottomUp (bank.rename move)

def Search.rename (search : Search ο) : Search ο :=
  { search with progress := search.progress.rename move }

theorem Search.verdict_rename (report : Except SearchError (Option Step)) :
    verdict (report.map (Option.map (Step.rename move))) =
      (verdict report).map (Except.map (Result.rename move)) := by
  rcases report with error | _ | _ | _ | _ | _ <;> rfl

theorem Search.start_rename {grammar other : Grammar} (renames : grammar.Renames move other)
    (strategy : Strategy) (limits : Limits) :
    (start grammar strategy limits : Search ο).rename move = start other strategy limits := by
  cases strategy with
  | topDown => simp [start, rename, Progress.rename, Worklist.start, Worklist.rename,
      Worklist.ofList, renames.start]
  | bottomUp => simp [start, rename, Progress.rename, Bank.start, Bank.rename]

namespace Context.Renames

variable {move} {ctx other : Context ι ο} (renames : ctx.Renames move other)

include renames

theorem step (search : Search ο) :
    (search.rename move).step other =
      Prod.map (Except.map (Option.map (Step.rename move))) (Search.rename move)
        (search.step ctx) := by
  obtain ⟨worklist | bank, steps⟩ := search
  · simp only [Search.rename, Progress.rename, Search.step, Search.stepProgress,
      renames.worklist_step]
    rcases worklist.step ctx with ⟨error | _ | report, after⟩ <;> rfl
  · simp only [Search.rename, Progress.rename, Search.step, Search.stepProgress,
      renames.bank_step]
    rcases bank.step ctx with ⟨error | _ | report, after⟩ <;> rfl

theorem turn (limits : Limits) (elapsed : Nat) (search : Search ο) :
    (search.rename move).turn other limits elapsed =
      Prod.map (Option.map (Except.map (Result.rename move))) (Search.rename move)
        (search.turn ctx limits elapsed) := by
  have steps : (search.rename move).steps = search.steps := rfl
  simp only [Search.turn, renames.step, steps]
  split
  · rfl
  · split
    · rfl
    · simp only [Prod.map, Search.verdict_rename]

theorem run (limits : Limits) (turns : Nat) (search : Search ο) :
    (search.rename move).run other limits turns =
      Prod.map (Option.map (Except.map (Result.rename move))) (Search.rename move)
        (search.run ctx limits turns) := by
  induction turns generalizing search with
  | zero => rfl
  | succ turns ih =>
    rw [Search.run, Search.run, renames.turn]
    rcases search.turn ctx limits 0 with ⟨_ | result, after⟩
    · exact ih after
    · rfl

theorem synthesize (strategy : Strategy) (limits : Limits) (turns : Nat) :
    ByExample.synthesize other strategy limits turns =
      (ByExample.synthesize ctx strategy limits turns).map
        (Except.map (Result.rename move)) := by
  rw [ByExample.synthesize, ByExample.synthesize, ← Search.start_rename move renames.grammar,
    renames.run]
  rfl

end Context.Renames

end

/-- What is told of a run that is over: the text and the size of its program, or why there is none.
-/
inductive Account where
  | program (text : String) (size : Nat)
  | notFound
  | timeout
  | failure (message : String)
  deriving DecidableEq

def Account.ofOutcome (grammar : Grammar) : Except SearchError Result → Account
  | .ok (.program found) => .program (found.tree.display grammar) found.size
  | .ok .notFound => .notFound
  | .ok .timeout => .timeout
  | .error error => .failure error.message

theorem Account.ofOutcome_rename {move : Terminal → Terminal} {grammar other : Grammar}
    (renames : grammar.Renames move other) (outcome : Except SearchError Result) :
    ofOutcome other (outcome.map (Result.rename move)) = ofOutcome grammar outcome := by
  rcases outcome with error | found | _ | _
  · rfl
  · simp [Except.map, Result.rename, ofOutcome, Program.rename, renames.display_rename,
      Program.size]
  · rfl
  · rfl

theorem Context.Renames.account [DecidableEq ο] [Hashable ο] {move : Terminal → Terminal}
    {ctx other : Context ι ο} (renames : ctx.Renames move other) (strategy : Strategy)
    (limits : Limits) (turns : Nat) :
    (ByExample.synthesize other strategy limits turns).map (Account.ofOutcome other.grammar) =
      (ByExample.synthesize ctx strategy limits turns).map (Account.ofOutcome ctx.grammar) := by
  rw [renames.synthesize, Option.map_map]
  congr 1
  funext outcome
  exact Account.ofOutcome_rename renames.grammar outcome

end ByExample
