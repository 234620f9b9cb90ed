import ByExample.Proofs.Refinement
import ByExample.Proofs.Running

/-!
Contexts that a search cannot tell apart. Two contexts with one grammar may have different examples,
as long as these have the same outputs and every tree ends on each of them as on the one in its
place (`Context.Resembles`). A search asks for nothing else, so that every step over the one context
is the same step over the other, and so is every run.
-/

namespace ByExample

variable {ι ο : Type}

/-- The second example is as good as the first one: it asks for the same output, and all trees are
over there what they are here. -/
structure Context.Stands (ctx other : Context ι ο) (given also : Example ι ο) : Prop where
  output : also.output = given.output
  evaluate : ∀ tree,
    other.semantics.evaluate tree also.input = ctx.semantics.evaluate tree given.input
  evaluatePredicate : ∀ tree,
    other.semantics.evaluatePredicate tree also.input =
      ctx.semantics.evaluatePredicate tree given.input

/-- The second context has the grammar and the predicate categories of the first one, and each of
its examples stands for the one in the same place there. -/
structure Context.Resembles (ctx other : Context ι ο) : Prop where
  grammar : other.grammar = ctx.grammar
  isPredicate : other.semantics.isPredicate = ctx.semantics.isPredicate
  examples : List.Forall₂ (ctx.Stands other) ctx.examples other.examples

namespace Context

theorem outcomes_congr {α : Type} {run also : ι → Except EvalError α}
    {examples others : List (Example ι ο)}
    (same : List.Forall₂ (fun given other => also other.input = run given.input) examples others) :
    outcomes also others = outcomes run examples := by
  induction same with
  | nil => rfl
  | cons first _ ih => simp only [outcomes, first, ih]

namespace Resembles

variable {ctx other : Context ι ο} (resembles : ctx.Resembles other)

include resembles

theorem expected : other.expected = ctx.expected := by
  have outputs : List.Forall₂ (fun given also => Example.output also = Example.output given)
      ctx.examples other.examples := resembles.examples.imp fun _ _ stands => stands.output
  rw [Context.expected, Context.expected, ← List.forall₂_eq_eq_eq, List.forall₂_map_left_iff,
    List.forall₂_map_right_iff]
  exact outputs.flip

theorem signature (category : Category) (tree : Tree) :
    other.signature category tree = ctx.signature category tree := by
  have primary := outcomes_congr (resembles.examples.imp fun _ _ stands => stands.evaluate tree)
  have predicate :=
    outcomes_congr (resembles.examples.imp fun _ _ stands => stands.evaluatePredicate tree)
  simp only [Context.signature, resembles.isPredicate, primary, predicate]

variable [DecidableEq ο]

theorem check (tree : Tree) : other.check tree = ctx.check tree := by
  have judged (examples others : List (Example ι ο))
      (same : List.Forall₂ (ctx.Stands other) examples others) :
      reproduces other.semantics tree others = reproduces ctx.semantics tree examples := by
    induction same with
    | nil => rfl
    | cons first _ ih => simp only [reproduces, first.evaluate, first.output, ih]
  exact judged _ _ resembles.examples

theorem handle (tree : Tree) (worklist : Worklist) :
    Worklist.handle other tree worklist = Worklist.handle ctx tree worklist := by
  cases found : tree.firstHole? with
  | some hole =>
    rw [Worklist.handle_of_hole found, Worklist.handle_of_hole found, resembles.grammar]
  | none =>
    have complete := tree.firstHole?_eq_none.mp found
    rw [Worklist.handle_of_complete complete, Worklist.handle_of_complete complete,
      resembles.check]

theorem worklist_step (worklist : Worklist) : worklist.step other = worklist.step ctx := by
  simp only [Worklist.step, resembles.handle]

variable [Hashable ο]

theorem offerAll (bank : Bank ο) (offers : List (Category × Tree)) :
    bank.offerAll other offers = bank.offerAll ctx offers := by
  induction offers generalizing bank with
  | nil => rfl
  | cons first rest ih =>
    simp only [Bank.offerAll, Bank.offer, resembles.signature, resembles.grammar,
      resembles.expected, ih]

theorem bank_step (bank : Bank ο) : bank.step other = bank.step ctx := by
  simp only [Bank.step, resembles.grammar, resembles.offerAll]

theorem step (search : Search ο) : search.step other = search.step ctx := by
  obtain ⟨worklist | bank, steps⟩ := search
  · simp only [Search.step, Search.stepProgress, resembles.worklist_step]
  · simp only [Search.step, Search.stepProgress, resembles.bank_step]

theorem iterate (steps : Nat) (search : Search ο) :
    (Search.advance other)^[steps] search = (Search.advance ctx)^[steps] search := by
  have same : (Search.advance other : Search ο → Search ο) = Search.advance ctx := by
    funext search
    rw [Search.advance, Search.advance, resembles.step]
  rw [same]

theorem turn (limits : Limits) (elapsed : Nat) (search : Search ο) :
    search.turn other limits elapsed = search.turn ctx limits elapsed := by
  simp only [Search.turn, resembles.step]

theorem run (limits : Limits) (turns : Nat) (search : Search ο) :
    search.run other limits turns = search.run ctx limits turns := by
  induction turns generalizing search with
  | zero => rfl
  | succ turns ih => simp only [Search.run, resembles.turn, ih]

theorem synthesize (strategy : Strategy) (limits : Limits) (turns : Nat) :
    ByExample.synthesize other strategy limits turns =
      ByExample.synthesize ctx strategy limits turns := by
  rw [ByExample.synthesize, ByExample.synthesize, resembles.grammar, resembles.run]

end Resembles

end Context

end ByExample
