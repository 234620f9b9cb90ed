import ByExample.Proofs.Acceptance
import ByExample.Proofs.Replacement
import ByExample.Search.TopDown

/-!
The refining search has nothing in its worklist but partial programs of the start category: a step
expands a hole into a tree that may stand there (`Admitted.step`). A complete one that passes the
check solves the examples.
-/

namespace ByExample

/-- What a search of this strategy and largest size promises of its programs. -/
structure Context.Accepts {ι ο : Type} [DecidableEq ο] (ctx : Context ι ο) (strategy : Strategy)
    (maxSize : Nat) (program : Program) : Prop where
  solves : ctx.Solves program.tree
  bounded : strategy = .bottomUp → program.size ≤ maxSize

def Step.Sound {ι ο : Type} [DecidableEq ο] (ctx : Context ι ο) (strategy : Strategy)
    (maxSize : Nat) : Step → Prop
  | .correct program => ctx.Accepts strategy maxSize program
  | .incorrect candidate => ctx.grammar.Admits ctx.grammar.start candidate
  | .expanded candidate _ => ctx.grammar.Admits ctx.grammar.start candidate
  | .round _ _ => True

namespace Worklist

def Admitted (grammar : Grammar) (worklist : Worklist) : Prop :=
  ∀ tree ∈ worklist.toList, grammar.Admits grammar.start tree

section

variable {grammar : Grammar}

theorem admitted_start (grammar : Grammar) : (start grammar).Admitted grammar := by
  intro tree member
  rw [start, toList_ofList, List.mem_singleton] at member
  rw [member]
  exact ⟨by rw [Grammar.wellTyped], rfl⟩

theorem admits_of_refinements (tree : Tree) (admits : grammar.Admits grammar.start tree)
    (path : Path) (category : Category) (found : tree.firstHole? = some (path, category))
    (productions : List Production) (listed : grammar.productionsFor category = .ok productions)
    (refined : Tree) (member : refined ∈ refinements tree path productions) :
    grammar.Admits grammar.start refined := by
  obtain ⟨production, among, replaced⟩ := List.mem_filterMap.mp member
  obtain ⟨known, rfl⟩ := grammar.mem_of_productionsFor category productions listed production among
  -- What the expansion replaces is a hole of the production's category.
  have there := tree.get?_of_firstHole? path production.category found
  exact admits.expanded production known (Tree.replacement_iff.mpr ⟨there, replaced⟩)

theorem Admitted.enqueue {worklist : Worklist} (admitted : worklist.Admitted grammar)
    (trees : List Tree) (admits : ∀ tree ∈ trees, grammar.Admits grammar.start tree) :
    (worklist.enqueue trees).Admitted grammar := by
  intro tree member
  rw [toList_enqueue, List.mem_append] at member
  rcases member with old | new
  · exact admitted tree old
  · exact admits tree new

end

variable {ι ο : Type} [DecidableEq ο] {ctx : Context ι ο} {tree : Tree} {worklist : Worklist}

theorem handle_of_hole {path : Path} {category : Category}
    (found : tree.firstHole? = some (path, category)) :
    handle ctx tree worklist =
      match ctx.grammar.productionsFor category with
      | .error error => (.error (.grammar error), worklist)
      | .ok productions =>
        (.ok (.expanded tree (refinements tree path productions).length),
          worklist.enqueue (refinements tree path productions)) := by
  unfold handle
  split
  · rename_i there
    cases found.symm.trans there
    rfl
  · rename_i none
    cases found.symm.trans none

theorem handle_of_complete (complete : tree.isComplete = true) :
    handle ctx tree worklist =
      match ctx.check tree with
      | .error error => (.error error, worklist)
      | .ok true => (.ok (.correct ⟨tree, complete⟩), worklist)
      | .ok false => (.ok (.incorrect tree), worklist) := by
  unfold handle
  split
  · rename_i found
    cases found.symm.trans (tree.firstHole?_eq_none.mpr complete)
  · rfl

variable (ctx)

/-- All that can happen to a tree that has been taken off. -/
theorem handle_cases (tree : Tree) (worklist : Worklist) :
    (∃ path category, tree.firstHole? = some (path, category) ∧
      ((∃ error, ctx.grammar.productionsFor category = .error error ∧
        handle ctx tree worklist = (.error (.grammar error), worklist)) ∨
      ∃ productions, ctx.grammar.productionsFor category = .ok productions ∧
        handle ctx tree worklist =
          (.ok (.expanded tree (refinements tree path productions).length),
            worklist.enqueue (refinements tree path productions)))) ∨
    ∃ complete : tree.isComplete = true,
      (∃ error, ctx.check tree = .error error ∧
        handle ctx tree worklist = (.error error, worklist)) ∨
      (ctx.check tree = .ok true ∧
        handle ctx tree worklist = (.ok (.correct ⟨tree, complete⟩), worklist)) ∨
      (ctx.check tree = .ok false ∧
        handle ctx tree worklist = (.ok (.incorrect tree), worklist)) := by
  cases found : tree.firstHole? with
  | some hole =>
    obtain ⟨path, category⟩ := hole
    rw [handle_of_hole found]
    refine Or.inl ⟨path, category, rfl, ?_⟩
    cases ctx.grammar.productionsFor category with
    | error error => exact Or.inl ⟨error, rfl, rfl⟩
    | ok productions => exact Or.inr ⟨productions, rfl, rfl⟩
  | none =>
    have complete := tree.firstHole?_eq_none.mp found
    rw [handle_of_complete complete]
    refine Or.inr ⟨complete, ?_⟩
    rcases ctx.check tree with error | _ | _
    · exact Or.inl ⟨error, rfl, rfl⟩
    · exact Or.inr (Or.inr ⟨rfl, rfl⟩)
    · exact Or.inr (Or.inl ⟨rfl, rfl⟩)

variable {ctx}

theorem Admitted.handle {worklist : Worklist} (admitted : worklist.Admitted ctx.grammar)
    (tree : Tree) (admits : ctx.grammar.Admits ctx.grammar.start tree) (maxSize : Nat) :
    (handle ctx tree worklist).2.Admitted ctx.grammar ∧
      ∀ report, (handle ctx tree worklist).1 = .ok report →
        report.Sound ctx .topDown maxSize := by
  rcases handle_cases ctx tree worklist with
    ⟨path, category, found, ⟨error, _, failed⟩ | ⟨productions, listed, expanded⟩⟩ |
    ⟨complete, ⟨error, _, failed⟩ | ⟨checked, correct⟩ | ⟨_, incorrect⟩⟩
  · rw [failed]
    exact ⟨admitted, nofun⟩
  · rw [expanded]
    refine ⟨admitted.enqueue _ ?_, ?_⟩
    · exact admits_of_refinements tree admits path category found productions listed
    · rintro _ ⟨⟩
      exact admits
  · rw [failed]
    exact ⟨admitted, nofun⟩
  · rw [correct]
    refine ⟨admitted, ?_⟩
    rintro _ ⟨⟩
    exact ⟨⟨⟨admits, complete⟩, checked⟩, nofun⟩
  · rw [incorrect]
    refine ⟨admitted, ?_⟩
    rintro _ ⟨⟩
    exact admits

theorem Admitted.step {worklist : Worklist} (admitted : worklist.Admitted ctx.grammar)
    (maxSize : Nat) :
    (worklist.step ctx).2.Admitted ctx.grammar ∧
      ∀ report, (worklist.step ctx).1 = .ok (some report) →
        report.Sound ctx .topDown maxSize := by
  cases taken : worklist.dequeue? with
  | none => simp [Worklist.step, taken, admitted]
  | some next =>
    obtain ⟨tree, rest⟩ := next
    have whole := toList_of_dequeue? worklist rest tree taken
    have restAdmitted : rest.Admitted ctx.grammar := by
      intro other member
      exact admitted other (whole ▸ List.mem_cons_of_mem tree member)
    obtain ⟨kept, sound⟩ :=
      restAdmitted.handle tree (admitted tree (whole ▸ List.mem_cons_self)) maxSize
    simp only [Worklist.step, taken]
    refine ⟨kept, ?_⟩
    intro report reported
    obtain ⟨inner, handled, same⟩ := (map_eq_ok_iff _ _ _).mp reported
    cases same
    exact sound report handled

end Worklist

end ByExample
