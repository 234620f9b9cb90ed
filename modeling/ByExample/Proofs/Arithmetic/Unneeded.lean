import ByExample.Proofs.Arithmetic.Kinds
import ByExample.Proofs.Trimming

/-!
Categories that the start category does not reach never change an answer over arithmetic
(`unneeded_never_matter`). The table of the smaller grammar has the operators of the whole one, and
the kinds of the needed categories. A category that has lost its productions turns into a predicate
category, but then no tree of it comes up.
-/

namespace ByExample.Arithmetic

namespace Table

variable {grammar : Grammar} {needed : Category → Bool} {table smaller : Table}

theorem isPredicate_of_unissued (made : ofGrammar grammar = .ok table) (category : Category)
    (foreign : ¬grammar.Issued (.category category)) :
    table.semantics.isPredicate category = false := by
  have above : ¬category.index < grammar.categories.size := foreign
  obtain ⟨_, _, predicates⟩ := (ofGrammar_eq_ok_iff grammar table).mp made
  simp [semantics, predicates, Draft.allCategories, above]

variable (closed : grammar.Closed needed)

theorem isPredicate_trim (category : Category) (required : needed category = true) :
    isPredicate (grammar.trim needed closed) category = isPredicate grammar category := by
  have listed := grammar.toDraft.ofCategory_trim needed category
  rw [if_pos required] at listed
  rw [isPredicate, isPredicate, Grammar.trim, listed]
  rfl

theorem exists_ofGrammar_trim (made : ofGrammar grammar = .ok table) :
    ∃ smaller, ofGrammar (grammar.trim needed closed) = .ok smaller := by
  obtain ⟨fitting, _, _⟩ := (ofGrammar_eq_ok_iff grammar table).mp made
  refine ⟨⟨_, _⟩, (ofGrammar_eq_ok_iff _ _).mpr ⟨?_, rfl, rfl⟩⟩
  intro production member
  exact fitting production (List.mem_filter.mp member).1

theorem trims_context (made : ofGrammar grammar = .ok table)
    (alsoMade : ofGrammar (grammar.trim needed closed) = .ok smaller)
    (examples : List (Example Environment Int64)) :
    Context.Trims needed (table.context grammar examples)
      (smaller.context (grammar.trim needed closed) examples) := by
  obtain ⟨_, operators, _⟩ := (ofGrammar_eq_ok_iff _ _).mp made
  obtain ⟨_, alsoOperators, _⟩ := (ofGrammar_eq_ok_iff _ _).mp alsoMade
  have same : smaller.operators = table.operators := alsoOperators.trans operators.symm
  have values (environment : Environment) (tree : Tree) :
      smaller.value environment tree = table.value environment tree := by
    induction tree using Tree.induction with
    | hole category => rw [value, value]
    | node operator children ih =>
      rw [value, value, values_eq_map, values_eq_map, same, List.map_congr_left ih]
  refine ⟨closed, rfl, rfl, ?_, ?_, ?_⟩
  · funext tree environment
    simp only [context, semantics, evaluate, values]
  · funext tree environment
    simp only [context, semantics, evaluatePredicate, values]
  · intro category required
    by_cases issued : grammar.Issued (.category category)
    · rw [context, context, isPredicate_of_ofGrammar made category issued,
        isPredicate_of_ofGrammar alsoMade category issued,
        isPredicate_trim closed category required]
    · rw [context, context, isPredicate_of_unissued made category issued,
        isPredicate_of_unissued alsoMade category issued]

/-- Leaving out the calls that add a production to a category which the start category does not
reach: the rest still makes a grammar, with the same handles, and the grammar still has a table. On
any examples the refining search reports the same step by step, errors and all. As long as no step
of the growing search fails, none fails over the rest, and the same trees are stored of each of the
categories that are reached; and its runs have the same result, unless it is an error. -/
theorem unneeded_never_matter (calls : List Draft.Call) (start : Category)
    (built : (Draft.ofCalls calls).build start = .ok grammar)
    (made : ofGrammar grammar = .ok table)
    (reached : ∀ category, needed category = true ↔ grammar.Reaches grammar.start category) :
    ∃ rest smaller,
      (Draft.ofCalls (calls.filter (Draft.Call.concerns needed))).build start = .ok rest ∧
      ofGrammar rest = .ok smaller ∧ rest.terminals = grammar.terminals ∧
      rest.categories = grammar.categories ∧
      ∀ examples,
        let whole := table.context grammar examples
        let part := smaller.context rest examples
        (∀ steps, Worklist.report part steps = Worklist.report whole steps) ∧
        (∀ maxSize rounds,
          (∀ earlier < rounds, ∃ report,
            ((Bank.after whole maxSize earlier).step whole).1 = .ok report) →
          (∀ earlier < rounds, ∃ report,
            ((Bank.after part maxSize earlier).step part).1 = .ok report) ∧
          ∀ category, grammar.Reaches grammar.start category →
            (Bank.after part maxSize rounds).componentsOf category =
              (Bank.after whole maxSize rounds).componentsOf category) ∧
        ∀ limits turns,
          (∀ error, synthesize whole .bottomUp limits turns ≠ some (.error error)) →
          synthesize part .bottomUp limits turns = synthesize whole .bottomUp limits turns := by
  have closed := Grammar.closed_of_reaches reached
  obtain ⟨same, started⟩ := (Draft.build_eq_ok_iff _ _ _).mp built
  obtain ⟨smaller, alsoMade⟩ := exists_ofGrammar_trim closed made
  refine ⟨grammar.trim needed closed, smaller, ?_, alsoMade, rfl, rfl, ?_⟩
  · rw [Draft.build_eq_ok_iff, Draft.ofCalls_filter, ← same]
    exact ⟨rfl, started⟩
  · intro examples whole part
    have trims : Context.Trims needed whole part := trims_context closed made alsoMade examples
    refine ⟨trims.worklist_report, ?_, trims.synthesize_thins⟩
    intro maxSize rounds clean
    obtain ⟨quiet, thins⟩ := Bank.thins_after trims maxSize rounds clean
    exact ⟨quiet, fun category found => thins.componentsOf category ((reached category).mpr found)⟩

end Table

def strayCalls : List Draft.Call :=
  [.category "E", .category "F", .terminal "x", .terminal "Add", .terminal "1",
    .add ⟨⟨0⟩, ⟨0⟩, []⟩, .add ⟨⟨1⟩, ⟨2⟩, []⟩,
    .add ⟨⟨0⟩, ⟨1⟩, [.category ⟨0⟩, .category ⟨0⟩]⟩]

def strayGrammar : Grammar where
  toDraft := Draft.ofCalls strayCalls
  start := ⟨0⟩
  wellFormed := (Draft.fault?_eq_none _ _).mp (by decide)

def strayTable : Table where
  operators := #[("x", .parameter), ("Add", .calculate .add), ("1", .literal 1)]
  predicates := #[false, false]

theorem stray_category_ignored :
    let needed := fun category : Category => decide (category = ⟨0⟩)
    (Draft.ofCalls strayCalls).build ⟨0⟩ = .ok strayGrammar ∧
    Table.ofGrammar strayGrammar = .ok strayTable ∧
    (∀ category, needed category = true ↔ strayGrammar.Reaches strayGrammar.start category) ∧
    ∃ rest smaller,
      (Draft.ofCalls (strayCalls.filter (Draft.Call.concerns needed))).build ⟨0⟩ = .ok rest ∧
      Table.ofGrammar rest = .ok smaller ∧
      Worklist.report (smaller.context rest [⟨.ofList [("x", 3)], 3⟩]) 1 =
        .ok (some (.correct ⟨.leaf ⟨0⟩, rfl⟩)) := by
  intro needed
  have built : (Draft.ofCalls strayCalls).build ⟨0⟩ = .ok strayGrammar :=
    (Draft.build_eq_ok_iff _ _ _).mpr ⟨rfl, rfl⟩
  have made : Table.ofGrammar strayGrammar = .ok strayTable := by
    rw [Table.ofGrammar_eq_ok_iff]
    decide +kernel
  have reached : ∀ category,
      needed category = true ↔ strayGrammar.Reaches strayGrammar.start category := by
    have asked : ∀ production ∈ strayGrammar.productions, production.category = ⟨0⟩ →
        ∀ argument ∈ production.arguments, argument = .category ⟨0⟩ := by decide
    intro category
    rw [decide_eq_true_eq]
    constructor
    · rintro rfl
      exact .refl
    · intro path
      induction path with
      | refl => rfl
      | tail _ asks ih =>
        obtain ⟨production, member, owner, among⟩ := asks
        exact Symbol.category.inj (asked production member (owner.trans ih) _ among)
  obtain ⟨rest, smaller, again, alsoMade, _, _, alike⟩ :=
    Table.unneeded_never_matter strayCalls ⟨0⟩ built made reached
  refine ⟨built, made, reached, rest, smaller, again, alsoMade, ?_⟩
  obtain ⟨reports, _, _⟩ := alike [⟨.ofList [("x", 3)], 3⟩]
  rw [reports]
  rfl

end ByExample.Arithmetic
