import ByExample.Proofs.Arithmetic.Pruning
import ByExample.Proofs.Arithmetic.Reading
import ByExample.Proofs.Regrouping
import ByExample.Proofs.RenamedSearch

/-!
The normal form of a list of rules over arithmetic. Operators are recognised by name, so that
renaming the terminals of a grammar changes neither what its table says of them nor what a tree
evaluates to (`Table.value_rename`). Hence the rules that a grammar gives back make a grammar that
is written alike, is read alike and is searched alike (`regrouped_rules_behave_alike`).
-/

namespace ByExample.Arithmetic

namespace Table

variable {move : Terminal → Terminal} {grammar other : Grammar} {table again : Table}

section

variable (renames : grammar.Renames move other)

include renames

theorem operatorOf_rename (production : Production) :
    operatorOf other (production.rename move) = operatorOf grammar production :=
  congrArg Operator.ofName (renames.textOf (.terminal production.operator))

theorem mismatch?_rename (production : Production) :
    mismatch? other (production.rename move) = mismatch? grammar production := by
  have name : other.textOf (.terminal (production.rename move).operator) =
      grammar.textOf (.terminal production.operator) :=
    renames.textOf (.terminal production.operator)
  have arity : (production.rename move).arity = production.arity := by
    simp [Production.arity, Production.rename]
  rw [mismatch?, mismatch?, operatorOf_rename renames, name, arity]

theorem isPredicate_rename : isPredicate other = isPredicate grammar := by
  funext category
  simp only [isPredicate, renames.productions, List.all_map, Function.comp_def,
    operatorOf_rename renames]

theorem ofGrammar_rename :
    (∃ error, ofGrammar grammar = .error error ∧ ofGrammar other = .error error) ∨
      ∃ table again, ofGrammar grammar = .ok table ∧ ofGrammar other = .ok again := by
  have faults : other.allProductions.findSome? (mismatch? other) =
      grammar.allProductions.findSome? (mismatch? grammar) := by
    rw [renames.allProductions, List.findSome?_map]
    congr 1
    funext production
    exact mismatch?_rename renames production
  cases found : grammar.allProductions.findSome? (mismatch? grammar) with
  | some error =>
    exact Or.inl ⟨error, by rw [ofGrammar, found], by rw [ofGrammar, faults, found]⟩
  | none =>
    exact Or.inr ⟨_, _, by rw [ofGrammar, found], by rw [ofGrammar, faults, found]⟩

variable (made : ofGrammar grammar = .ok table) (alsoMade : ofGrammar other = .ok again)

include made alsoMade

theorem predicates_rename : again.predicates = table.predicates := by
  obtain ⟨_, _, predicates⟩ := (ofGrammar_eq_ok_iff _ _).mp made
  obtain ⟨_, _, alsoPredicates⟩ := (ofGrammar_eq_ok_iff _ _).mp alsoMade
  rw [predicates, alsoPredicates, isPredicate_rename renames, Draft.allCategories,
    renames.categories, ← Draft.allCategories]

theorem operators_rename (operator : Terminal) :
    again.operators[(move operator).index]? = table.operators[operator.index]? := by
  obtain ⟨_, operators, _⟩ := (ofGrammar_eq_ok_iff _ _).mp made
  obtain ⟨_, alsoOperators, _⟩ := (ofGrammar_eq_ok_iff _ _).mp alsoMade
  have named := renames.named operator
  simp only [NameTable.name?] at named
  simp [operators, alsoOperators, named]

theorem value_rename (environment : Environment) (tree : Tree) :
    again.value environment (tree.rename move) = table.value environment tree := by
  induction tree using Tree.induction with
  | hole category => rw [Tree.rename_hole, value, value]
  | node operator children ih =>
    have values : again.values environment (children.map (Tree.rename move)) =
        table.values environment children := by
      rw [values_eq_map, values_eq_map, List.map_map]
      exact List.map_congr_left ih
    rw [Tree.rename_node, value, value, operators_rename renames made alsoMade, values]
    cases found : table.operators[operator.index]? with
    | some entry => rfl
    | none =>
      have unnamed : grammar.terminals.name? operator.index = none := by
        obtain ⟨_, operators, _⟩ := (ofGrammar_eq_ok_iff _ _).mp made
        simpa [operators, NameTable.name?] using found
      rw [renames.fixed operator unnamed]

theorem renames_context (examples : List (Example Environment Int64)) :
    Context.Renames move (table.context grammar examples) (again.context other examples) where
  grammar := renames
  examples := rfl
  isPredicate := by
    funext category
    simp only [context, semantics, predicates_rename renames made alsoMade]
  evaluate tree := by
    funext environment
    simp only [context, semantics, evaluate, value_rename renames made alsoMade]
  evaluatePredicate tree := by
    funext environment
    simp only [context, semantics, evaluatePredicate, value_rename renames made alsoMade]

end

end Table

/-- The rules that a grammar gives back are those that it was made of, category by category. They
make a grammar with the same categories that gives back the same rules and is written alike. Both
grammars have a table or neither has, for the same reason; and any run over the one is told like the
run over the other, though the terminals may have other numbers. -/
theorem regrouped_rules_behave_alike (start : String) (rules : List Rule) (grammar : Grammar)
    (made : Grammar.ofRules start rules = .ok grammar) :
    ∃ written, grammar.rules = .ok written ∧ written = Rule.grouped rules ∧ written.Perm rules ∧
      ∃ other, Grammar.ofRules start written = .ok other ∧
        other.categories = grammar.categories ∧ other.start = grammar.start ∧
        other.rules = .ok written ∧ other.display = grammar.display ∧
        ((∃ error, Table.ofGrammar grammar = .error error ∧
            Table.ofGrammar other = .error error) ∨
          ∃ table again, Table.ofGrammar grammar = .ok table ∧ Table.ofGrammar other = .ok again ∧
            ∀ examples strategy limits turns,
              (synthesize (again.context other examples) strategy limits turns).map
                  (Account.ofOutcome other) =
                (synthesize (table.context grammar examples) strategy limits turns).map
                  (Account.ofOutcome grammar)) := by
  obtain ⟨other, regrouped⟩ := Grammar.exists_regrouped made
  have renames := Grammar.renames_regrouped made regrouped
  have back := Grammar.rules_of_ofRules regrouped
  rw [Rule.grouped_grouped] at back
  refine ⟨_, Grammar.rules_of_ofRules made, rfl, Rule.perm_grouped rules, other, regrouped,
    renames.categories, renames.start, back, renames.display, ?_⟩
  rcases Table.ofGrammar_rename renames with unread | ⟨table, again, read, alsoRead⟩
  · exact Or.inl unread
  · refine Or.inr ⟨table, again, read, alsoRead, fun examples => ?_⟩
    exact (Table.renames_context renames read alsoRead examples).account

def negationRules : List Rule :=
  [⟨"E", "neg", ["T"]⟩, ⟨"T", "1", []⟩, ⟨"E", "x", []⟩]

def negationGrammar : Grammar where
  toDraft := Draft.ofRules "E" negationRules
  start := ⟨0⟩
  wellFormed := (Draft.fault?_eq_none _ _).mp (by decide)

def negationTable : Table where
  operators := #[("neg", .negate), ("1", .literal 1), ("x", .parameter)]
  predicates := #[false, false]

/-- Once the rules are grouped, the constant and the input have changed their numbers. -/
theorem negations_regrouped :
    Grammar.ofRules "E" negationRules = .ok negationGrammar ∧
    negationGrammar.terminals.names = ["neg", "1", "x"] ∧
    ∃ other again,
      Grammar.ofRules "E" [⟨"E", "neg", ["T"]⟩, ⟨"E", "x", []⟩, ⟨"T", "1", []⟩] = .ok other ∧
      other.terminals.names = ["neg", "x", "1"] ∧ other.display = negationGrammar.display ∧
      Table.ofGrammar other = .ok again ∧
      (synthesize (again.context other [⟨.ofList [("x", 3)], -1⟩]) .topDown {} 4).map
        (Account.ofOutcome other) = some (.program "neg(1)" 2) := by
  have apart : ∀ rule ∈ negationRules, ¬Rule.IsCategory "E" negationRules rule.operator := by decide
  have made : Grammar.ofRules "E" negationRules = .ok negationGrammar := by
    rw [Grammar.ofRules_of_apart _ _ apart, Draft.build_eq_ok_iff]
    exact ⟨rfl, rfl⟩
  have read : Table.ofGrammar negationGrammar = .ok negationTable := by
    rw [Table.ofGrammar_eq_ok_iff]
    decide +kernel
  obtain ⟨_, _, rfl, _, other, regrouped, _, _, _, display, unread | ⟨table, again, known, alsoRead,
    told⟩⟩ := regrouped_rules_behave_alike "E" negationRules negationGrammar made
  · obtain ⟨error, failed, _⟩ := unread
    cases read.symm.trans failed
  · cases read.symm.trans known
    refine ⟨made, rfl, other, again, regrouped, ?_, display, alsoRead, ?_⟩
    · rw [(Grammar.toDraft_of_ofRules regrouped).1]
      decide +kernel
    · rw [told]
      decide +kernel

end ByExample.Arithmetic
