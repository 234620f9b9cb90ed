import ByExample.Proofs.Replacement
import ByExample.Proofs.Rules

/-!
What the typing keeps and what it lets in. A hole of a well-typed tree may be filled with any
well-typed tree of its category, wherever it is (`filling_keeps_type`). The symbols of a well-typed
tree are the grammar's own: below the root each of them is asked for by a production. The root is
asked for by none, and there a leaf or a hole passes whatever its symbol is (`foreign_alone_iff`).
-/

namespace ByExample

theorem Draft.exists_nameOf_iff (draft : Draft) (symbol : Symbol) :
    (∃ name, draft.nameOf symbol = .ok name) ↔ draft.Issued symbol := by
  cases symbol with
  | terminal operator =>
    simp only [nameOf_terminal_eq_ok_iff, Issued, NameTable.lt_size_iff,
      NameTable.idxOf?_eq_some_iff]
  | category category =>
    simp only [nameOf_category_eq_ok_iff, Issued, NameTable.lt_size_iff,
      NameTable.idxOf?_eq_some_iff]

namespace Grammar

variable {grammar : Grammar}

/-- The new tree can stand in the place of the part, and the tree stays well typed and of the type
that it has, if it has one. -/
def KeepsType (grammar : Grammar) (tree : Tree) (path : Path) (new : Tree) : Prop :=
  ∃ changed, tree.replace? path new = some changed ∧ grammar.wellTyped changed = true ∧
    grammar.typeOf changed = grammar.typeOf tree

/-- A hole may be filled with any well-typed tree of its category, and the expansion of each of the
category's productions is such a tree. -/
theorem filling_keeps_type (tree : Tree) (wellTyped : grammar.wellTyped tree = true) (path : Path)
    (hole : Category) (found : tree.get? path = some (.hole hole)) :
    (∀ new, grammar.wellTyped new = true → grammar.typeOf new = .ok hole →
      grammar.KeepsType tree path new) ∧
    ∀ production ∈ grammar.productions, production.category = hole →
      grammar.wellTyped (.expansion production) = true ∧
      grammar.typeOf (.expansion production) = .ok hole ∧
      grammar.KeepsType tree path (.expansion production) := by
  have filled (new : Tree) (newTyped : grammar.wellTyped new = true)
      (ofCategory : grammar.typeOf new = .ok hole) : grammar.KeepsType tree path new := by
    obtain ⟨changed, replacement⟩ := Tree.exists_replacement new found
    have substitutes := substitutes_of_replacement newTyped ofCategory replacement wellTyped
    exact ⟨changed, replacement.replace?_eq, substitutes.wellTyped, substitutes.typed⟩
  refine ⟨filled, ?_⟩
  rintro production member rfl
  have expanded := grammar.wellTyped_expansion production member
  have typed := grammar.typeOf_node production member (production.arguments.map Tree.ofSymbol)
  exact ⟨expanded, typed, filled _ expanded typed⟩

def greetingGrammar : Grammar where
  terminals := .ofList ["hello", "both", "dear", "and", "you"]
  categories := .ofList ["Greeting", "Name"]
  productions :=
    [⟨⟨0⟩, ⟨0⟩, [.category ⟨1⟩]⟩, ⟨⟨0⟩, ⟨1⟩, [.category ⟨1⟩, .terminal ⟨3⟩, .category ⟨1⟩]⟩,
      ⟨⟨1⟩, ⟨2⟩, [.category ⟨1⟩]⟩, ⟨⟨1⟩, ⟨4⟩, []⟩]
  start := ⟨0⟩
  wellFormed := (Draft.fault?_eq_none _ _).mp (by decide)

theorem second_hole_filled :
    let tree := Tree.node ⟨1⟩ [.node ⟨2⟩ [.hole ⟨1⟩], .leaf ⟨3⟩, .hole ⟨1⟩]
    greetingGrammar.wellTyped tree = true ∧ tree.get? [2] = some (.hole ⟨1⟩) ∧
    greetingGrammar.KeepsType tree [2] (.node ⟨2⟩ [.node ⟨2⟩ [.hole ⟨1⟩]]) ∧
    greetingGrammar.KeepsType tree [2] (.node ⟨2⟩ [.hole ⟨1⟩]) := by
  intro tree
  have wellTyped : greetingGrammar.wellTyped tree = true := by rfl
  obtain ⟨filled, expanded⟩ := filling_keeps_type tree wellTyped [2] ⟨1⟩ rfl
  have made := expanded ⟨⟨1⟩, ⟨2⟩, [.category ⟨1⟩]⟩ (by decide) rfl
  exact ⟨wellTyped, rfl, filled _ rfl rfl, made.2.2⟩

/-- Every symbol in the tree is one of the grammar's own, so that it has a name there. -/
def Knows (grammar : Grammar) (tree : Tree) : Prop :=
  ∀ path part, tree.get? path = some part → ∃ name, grammar.nameOf part.symbol = .ok name

theorem knows_iff (tree : Tree) :
    grammar.Knows tree ↔ (∃ name, grammar.nameOf tree.symbol = .ok name) ∧
      ∀ child ∈ tree.children, grammar.Knows child := by
  constructor
  · intro knows
    refine ⟨knows [] tree rfl, fun child member path part found => ?_⟩
    obtain ⟨position, there⟩ := List.getElem?_of_mem member
    exact knows (position :: path) part (by simp [Tree.get?, there, found])
  · rintro ⟨named, below⟩ path part found
    cases path with
    | nil => exact Option.some.inj found ▸ named
    | cons position path =>
      cases there : tree.children[position]? with
      | none => simp [Tree.get?, there] at found
      | some child =>
        simp only [Tree.get?, there] at found
        exact below child (List.mem_of_getElem? there) path part found

theorem Fills.issued {child : Tree} {argument : Symbol} (fills : grammar.Fills child argument)
    {production : Production} (member : production ∈ grammar.productions)
    (among : argument ∈ production.arguments) : grammar.Issued child.symbol := by
  have known := grammar.argument_issued production member argument among
  cases argument with
  | terminal literal =>
    rw [grammar.fills_literal_iff production member literal among] at fills
    exact fills ▸ known
  | category category =>
    obtain ⟨typed, _⟩ := (grammar.fills_category_iff child category).mp fills
    cases child with
    | hole other =>
      cases typed
      exact known
    | node operator children =>
      obtain ⟨owner, owned, rfl, _⟩ :=
        (grammar.typeOf_node_eq_ok_iff operator children category).mp typed
      exact grammar.operator_issued owner owned

theorem knows_of_wellTyped (tree : Tree) (wellTyped : grammar.wellTyped tree = true)
    (issued : grammar.Issued tree.symbol) : grammar.Knows tree := by
  induction tree using Tree.induction with
  | hole category => exact (knows_iff _).mpr ⟨(grammar.exists_nameOf_iff _).mpr issued, nofun⟩
  | node operator children ih =>
    refine (knows_iff _).mpr ⟨(grammar.exists_nameOf_iff _).mpr issued, fun child among => ?_⟩
    obtain ⟨production, member, rfl, filled⟩ := grammar.exists_production_of_wellTyped operator
      children wellTyped (List.ne_nil_of_mem among)
    obtain ⟨argument, expected, fills⟩ := exists_of_forall₂_of_mem filled child among
    exact ih child among fills.2 (fills.issued member expected)

theorem eq_ofSymbol_of_foreign (tree : Tree) (wellTyped : grammar.wellTyped tree = true)
    (foreign : ¬grammar.Issued tree.symbol) : tree = .ofSymbol tree.symbol := by
  cases tree with
  | hole category => rfl
  | node operator children =>
    by_cases bare : children = []
    · rw [bare]
      rfl
    · obtain ⟨production, member, rfl, _⟩ :=
        grammar.exists_production_of_wellTyped operator children wellTyped bare
      exact absurd (grammar.operator_issued production member) foreign

theorem wellTyped_of_foreign (symbol : Symbol) (foreign : ¬grammar.Issued symbol) :
    grammar.wellTyped (.ofSymbol symbol) = true := by
  cases symbol with
  | category category => rw [Tree.ofSymbol, wellTyped]
  | terminal operator =>
    have unowned (production : Production) (member : production ∈ grammar.productions) :
        production.operator ≠ operator := by
      rintro rfl
      exact foreign (grammar.operator_issued production member)
    exact (grammar.wellTyped_bare_iff operator unowned []).mpr rfl

/-- A well-typed tree has a symbol in it that the grammar has no name for exactly if it consists of
such a symbol alone, as a leaf or as a hole. -/
theorem foreign_alone_iff (grammar : Grammar) (tree : Tree) :
    (grammar.wellTyped tree = true ∧ ∃ path part error,
      tree.get? path = some part ∧ grammar.nameOf part.symbol = .error error) ↔
    ∃ symbol error, grammar.nameOf symbol = .error error ∧ tree = .ofSymbol symbol := by
  have unissued {symbol : Symbol} {error : GrammarError}
      (failed : grammar.nameOf symbol = .error error) : ¬grammar.Issued symbol := by
    intro issued
    obtain ⟨name, named⟩ := (grammar.exists_nameOf_iff symbol).mpr issued
    cases failed.symm.trans named
  constructor
  · rintro ⟨wellTyped, path, part, error, found, failed⟩
    have foreign : ¬grammar.Issued tree.symbol := by
      intro issued
      obtain ⟨name, named⟩ := knows_of_wellTyped tree wellTyped issued path part found
      cases failed.symm.trans named
    have alone := eq_ofSymbol_of_foreign tree wellTyped foreign
    cases named : grammar.nameOf tree.symbol with
    | ok name => exact absurd (grammar.issued_of_nameOf _ name named) foreign
    | error error => exact ⟨tree.symbol, error, named, alone⟩
  · rintro ⟨symbol, error, failed, rfl⟩
    refine ⟨wellTyped_of_foreign symbol (unissued failed), [], _, error, rfl, ?_⟩
    cases symbol <;> exact failed

theorem foreign_symbols_well_typed :
    greetingGrammar.wellTyped (.leaf ⟨9⟩) = true ∧
    greetingGrammar.nameOf (Tree.leaf ⟨9⟩).symbol = .error (.unknownOperator ⟨9⟩) ∧
    greetingGrammar.wellTyped (.hole ⟨9⟩) = true ∧
    greetingGrammar.nameOf (Tree.hole ⟨9⟩).symbol = .error (.unknownCategory ⟨9⟩) :=
  ⟨rfl, rfl, rfl, rfl⟩

end Grammar

end ByExample
