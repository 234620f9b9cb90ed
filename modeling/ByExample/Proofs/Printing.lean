import ByExample.Proofs.Refusal
import ByExample.Proofs.Typing
import ByExample.Tree.Printer

/-!
Reading a printed tree. Where no name has a parenthesis or a comma in it, the first of them ends the
name of the root, and with it the text of a tree says where the tree ends (`Tree.Told`). Names tell
symbols apart in a grammar that rules make, so a tree over its symbols can be read back from its
text, whether or not the children are those that the operators take (`Grammar.display_eq_iff`).
-/

namespace ByExample

def isMark (c : Char) : Bool :=
  c = '(' || c = ')' || c = ','

theorem eq_of_append_of_marks {first second rest more : List Char}
    (plain : ∀ c ∈ first, isMark c = false) (alsoPlain : ∀ c ∈ second, isMark c = false)
    (marked : ∀ c ∈ rest.head?, isMark c = true) (alsoMarked : ∀ c ∈ more.head?, isMark c = true)
    (same : first ++ rest = second ++ more) : first = second ∧ rest = more := by
  have before (xs ys : List Char) (plain : ∀ c ∈ xs, isMark c = false)
      (marked : ∀ c ∈ ys.head?, isMark c = true) :
      (xs ++ ys).takeWhile (!isMark ·) = xs := by
    rw [List.takeWhile_append_of_pos (by simpa using plain)]
    cases ys with
    | nil => simp
    | cons c ys => simp [marked c rfl]
  have heads := congrArg (List.takeWhile (!isMark ·)) same
  rw [before _ _ plain marked, before _ _ alsoPlain alsoMarked] at heads
  exact ⟨heads, List.append_cancel_left (heads ▸ same)⟩

/-- What may stand after a tree: nothing, or the next argument, or the end of the arguments. -/
inductive Follows : List Char → Prop where
  | nothing : Follows []
  | next (rest : List Char) : Follows (',' :: rest)
  | last (rest : List Char) : Follows (')' :: rest)

theorem Follows.marked {rest : List Char} (follows : Follows rest) :
    ∀ c ∈ rest.head?, isMark c = true := by
  cases follows <;> simp [isMark]

namespace Tree

variable {grammar : Grammar}

theorem display_eq (tree : Tree) :
    tree.display grammar = grammar.textOf tree.symbol ++ argumentsText grammar tree.children := by
  cases tree <;> simp [display, argumentsText, symbol, children]

theorem eq_of_symbol_of_children {left right : Tree} (symbols : left.symbol = right.symbol)
    (children : left.children = right.children) : left = right := by
  cases left <;> cases right <;> simp_all [symbol, Tree.children]

/-- No other tree that the grammar knows can be read where this tree is written. -/
def Told (grammar : Grammar) (tree : Tree) : Prop :=
  ∀ other, grammar.Knows other → ∀ rest more, Follows rest → Follows more →
    (tree.display grammar).toList ++ rest = (other.display grammar).toList ++ more →
    tree = other ∧ rest = more

theorem follows_furtherText (trees : List Tree) (rest : List Char) :
    Follows ((furtherText grammar trees).toList ++ ')' :: rest) := by
  cases trees with
  | nil => simpa [furtherText] using .last rest
  | cons tree trees => simpa [furtherText] using .next _

theorem marked_argumentsText (trees : List Tree) {rest : List Char} (follows : Follows rest) :
    ∀ c ∈ ((argumentsText grammar trees).toList ++ rest).head?, isMark c = true := by
  cases trees with
  | nil => simpa [argumentsText] using follows.marked
  | cons tree trees => simp [argumentsText, isMark]

theorem eq_of_furtherText {trees : List Tree} (told : ∀ tree ∈ trees, tree.Told grammar)
    (others : List Tree) (known : ∀ other ∈ others, grammar.Knows other) (rest more : List Char)
    (same : (furtherText grammar trees).toList ++ ')' :: rest =
      (furtherText grammar others).toList ++ ')' :: more) : trees = others ∧ rest = more := by
  induction trees generalizing others with
  | nil =>
    cases others with
    | nil => simpa [furtherText] using same
    | cons other others => simp [furtherText] at same
  | cons tree trees ih =>
    cases others with
    | nil => simp [furtherText] at same
    | cons other others =>
      rw [List.forall_mem_cons] at told known
      have texts : (tree.display grammar).toList ++
            ((furtherText grammar trees).toList ++ ')' :: rest) =
          (other.display grammar).toList ++
            ((furtherText grammar others).toList ++ ')' :: more) := by
        simpa [furtherText] using same
      obtain ⟨rfl, later⟩ := told.1 other known.1 _ _ (follows_furtherText trees rest)
        (follows_furtherText others more) texts
      obtain ⟨rfl, rests⟩ := ih told.2 others known.2 later
      exact ⟨rfl, rests⟩

theorem eq_of_argumentsText {trees : List Tree} (told : ∀ tree ∈ trees, tree.Told grammar)
    (others : List Tree) (known : ∀ other ∈ others, grammar.Knows other) {rest more : List Char}
    (follows : Follows rest) (alsoFollows : Follows more)
    (same : (argumentsText grammar trees).toList ++ rest =
      (argumentsText grammar others).toList ++ more) : trees = others ∧ rest = more := by
  cases trees with
  | nil =>
    cases others with
    | nil => simpa [argumentsText] using same
    | cons other others =>
      -- Nothing that follows a tree opens arguments.
      cases follows <;> simp [argumentsText] at same
  | cons tree trees =>
    cases others with
    | nil => cases alsoFollows <;> simp [argumentsText] at same
    | cons other others =>
      have listed : (furtherText grammar (tree :: trees)).toList ++ ')' :: rest =
          (furtherText grammar (other :: others)).toList ++ ')' :: more := by
        simpa [argumentsText, furtherText] using same
      exact eq_of_furtherText told _ known rest more listed

end Tree

namespace Grammar

variable {grammar : Grammar} {start : String} {rules : List Rule}

def PlainlyNamed (grammar : Grammar) : Prop :=
  ∀ name ∈ grammar.terminals.names ++ grammar.categories.names,
    '(' ∉ name.toList ∧ ')' ∉ name.toList ∧ ',' ∉ name.toList

theorem PlainlyNamed.unmarked (plain : grammar.PlainlyNamed) {symbol : Symbol} {name : String}
    (named : grammar.nameOf symbol = .ok name) : ∀ c ∈ name.toList, isMark c = false := by
  have listed : name ∈ grammar.terminals.names ++ grammar.categories.names := by
    cases symbol with
    | terminal operator =>
      rw [Draft.nameOf_terminal_eq_ok_iff] at named
      exact List.mem_append_left _ (List.mem_of_getElem? named)
    | category category =>
      rw [Draft.nameOf_category_eq_ok_iff] at named
      exact List.mem_append_right _ (List.mem_of_getElem? named)
  obtain ⟨opening, closing, comma⟩ := plain name listed
  intro c member
  simp only [isMark, Bool.or_eq_false_iff, decide_eq_false_iff_not]
  exact ⟨⟨ne_of_mem_of_not_mem member opening, ne_of_mem_of_not_mem member closing⟩,
    ne_of_mem_of_not_mem member comma⟩

theorem nameOf_inj (made : ofRules start rules = .ok grammar) {left right : Symbol} {name : String}
    (first : grammar.nameOf left = .ok name) (second : grammar.nameOf right = .ok name) :
    left = right := by
  have apart := (renders_of_ofRules made).names_apart
  cases left with
  | terminal operator =>
    cases right with
    | terminal other =>
      rw [nameOf_terminal_iff] at first second
      rw [Option.some.inj (first.symm.trans second)]
    | category category => exact absurd second (apart name operator category first)
  | category category =>
    cases right with
    | terminal operator => exact absurd first (apart name operator category second)
    | category other =>
      rw [nameOf_category_iff] at first second
      rw [Option.some.inj (first.symm.trans second)]

theorem told_of_children (made : ofRules start rules = .ok grammar) (plain : grammar.PlainlyNamed)
    (tree : Tree) (named : ∃ name, grammar.nameOf tree.symbol = .ok name)
    (told : ∀ child ∈ tree.children, child.Told grammar) : tree.Told grammar := by
  intro other known rest more follows alsoFollows same
  obtain ⟨name, named⟩ := named
  obtain ⟨⟨otherName, otherNamed⟩, below⟩ := (knows_iff other).mp known
  simp only [Tree.display_eq, Draft.textOf, named, otherNamed, String.toList_append,
    List.append_assoc] at same
  obtain ⟨names, arguments⟩ := eq_of_append_of_marks (plain.unmarked named)
    (plain.unmarked otherNamed) (Tree.marked_argumentsText _ follows)
    (Tree.marked_argumentsText _ alsoFollows) same
  obtain ⟨children, rests⟩ := Tree.eq_of_argumentsText told _ below follows alsoFollows arguments
  have symbols := nameOf_inj made named (String.toList_inj.mp names ▸ otherNamed)
  exact ⟨Tree.eq_of_symbol_of_children symbols children, rests⟩

theorem told_of_knows (made : ofRules start rules = .ok grammar) (plain : grammar.PlainlyNamed)
    (tree : Tree) (known : grammar.Knows tree) : tree.Told grammar := by
  induction tree using Tree.induction with
  | hole category => exact told_of_children made plain _ ((knows_iff _).mp known).1 nofun
  | node operator children ih =>
    obtain ⟨named, below⟩ := (knows_iff _).mp known
    exact told_of_children made plain _ named fun child member => ih child member
      (below child member)

/-- Trees over the grammar's symbols are told apart by their texts. -/
theorem display_eq_iff (made : ofRules start rules = .ok grammar) (plain : grammar.PlainlyNamed)
    (left right : Tree) (knowsLeft : grammar.Knows left) (knowsRight : grammar.Knows right) :
    left.display grammar = right.display grammar ↔ left = right := by
  constructor
  · intro same
    exact (told_of_knows made plain left knowsLeft right knowsRight [] [] .nothing .nothing
      (by rw [same])).1
  · rintro rfl
    rfl

def blankRules : List Rule :=
  [⟨"E", "", ["E", "E"]⟩, ⟨"E", " ", []⟩]

def blankGrammar : Grammar where
  toDraft := Draft.ofRules "E" blankRules
  start := ⟨0⟩
  wellFormed := (Draft.fault?_eq_none _ _).mp (by decide)

theorem blanks_told_apart :
    let left := Tree.node ⟨0⟩ [.hole ⟨0⟩, .leaf ⟨0⟩]
    let right := Tree.node ⟨0⟩ [.hole ⟨0⟩, .leaf ⟨1⟩]
    ofRules "E" blankRules = .ok blankGrammar ∧ blankGrammar.PlainlyNamed ∧
    blankGrammar.Knows left ∧ blankGrammar.Knows right ∧
    left.display blankGrammar ≠ right.display blankGrammar := by
  intro left right
  have apart : ∀ rule ∈ blankRules, ¬Rule.IsCategory "E" blankRules rule.operator := by decide
  have made : ofRules "E" blankRules = .ok blankGrammar := by
    rw [ofRules_of_apart _ _ apart, Draft.build_eq_ok_iff]
    exact ⟨rfl, rfl⟩
  have plain : blankGrammar.PlainlyNamed := by
    unfold PlainlyNamed
    decide
  have knownHole : blankGrammar.Knows (.hole ⟨0⟩) := (knows_iff _).mpr ⟨⟨_, rfl⟩, nofun⟩
  have knownEmpty : blankGrammar.Knows (.leaf ⟨0⟩) := (knows_iff _).mpr ⟨⟨_, rfl⟩, nofun⟩
  have knownBlank : blankGrammar.Knows (.leaf ⟨1⟩) := (knows_iff _).mpr ⟨⟨_, rfl⟩, nofun⟩
  have knowsLeft : blankGrammar.Knows left :=
    (knows_iff _).mpr ⟨⟨_, rfl⟩, by simp [left, Tree.children, knownHole, knownEmpty]⟩
  have knowsRight : blankGrammar.Knows right :=
    (knows_iff _).mpr ⟨⟨_, rfl⟩, by simp [right, Tree.children, knownHole, knownBlank]⟩
  exact ⟨made, plain, knowsLeft, knowsRight,
    (display_eq_iff made plain left right knowsLeft knowsRight).not.mpr (by decide)⟩

end Grammar

end ByExample
