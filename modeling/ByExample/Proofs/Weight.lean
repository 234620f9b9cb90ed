import ByExample.Proofs.Filling

/-!
The weight of a tree: how many productions it takes to derive it. Expanding a hole adds one
(`HoleAt.weight_replacement`, `weight_expansion`), and no tree is heavier than what it yields. In a
language without literal arguments the weight of a program is its size (`weight_eq_size`).
-/

namespace ByExample.Grammar

def argumentsOf (grammar : Grammar) (operator : Terminal) : List Symbol :=
  match grammar.argumentTypesOf operator with
  | .ok arguments => arguments
  | .error _ => []

mutual

/-- The number of operators in a tree, the leaves in the places of literal arguments left out. -/
def weight (grammar : Grammar) : Tree → Nat
  | .hole _ => 0
  | .node operator children => 1 + weightAll grammar children (grammar.argumentsOf operator)

def weightAll (grammar : Grammar) : List Tree → List Symbol → Nat
  | [], _ => 0
  | _ :: rest, .terminal _ :: arguments => weightAll grammar rest arguments
  | child :: rest, .category _ :: arguments =>
    weight grammar child + weightAll grammar rest arguments
  -- What stands in the place of no argument is in the place of no literal either.
  | child :: rest, [] => weight grammar child + weightAll grammar rest []

end

variable {grammar : Grammar}

theorem argumentsOf_operator (production : Production) (member : production ∈ grammar.productions) :
    grammar.argumentsOf production.operator = production.arguments := by
  simp [argumentsOf, argumentTypesOf, grammar.productionOf_operator production member, Except.map]

theorem mem_argumentsOf (operator : Terminal) (argument : Symbol)
    (among : argument ∈ grammar.argumentsOf operator) :
    ∃ production ∈ grammar.productions, argument ∈ production.arguments := by
  cases found : grammar.productionOf operator with
  | error error => simp [argumentsOf, argumentTypesOf, found, Except.map] at among
  | ok production =>
    have member := ((grammar.productionOf_eq_ok_iff operator production).mp found).1
    exact ⟨production, member,
      by simpa [argumentsOf, argumentTypesOf, found, Except.map] using among⟩

theorem weightAll_set {children : List Tree} {arguments : List Symbol} {position : Nat}
    {child changed : Tree} {argument : Category} (added : Nat)
    (found : children[position]? = some child)
    (expected : arguments[position]? = some (.category argument))
    (heavier : grammar.weight changed = grammar.weight child + added) :
    grammar.weightAll (children.set position changed) arguments =
      grammar.weightAll children arguments + added := by
  induction children generalizing arguments position with
  | nil => simp at found
  | cons first rest ih =>
    cases arguments with
    | nil => simp at expected
    | cons next arguments =>
      cases position with
      | zero =>
        cases Option.some.inj found
        cases Option.some.inj expected
        simp only [List.set_cons_zero, weightAll, heavier]
        omega
      | succ position =>
        have later := @ih arguments position found expected
        cases next <;> simp only [List.set_cons_succ, weightAll, later]
        omega

theorem weightAll_ofSymbol (arguments : List Symbol) :
    grammar.weightAll (arguments.map Tree.ofSymbol) arguments = 0 := by
  induction arguments with
  | nil => rfl
  | cons argument arguments ih => cases argument <;> simp [weightAll, Tree.ofSymbol, weight, ih]

theorem weight_expansion (production : Production) (member : production ∈ grammar.productions) :
    grammar.weight (.expansion production) = 1 := by
  rw [Tree.expansion, weight, argumentsOf_operator production member, weightAll_ofSymbol]

theorem HoleAt.weight_replacement {category hole : Category} {path : Path} {new tree changed : Tree}
    (holeAt : grammar.HoleAt hole path category tree)
    (replacement : Tree.Replacement (.hole hole) new path tree changed) :
    grammar.weight changed = grammar.weight tree + grammar.weight new := by
  induction holeAt generalizing changed with
  | here =>
    cases replacement
    simp [weight]
  | child production member children position path child argument found expected _ ih =>
    obtain _ | ⟨_, _, _, _, same, next, there, below⟩ := replacement
    cases found.symm.trans there
    rw [weight, weight, argumentsOf_operator production member,
      weightAll_set _ found expected (ih below), Nat.add_assoc]

theorem weightAll_le (children others : List Tree) (arguments : List Symbol)
    (lighter : List.Forall₂ (fun child other => grammar.weight child ≤ grammar.weight other)
      children others) :
    grammar.weightAll children arguments ≤ grammar.weightAll others arguments := by
  induction lighter generalizing arguments with
  | nil => exact Nat.le_refl _
  | cons first _ ih =>
    rcases arguments with _ | ⟨_ | _, arguments⟩
    · exact Nat.add_le_add first (ih [])
    · exact ih arguments
    · exact Nat.add_le_add first (ih arguments)

theorem weight_le_of_yields (tree filled : Tree) (yields : tree.Yields filled) :
    grammar.weight tree ≤ grammar.weight filled := by
  induction tree using Tree.induction generalizing filled with
  | hole category => exact Nat.zero_le _
  | node operator children ih =>
    obtain _ | ⟨_, _, others, below⟩ := yields
    rw [weight, weight]
    apply Nat.add_le_add_left
    apply weightAll_le
    exact forall₂_imp_of_mem below fun child member other _ => ih child member other

def LiteralFree (grammar : Grammar) : Prop :=
  ∀ production ∈ grammar.productions, ∀ operator, .terminal operator ∉ production.arguments

theorem weightAll_eq_sizeAll (trees : List Tree) (arguments : List Symbol)
    (free : ∀ operator, .terminal operator ∉ arguments)
    (same : ∀ tree ∈ trees, grammar.weight tree = tree.size) :
    grammar.weightAll trees arguments = Tree.sizeAll trees := by
  induction trees generalizing arguments with
  | nil => rfl
  | cons tree trees ih =>
    have first := same tree List.mem_cons_self
    have rest := fun later member => same later (List.mem_cons_of_mem tree member)
    rcases arguments with _ | ⟨operator | _, arguments⟩
    · rw [weightAll, Tree.sizeAll, first, ih [] free rest]
    · exact absurd List.mem_cons_self (free operator)
    · rw [weightAll, Tree.sizeAll, first,
        ih arguments (fun operator among => free operator (List.mem_cons_of_mem _ among)) rest]

theorem weight_eq_size (free : grammar.LiteralFree) (tree : Tree)
    (complete : tree.isComplete = true) : grammar.weight tree = tree.size := by
  induction tree using Tree.induction with
  | hole category => cases complete
  | node operator children ih =>
    rw [Tree.isComplete, Tree.allComplete_eq_all, List.all_eq_true] at complete
    rw [weight, Tree.size, weightAll_eq_sizeAll]
    · intro literal among
      obtain ⟨production, member, argument⟩ := mem_argumentsOf operator _ among
      exact free production member literal argument
    · exact fun child member => ih child member (complete child member)

end ByExample.Grammar
