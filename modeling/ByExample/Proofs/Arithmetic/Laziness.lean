import ByExample.Proofs.Arithmetic.Reading
import ByExample.Proofs.Filling
import ByExample.Proofs.Outcome

/-!
Which of its arguments an operator looks at (`Operator.LooksAt`). One that it looks at makes it fail
by failing (`combine_of_looksAt`); the others do not matter (`combine_congr`). So where the
evaluation of a tree with holes comes to an end without looking at a hole, it comes to the same end
however the holes are filled (`holes_left_aside`).
-/

namespace ByExample

/-- What either evaluation says of the first tree it says of the second one too, unless it is a
fault. -/
structure Semantics.Upholds {ι ο : Type} (semantics : Semantics ι ο) (input : ι)
    (tree other : Tree) : Prop where
  evaluate : Ending.ofResult (semantics.evaluate tree input) ≠ .fault →
    semantics.evaluate other input = semantics.evaluate tree input
  evaluatePredicate : Ending.ofResult (semantics.evaluatePredicate tree input) ≠ .fault →
    semantics.evaluatePredicate other input = semantics.evaluatePredicate tree input

namespace Arithmetic

namespace Operator

def next? : Operator → Value → Option Nat
  | .calculate _, .int _ => some 1
  | .compare _, .int _ => some 1
  | .connect connective, .bool left => if left = connective.decisive then none else some 1
  | .choose, .bool condition => if condition then some 1 else some 2
  | _, _ => none

/-- The operator looks at the argument in this position: at the first one if their number is right,
and where it looks next if that one has a value. -/
inductive LooksAt (operator : Operator) : List Evaluated → Nat → Prop where
  | first (result : Evaluated) (rest : List Evaluated)
      (fitting : (result :: rest).length = operator.arity) : LooksAt operator (result :: rest) 0
  | next (value : Value) (rest : List Evaluated) (position : Nat)
      (fitting : rest.length + 1 = operator.arity) (further : operator.next? value = some position) :
      LooksAt operator (.ok value :: rest) position

variable {operator : Operator} {results others : List Evaluated} {position : Nat}

theorem LooksAt.fitting (looks : operator.LooksAt results position) :
    results.length = operator.arity := by
  cases looks with
  | first result rest fitting => exact fitting
  | next value rest position fitting further => exact fitting

theorem combine_of_looksAt (looks : operator.LooksAt results position) (failure : Failure)
    (found : results[position]? = some (.error failure)) (name : String)
    (environment : Environment) :
    operator.combine name environment results = .error failure := by
  cases looks with
  | first result rest fitting =>
    cases found
    cases operator with
    | literal _ | truth _ | parameter => cases fitting
    | negate | not =>
      obtain rfl := List.length_eq_zero_iff.mp (Nat.succ.inj fitting)
      rfl
    | calculate _ | compare _ | connect _ =>
      obtain ⟨right, rfl⟩ := List.length_eq_one_iff.mp (Nat.succ.inj fitting)
      rfl
    | choose =>
      obtain ⟨positive, negative, rfl⟩ := List.length_eq_two.mp (Nat.succ.inj fitting)
      rfl
  | next value rest position fitting further =>
    cases operator with
    | literal _ | truth _ | parameter | negate | not => cases further
    | calculate _ | compare _ =>
      obtain ⟨right, rfl⟩ := List.length_eq_one_iff.mp (Nat.succ.inj fitting)
      cases value with
      | bool truth => cases further
      | int left =>
        cases further
        cases found
        rfl
    | connect connective =>
      obtain ⟨right, rfl⟩ := List.length_eq_one_iff.mp (Nat.succ.inj fitting)
      cases value with
      | int number => cases further
      | bool left =>
        obtain ⟨undecided, further⟩ := Option.ite_none_left_eq_some.mp further
        cases further
        cases found
        simp [combine, ofTwo, bind, Except.bind, Value.toBool, undecided]
    | choose =>
      obtain ⟨positive, negative, rfl⟩ := List.length_eq_two.mp (Nat.succ.inj fitting)
      rcases value with number | _ | _
      · cases further
      · cases further
        cases found
        rfl
      · cases further
        cases found
        rfl

theorem combine_congr (name : String) (environment : Environment)
    (long : results.length = others.length)
    (same : ∀ position, operator.LooksAt results position →
      results[position]? = others[position]?) :
    operator.combine name environment results = operator.combine name environment others := by
  by_cases fitting : results.length = operator.arity
  · have alike : others.length = operator.arity := long ▸ fitting
    cases operator with
    | literal _ | truth _ | parameter =>
      rw [List.length_eq_zero_iff.mp fitting, List.length_eq_zero_iff.mp alike]
    | negate | not =>
      obtain ⟨argument, rfl⟩ := List.length_eq_one_iff.mp fitting
      obtain ⟨other, rfl⟩ := List.length_eq_one_iff.mp alike
      cases same 0 (.first _ _ rfl)
      rfl
    | calculate _ | compare _ =>
      obtain ⟨left, right, rfl⟩ := List.length_eq_two.mp fitting
      obtain ⟨_, other, rfl⟩ := List.length_eq_two.mp alike
      cases same 0 (.first _ _ rfl)
      rcases left with failure | value | truth
      · rfl
      · cases same 1 (.next _ _ 1 rfl rfl)
        rfl
      · rfl
    | connect connective =>
      obtain ⟨left, right, rfl⟩ := List.length_eq_two.mp fitting
      obtain ⟨_, other, rfl⟩ := List.length_eq_two.mp alike
      cases same 0 (.first _ _ rfl)
      rcases left with failure | value | truth
      · rfl
      · rfl
      · by_cases decided : truth = connective.decisive
        · simp [combine, ofTwo, bind, Except.bind, Value.toBool, decided]
        · cases same 1 (.next _ _ 1 rfl (if_neg decided))
          rfl
    | choose =>
      obtain ⟨condition, positive, negative, rfl⟩ := List.length_eq_three.mp fitting
      obtain ⟨_, _, _, rfl⟩ := List.length_eq_three.mp alike
      cases same 0 (.first _ _ rfl)
      rcases condition with failure | value | _ | _
      · rfl
      · rfl
      · cases same 2 (.next _ _ 2 rfl rfl)
        rfl
      · cases same 1 (.next _ _ 1 rfl rfl)
        rfl
  · rw [operator.combine_of_length_ne name environment results fitting,
      operator.combine_of_length_ne name environment others (long ▸ fitting), long]

end Operator

namespace Table

variable {table : Table} {environment : Environment} {tree filled : Tree}

theorem value_of_yields (yields : tree.Yields filled)
    (settled : table.value environment tree ≠ .error .incomplete) :
    table.value environment filled = table.value environment tree := by
  induction tree using Tree.induction generalizing filled with
  | hole category => exact absurd rfl settled
  | node operator children ih =>
    obtain _ | ⟨_, _, others, below⟩ := yields
    rw [value] at settled ⊢
    rw [value]
    cases known : table.operators[operator.index]? with
    | none => rfl
    | some entry =>
      simp only [known, values_eq_map] at settled ⊢
      apply Eq.symm
      apply Operator.combine_congr
      · rw [List.length_map, List.length_map, below.length_eq]
      · intro position looks
        rw [List.getElem?_map, List.getElem?_map]
        cases there : children[position]? with
        | none =>
          have beyond : others[position]? = none := by
            rw [List.getElem?_eq_none_iff] at there ⊢
            exact below.length_eq ▸ there
          rw [beyond]
        | some child =>
          obtain ⟨other, here, related⟩ := exists_getElem?_of_forall₂ below position child there
          -- Were the child unsettled, the operator would have looked at that failure.
          have childSettled : table.value environment child ≠ .error .incomplete := by
            intro unsettled
            apply settled
            apply Operator.combine_of_looksAt looks
            simp [there, unsettled]
          have same := ih child (List.mem_of_getElem? there) related childSettled
          simp [here, same]

theorem upholds_of_yields (yields : tree.Yields filled) :
    table.semantics.Upholds environment tree filled := by
  by_cases settled : table.value environment tree = .error .incomplete
  · -- Both evaluations fault.
    constructor
    · intro answered
      rw [(table.evaluate_eq_error_iff tree environment _).mpr (Or.inl ⟨_, settled, rfl⟩)] at answered
      exact absurd rfl answered
    · intro answered
      rw [(table.evaluatePredicate_eq_error_iff tree environment _).mpr
        (Or.inl ⟨_, settled, rfl⟩)] at answered
      exact absurd rfl answered
  · have same := value_of_yields yields settled
    constructor
    · intro _
      simp only [semantics, evaluate, same]
    · intro _
      simp only [semantics, evaluatePredicate, same]

/-- What an evaluation says of a tree with holes, unless it is a fault, it says of the tree with any
tree in the place of a hole, and however its holes are filled. -/
theorem holes_left_aside (table : Table) (environment : Environment) (tree : Tree) :
    (∀ path category, tree.get? path = some (.hole category) → ∀ new, ∃ changed,
      tree.replace? path new = some changed ∧ table.semantics.Upholds environment tree changed) ∧
    ∀ filled, tree.Yields filled → table.semantics.Upholds environment tree filled := by
  constructor
  · intro path category found new
    obtain ⟨changed, replacement⟩ := Tree.exists_replacement new found
    have yields : tree.Yields changed := replacement.yields_of_yields (Tree.yields_refl changed)
    exact ⟨changed, replacement.replace?_eq, upholds_of_yields yields⟩
  · intro filled yields
    exact upholds_of_yields yields

/-- The branch that is not chosen may be anything, and so may a summand after a rejected one. -/
theorem branch_left_aside :
    let table : Table :=
      { operators := #[("x", .parameter), ("0", .literal 0), ("true", .truth true),
          ("ite", .choose), ("div", .calculate .div), ("add", .calculate .add)]
        predicates := #[false] }
    let environment := Environment.ofList [("x", 7)]
    let chosen := Tree.node ⟨3⟩ [.leaf ⟨2⟩, .leaf ⟨0⟩, .hole ⟨0⟩]
    let rejected := Tree.node ⟨5⟩ [.node ⟨4⟩ [.leaf ⟨0⟩, .leaf ⟨1⟩], .hole ⟨0⟩]
    (chosen.replace? [2] (.leaf ⟨2⟩)).map (table.semantics.evaluate · environment) =
        some (.ok 7) ∧
      (rejected.replace? [1] (.leaf ⟨2⟩)).map (table.semantics.evaluate · environment) =
        some (.error (.rejected "division by zero")) := by
  intro table environment chosen rejected
  have value : table.semantics.evaluate chosen environment = .ok 7 := by rfl
  have rejection : table.semantics.evaluate rejected environment =
      .error (.rejected "division by zero") := by rfl
  constructor
  · obtain ⟨changed, replaced, upheld⟩ :=
      (table.holes_left_aside environment chosen).1 [2] ⟨0⟩ rfl (.leaf ⟨2⟩)
    rw [replaced, Option.map_some, upheld.evaluate (by rw [value]; nofun), value]
  · obtain ⟨changed, replaced, upheld⟩ :=
      (table.holes_left_aside environment rejected).1 [1] ⟨0⟩ rfl (.leaf ⟨2⟩)
    rw [replaced, Option.map_some, upheld.evaluate (by rw [rejection]; nofun), rejection]

end Table

end Arithmetic

end ByExample
