import ByExample.Proofs.Arithmetic.Pruning
import ByExample.Proofs.Arithmetic.Reading
import ByExample.Proofs.Minimality

/-!
The growing search over arithmetic finds a smallest program, if there is any within its largest size
(`synthesize_bottomUp`).
-/

namespace ByExample.Arithmetic

namespace Table

variable {grammar : Grammar} {table : Table}

theorem posed (made : ofGrammar grammar = .ok table) (examples : List (Example Environment Int64))
    (sensible : examples ≠ [] ∨ table.semantics.isPredicate grammar.start = false) :
    (table.context grammar examples).Posed := by
  intro tree solves
  rcases sensible with some | primary
  · obtain ⟨first, member⟩ := List.exists_mem_of_ne_nil examples some
    have evaluated := (Context.check_eq_true_iff _ tree).mp solves.checked first member
    by_contra predicate
    rw [Bool.not_eq_false] at predicate
    have value := (table.evaluate_eq_ok_iff tree first.input first.output).mp evaluated
    obtain ⟨truth, same⟩ := exists_truth_of_generates made grammar.start predicate tree
      solves.generated first.input _ value
    cases same
  · exact primary

/-- A search up to a size ends. Unless it ends with an error, it returns a program exactly if some
program of at most that size reproduces every example, and then a smallest one. -/
theorem synthesize_bottomUp (made : ofGrammar grammar = .ok table)
    (examples : List (Example Environment Int64))
    (sensible : examples ≠ [] ∨ table.semantics.isPredicate grammar.start = false)
    (maxSize turns : Nat) :
    let ctx := table.context grammar examples
    let ended := synthesize ctx .bottomUp { maxSize } turns
    (maxSize < turns → ended.isSome = true) ∧
    ∀ result, ended = some (.ok result) →
      ((∃ program, result = .program program) ↔ ∃ tree, ctx.Solves tree ∧ tree.size ≤ maxSize) ∧
      (∀ program, result = .program program → ctx.Solves program.tree ∧ program.size ≤ maxSize ∧
        ∀ tree, ctx.Solves tree → program.size ≤ tree.size) ∧
      ((¬∃ program, result = .program program) → result = .notFound) := by
  intro ctx ended
  constructor
  · intro enough
    exact Search.isSome_run ctx maxSize turns _ (.start maxSize) rfl enough
  · intro result answered
    have settles : ctx.Settles maxSize result :=
      Search.settles_run (posed made examples sensible) (table.compositional grammar examples)
        maxSize turns _ (.start maxSize) rfl (Bank.unsolved_start maxSize) result answered
    cases result with
    | program program =>
      refine ⟨⟨fun _ => ⟨program.tree, settles.1, settles.2.1⟩, fun _ => ⟨program, rfl⟩⟩, ?_, ?_⟩
      · rintro _ ⟨⟩
        exact settles
      · intro missing
        exact absurd ⟨program, rfl⟩ missing
    | notFound =>
      refine ⟨⟨nofun, ?_⟩, nofun, fun _ => rfl⟩
      rintro ⟨tree, solves, bounded⟩
      exact absurd bounded (Nat.not_le_of_lt (settles tree solves))
    | timeout => cases settles

end Table

theorem synthesize_sum :
    Table.ofGrammar sumGrammar = .ok sumTable ∧
    ∃ program, synthesize (sumContext 3 4) .bottomUp { maxSize := 3 } 4 =
        some (.ok (.program program)) ∧
      (sumContext 3 4).Solves program.tree ∧ program.size ≤ 3 := by
  have made : Table.ofGrammar sumGrammar = .ok sumTable := by
    rw [Table.ofGrammar_eq_ok_iff]
    decide +kernel
  obtain ⟨ends, settled⟩ := Table.synthesize_bottomUp made [⟨.ofList [("x", 3)], 4⟩]
    (Or.inl (List.cons_ne_nil _ _)) 3 4
  obtain ⟨outcome, ended⟩ := Option.isSome_iff_exists.mp (ends (by decide))
  obtain ⟨result, rfl⟩ :=
    Search.exists_ok_of_synthesize (exists_signature_of_sum 3 4) { maxSize := 3 } 4 outcome ended
  obtain ⟨found, smallest, _⟩ := settled result ended
  have solves : (sumContext 3 4).Solves (.node ⟨2⟩ [.leaf ⟨0⟩, .leaf ⟨1⟩]) :=
    ⟨⟨⟨rfl, rfl⟩, rfl⟩, rfl⟩
  obtain ⟨program, rfl⟩ := found.mpr ⟨_, solves, by decide⟩
  obtain ⟨right, bounded, _⟩ := smallest program rfl
  exact ⟨made, program, ended, right, bounded⟩

end ByExample.Arithmetic
