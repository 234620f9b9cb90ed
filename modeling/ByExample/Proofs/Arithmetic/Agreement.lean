import ByExample.Proofs.Arithmetic.Pruning
import ByExample.Proofs.BreadthFirst
import ByExample.Proofs.Faults
import ByExample.Proofs.Minimality

/-!
The two strategies agree on languages without literal arguments, where a lightest program is a
smallest one (`strategies_agree`). The refining search has tried many programs that the growing
search never built. None of them is larger than the one it finds, though, so none of them faults if
the growing search has come to that size.
-/

namespace ByExample

namespace Worklist

variable {ι ο : Type} [DecidableEq ο] {ctx : Context ι ο}

theorem Quiet.exists_smallest {steps : Nat} (quiet : Quiet ctx steps)
    (free : ctx.grammar.LiteralFree)
    (primary : ctx.semantics.isPredicate ctx.grammar.start = false) (program : Program)
    (solves : ctx.Solves program.tree)
    (smallest : ∀ tree, ctx.Solves tree → program.size ≤ tree.size)
    (signed : ∀ tree, ctx.grammar.Generates ctx.grammar.start tree → tree.size ≤ program.size →
      ∃ signature, ctx.signature ctx.grammar.start tree = .ok signature)
    (result : Except SearchError Result)
    (ended : Search.verdict (report ctx steps) = some result) :
    ∃ found, result = .ok (.program found) ∧ found.size = program.size := by
  obtain ⟨tree, rest, first, reported⟩ := quiet.exists_first solves
  obtain ⟨complete, outcome⟩ := reported.of_verdict result ended
  have admits := admitted_after ctx steps tree (first ▸ List.mem_cons_self)
  have generated : ctx.grammar.Generates ctx.grammar.start tree := ⟨admits, complete⟩
  have bounded : tree.size ≤ program.size := by
    have lighter := quiet.weight_le solves first
    rwa [Grammar.weight_eq_size free tree complete,
      Grammar.weight_eq_size free program.tree program.complete] at lighter
  rcases outcome with ⟨checked, rfl⟩ | ⟨error, failed, _⟩
  · exact ⟨_, rfl, Nat.le_antisymm bounded (smallest tree ⟨generated, checked⟩)⟩
  · obtain ⟨signature, same⟩ := signed tree generated bounded
    exact absurd failed (ctx.check_ne_error_of_signature _ tree signature primary same error)

variable [Hashable ο]

theorem size_le_of_synthesize (free : ctx.grammar.LiteralFree) (limits : Limits) (turns : Nat)
    (program : Program)
    (found : synthesize ctx .topDown limits turns = some (.ok (.program program))) (tree : Tree)
    (solves : ctx.Solves tree) : program.size ≤ tree.size := by
  have lighter := weight_le_of_synthesize limits turns program found tree solves
  rwa [Grammar.weight_eq_size free program.tree program.complete,
    Grammar.weight_eq_size free tree solves.generated.complete] at lighter

end Worklist

namespace Search

variable {ι ο : Type} [DecidableEq ο] [Hashable ο] {ctx : Context ι ο}

theorem refined_of_grown (free : ctx.grammar.LiteralFree)
    (primary : ctx.semantics.isPredicate ctx.grammar.start = false)
    (compositional : ctx.Compositional) (maxSize turns : Nat) (program : Program)
    (grown : synthesize ctx .bottomUp { maxSize } turns = some (.ok (.program program)))
    (limit : Nat) :
    (∃ enough, (synthesize ctx .topDown { maxSize := limit } enough).isSome = true) ∧
    ∀ others result, synthesize ctx .topDown { maxSize := limit } others = some result →
      ∃ found, result = .ok (.program found) ∧ found.size = program.size := by
  have posed : ctx.Posed := fun _ _ => primary
  obtain ⟨solves, _, smallest⟩ : ctx.Settles maxSize (.program program) :=
    settles_of_synthesize posed compositional maxSize turns _ grown
  constructor
  · obtain ⟨enough, _, _, ended, _⟩ := Worklist.exists_synthesized solves limit
    exact ⟨enough, Option.isSome_of_eq_some ended⟩
  · intro others result ended
    have signed := exists_signature_of_synthesize posed compositional _ turns program grown
    rcases Worklist.synthesize_cases ctx limit others with
      ⟨none, _⟩ | ⟨steps, outcome, same, quiet, verdict⟩
    · cases none.symm.trans ended
    · cases same.symm.trans ended
      exact quiet.exists_smallest free primary program solves smallest (signed _) result verdict

theorem grown_of_refined (free : ctx.grammar.LiteralFree)
    (primary : ctx.semantics.isPredicate ctx.grammar.start = false)
    (compositional : ctx.Compositional) (limit turns : Nat) (program : Program)
    (refined : synthesize ctx .topDown { maxSize := limit } turns = some (.ok (.program program)))
    (maxSize : Nat) (within : program.size ≤ maxSize) (enough : Nat) (past : maxSize < enough) :
    (∃ cause, synthesize ctx .bottomUp { maxSize } enough = some (.error (.evaluation cause))) ∨
    ∃ found, synthesize ctx .bottomUp { maxSize } enough = some (.ok (.program found)) ∧
      found.size = program.size := by
  have sound := sound_start ctx .topDown { maxSize := limit }
  have solves := (accepts_of_run _ sound _ turns program refined).solves
  obtain ⟨outcome, ended⟩ := Option.isSome_iff_exists.mp (isSome_of_lt ctx maxSize enough past)
  cases outcome with
  | error error =>
    have grown := sound_start ctx .bottomUp { maxSize }
    rcases faults_of_run _ grown _ enough error ended with _ | _
    · exact Or.inl ⟨_, ended⟩
    · exact Or.inl ⟨_, ended⟩
  | ok result =>
    have settles := settles_of_synthesize (fun _ _ => primary) compositional maxSize enough _ ended
    cases result with
    | program other =>
      obtain ⟨otherSolves, _, smallest⟩ := settles
      have smaller :=
        Worklist.size_le_of_synthesize free _ turns program refined other.tree otherSolves
      exact Or.inr ⟨other, ended, Nat.le_antisymm (smallest program.tree solves) smaller⟩
    | notFound => exact absurd within (Nat.not_le_of_lt (settles program.tree solves))
    | timeout => cases settles

end Search

namespace Arithmetic

/-- On a language without literal arguments, if a growing search finds a program, then a refining
search without limits ends, and with no other result than a program of the same size. Conversely, if
a refining search finds a program, then a growing search up to its size or beyond finds one of the
same size, unless the evaluation of some tree fails. -/
theorem Table.strategies_agree {grammar : Grammar} {table : Table} (free : grammar.LiteralFree)
    (primary : table.semantics.isPredicate grammar.start = false)
    (examples : List (Example Environment Int64)) :
    let ctx := table.context grammar examples
    (∀ maxSize turns program,
      synthesize ctx .bottomUp { maxSize } turns = some (.ok (.program program)) →
      ∀ limit,
        (∃ enough, (synthesize ctx .topDown { maxSize := limit } enough).isSome = true) ∧
        ∀ others result, synthesize ctx .topDown { maxSize := limit } others = some result →
          ∃ found, result = .ok (.program found) ∧ found.size = program.size) ∧
    ∀ limit turns program,
      synthesize ctx .topDown { maxSize := limit } turns = some (.ok (.program program)) →
      ∀ maxSize, program.size ≤ maxSize → ∀ enough, maxSize < enough →
        (∃ cause, synthesize ctx .bottomUp { maxSize } enough =
          some (.error (.evaluation cause))) ∨
        ∃ found, synthesize ctx .bottomUp { maxSize } enough = some (.ok (.program found)) ∧
          found.size = program.size := by
  intro ctx
  have compositional : ctx.Compositional := table.compositional grammar examples
  constructor
  · exact Search.refined_of_grown free primary compositional
  · exact Search.grown_of_refined free primary compositional

theorem sums_agree :
    sumGrammar.LiteralFree ∧ sumTable.semantics.isPredicate sumGrammar.start = false ∧
    ∃ found, synthesize (sumContext 3 4) .bottomUp { maxSize := 3 } 4 =
        some (.ok (.program found)) ∧ found.size = 3 ∧
      ∀ turns result, synthesize (sumContext 3 4) .topDown { maxSize := 3 } turns = some result →
        ∃ other, result = .ok (.program other) ∧ other.size = 3 := by
  have free : sumGrammar.LiteralFree := by simp [Grammar.LiteralFree, sumGrammar]
  have primary : sumTable.semantics.isPredicate sumGrammar.start = false := rfl
  obtain ⟨growing, refining⟩ :=
    Table.strategies_agree free primary [⟨.ofList [("x", 3)], 4⟩]
  have refined : synthesize (sumContext 3 4) .topDown { maxSize := 3 } 20 =
      some (.ok (.program ⟨.node ⟨2⟩ [.leaf ⟨0⟩, .leaf ⟨1⟩], rfl⟩)) := by rfl
  rcases refining 3 20 _ refined 3 (by decide) 4 (by decide) with ⟨cause, failed⟩ | grown
  · -- None of these programs faults.
    obtain ⟨_, ended⟩ := Search.exists_ok_of_synthesize (exists_signature_of_sum 3 4) _ 4 _ failed
    cases ended
  · obtain ⟨found, ended, size⟩ := grown
    refine ⟨free, primary, found, ended, size, ?_⟩
    intro turns result refinedResult
    obtain ⟨other, same, alike⟩ := (growing 3 4 found ended 3).2 turns result refinedResult
    exact ⟨other, same, alike.trans size⟩

end Arithmetic

end ByExample
