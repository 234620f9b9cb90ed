import ByExample.Proofs.Successors
import ByExample.Words
import Mathlib.Data.List.Pairwise

/-!
The refining search goes through the language of the start category tree by tree. What has been
taken off the worklist and what waits in it share out the programs (`Partition`): none is lost and
none comes twice, whatever the language does (`each_program_once`).
-/

namespace ByExample.Worklist

section

variable {grammar : Grammar} {tree filled : Tree} {taken pending rest : List Tree}

/-- The programs of the start category are shared out between the trees taken off and the trees that
wait: a program has been taken off, or one waiting tree has it ahead. -/
structure Partition (grammar : Grammar) (taken pending : List Tree) : Prop where
  distinct : taken.Nodup
  apart : pending.Pairwise Tree.Apart
  fresh : ∀ tree ∈ pending, ∀ earlier ∈ taken, ¬tree.Yields earlier
  covered : ∀ program, grammar.Generates grammar.start program →
    program ∈ taken ∨ ∃ origin ∈ pending, origin.Yields program

theorem partition_start (grammar : Grammar) : Partition grammar [] [.hole grammar.start] where
  distinct := List.nodup_nil
  apart := List.pairwise_singleton _ _
  fresh := by simp
  covered program _ := Or.inr ⟨_, List.mem_cons_self, .hole grammar.start program⟩

theorem Partition.covered_step (partition : Partition grammar taken (tree :: rest))
    (admits : grammar.Admits grammar.start tree) (program : Tree)
    (generated : grammar.Generates grammar.start program) :
    program ∈ taken ++ [tree] ∨
      ∃ origin ∈ rest ++ successors grammar tree, origin.Yields program := by
  rcases partition.covered program generated with done | ⟨origin, member, yields⟩
  · exact Or.inl (List.mem_append_left _ done)
  · rcases List.mem_cons.mp member with rfl | later
    · cases complete : origin.isComplete with
      | true =>
        have same := origin.eq_of_yields program complete yields
        exact Or.inl (List.mem_append_right _ (List.mem_singleton.mpr same.symm))
      | false =>
        obtain ⟨refined, among, kept⟩ := exists_mem_successors admits complete generated yields
        exact Or.inr ⟨refined, List.mem_append_right _ among, kept⟩
    · exact Or.inr ⟨origin, List.mem_append_left _ later, yields⟩

theorem Partition.step (partition : Partition grammar taken (tree :: rest))
    (admits : grammar.Admits grammar.start tree) :
    Partition grammar (taken ++ [tree]) (rest ++ successors grammar tree) := by
  obtain ⟨first, others⟩ := List.pairwise_cons.mp partition.apart
  have new : tree ∉ taken := fun member =>
    partition.fresh tree List.mem_cons_self tree member tree.yields_refl
  refine ⟨?_, ?_, ?_, partition.covered_step admits⟩
  · exact List.nodup_append.mpr ⟨partition.distinct, List.nodup_singleton _,
      fun earlier member _ single same => new (List.mem_singleton.mp single ▸ same ▸ member)⟩
  · apply List.pairwise_append.mpr
    refine ⟨others, pairwise_successors grammar tree, ?_⟩
    intro other member refined among filled fromOther fromRefined
    exact first other member filled (yields_of_mem_successors among fromRefined) fromOther
  -- A successor yields no more than its tree did, and not the tree itself.
  · intro next waits earlier member yields
    rcases List.mem_append.mp waits with old | among <;>
      rcases List.mem_append.mp member with before | last
    · exact partition.fresh next (List.mem_cons_of_mem tree old) earlier before yields
    · rw [List.mem_singleton.mp last] at yields
      exact first next old tree tree.yields_refl yields
    · exact partition.fresh tree List.mem_cons_self earlier before
        (yields_of_mem_successors among yields)
    · rw [List.mem_singleton.mp last] at yields
      exact not_yields_of_mem_successors among yields

theorem Partition.nodup_append (partition : Partition grammar taken pending) :
    (taken ++ pending).Nodup := by
  apply List.nodup_append.mpr
  refine ⟨partition.distinct, partition.apart.imp ?_, ?_⟩
  · rintro left _ apart rfl
    exact apart left left.yields_refl left.yields_refl
  · rintro earlier member tree waits rfl
    exact partition.fresh earlier waits earlier member earlier.yields_refl

theorem Partition.eq_of_yields (partition : Partition grammar taken pending) {left right : Tree}
    (leftWaits : left ∈ pending) (rightWaits : right ∈ pending) (leftYields : left.Yields filled)
    (rightYields : right.Yields filled) : left = right := by
  by_contra different
  exact partition.apart.forall leftWaits rightWaits different filled leftYields rightYields

end

variable {ι ο : Type} [DecidableEq ο] {ctx : Context ι ο}

theorem partition_after (ctx : Context ι ο) (steps : Nat) :
    Partition ctx.grammar (dequeued ctx steps) (after ctx steps).toList :=
  invariant_after ctx (partition_start ctx.grammar) (fun _ _ _ admits partition =>
    partition.step admits) steps

theorem toList_eq_nil_of_report {steps : Nat} (exhausted : report ctx steps = .ok none) :
    (after ctx steps).toList = [] := by
  cases waiting : (after ctx steps).toList with
  | nil => rfl
  | cons tree rest =>
    have reported := (step_after ctx steps tree rest waiting).1
    rw [exhausted] at reported
    cases reported

theorem check_eq_false_of_dequeued {program : Tree} {steps : Nat}
    (complete : program.isComplete = true) (member : program ∈ dequeued ctx steps)
    (noError : ∀ earlier < steps, ∀ error, report ctx earlier ≠ .error error)
    (noSuccess : ∀ earlier < steps, ∀ found, report ctx earlier ≠ .ok (some (.correct found))) :
    ctx.check program = .ok false := by
  obtain ⟨earlier, before, reported⟩ := reported_of_dequeued member
  generalize outcome : report ctx earlier = result at reported
  cases reported with
  | expanded incomplete => cases incomplete.symm.trans complete
  | failed _ error => exact absurd outcome (noError earlier before error)
  | correct => exact absurd outcome (noSuccess earlier before _)
  | incorrect _ checked => exact checked

/-- After any number of steps no tree has come up twice, among those taken off and those that wait.
Each program of the start category has been taken off or is ahead of exactly one tree that waits.
When nothing is left all of them have been taken off, and unless a step reported an error or a
success, none reproduces the examples. -/
theorem each_program_once (ctx : Context ι ο) (steps : Nat) :
    let taken := dequeued ctx steps
    let pending := (after ctx steps).toList
    (taken ++ pending).Nodup ∧
    (∀ program, ctx.grammar.Generates ctx.grammar.start program →
      (program ∈ taken ∧ ∀ origin ∈ pending, ¬origin.Yields program) ∨
      (program ∉ taken ∧ ∃! origin, origin ∈ pending ∧ origin.Yields program)) ∧
    (report ctx steps = .ok none →
      ∀ program, ctx.grammar.Generates ctx.grammar.start program → program ∈ taken ∧
        ((∀ earlier < steps, ∀ error, report ctx earlier ≠ .error error) →
          (∀ earlier < steps, ∀ found, report ctx earlier ≠ .ok (some (.correct found))) →
          ctx.check program = .ok false)) := by
  intro taken pending
  have partition : Partition ctx.grammar taken pending := partition_after ctx steps
  refine ⟨partition.nodup_append, ?_, ?_⟩
  · intro program generated
    by_cases done : program ∈ taken
    · exact Or.inl ⟨done, fun origin waits => partition.fresh origin waits program done⟩
    · rcases partition.covered program generated with earlier | ⟨origin, waits, yields⟩
      · exact absurd earlier done
      · refine Or.inr ⟨done, origin, ⟨waits, yields⟩, ?_⟩
        rintro other ⟨otherWaits, otherYields⟩
        exact partition.eq_of_yields otherWaits waits otherYields yields
  · intro exhausted program generated
    have done : program ∈ taken := by
      rcases partition.covered program generated with earlier | ⟨origin, waits, _⟩
      · exact earlier
      · simp [pending, toList_eq_nil_of_report exhausted] at waits
    exact ⟨done, check_eq_false_of_dequeued generated.complete done⟩

def phraseGrammar : Grammar where
  terminals := .ofList ["a", "Concat", "b", "c", "d"]
  categories := .ofList ["phrase", "stem"]
  productions :=
    [⟨⟨0⟩, ⟨0⟩, []⟩, ⟨⟨0⟩, ⟨1⟩, [.category ⟨1⟩, .terminal ⟨2⟩]⟩, ⟨⟨1⟩, ⟨3⟩, []⟩, ⟨⟨1⟩, ⟨4⟩, []⟩]
  start := ⟨0⟩
  wellFormed := (Draft.fault?_eq_none _ _).mp (by decide)

def phrases (wanted : String) : Context Unit String :=
  { grammar := phraseGrammar
    examples := [⟨(), wanted⟩]
    semantics := Words.semantics phraseGrammar }

theorem phrases_exhausted :
    report (phrases "ab") 5 = .ok none ∧
    let phrase := Tree.node ⟨1⟩ [.leaf ⟨4⟩, .leaf ⟨2⟩]
    phrase ∈ dequeued (phrases "ab") 5 ∧ (phrases "ab").check phrase = .ok false := by
  have exhausted : report (phrases "ab") 5 = .ok none := by rfl
  have reports : (List.range 5).map (report (phrases "ab")) =
      [.ok (some (.expanded (.hole ⟨0⟩) 2)),
        .ok (some (.incorrect (.leaf ⟨0⟩))),
        .ok (some (.expanded (.node ⟨1⟩ [.hole ⟨1⟩, .leaf ⟨2⟩]) 2)),
        .ok (some (.incorrect (.node ⟨1⟩ [.leaf ⟨3⟩, .leaf ⟨2⟩]))),
        .ok (some (.incorrect (.node ⟨1⟩ [.leaf ⟨4⟩, .leaf ⟨2⟩])))] := by rfl
  have listed (earlier : Nat) (before : earlier < 5) :
      report (phrases "ab") earlier ∈ (List.range 5).map (report (phrases "ab")) :=
    List.mem_map_of_mem (List.mem_range.mpr before)
  rw [reports] at listed
  refine ⟨exhausted, ?_⟩
  obtain ⟨member, mismatch⟩ := (each_program_once (phrases "ab") 5).2.2 exhausted
    (.node ⟨1⟩ [.leaf ⟨4⟩, .leaf ⟨2⟩]) ⟨⟨rfl, rfl⟩, rfl⟩
  refine ⟨member, mismatch ?_ ?_⟩
  · intro earlier before error failed
    simpa [failed] using listed earlier before
  · intro earlier before found succeeded
    simpa [succeeded] using listed earlier before

end ByExample.Worklist
