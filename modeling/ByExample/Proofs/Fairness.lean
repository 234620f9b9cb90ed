import ByExample.Proofs.Enumeration
import ByExample.Proofs.Running

/-!
The refining search comes to every program of the start category, however many trees wait: the
queue is fair (`exists_first_of_waits`), and whenever the tree that has the program ahead is taken
off, one production less is missing. So a search for which there is a solution ends
(`reaches_each_program`).
-/

namespace ByExample

variable {ι ο : Type} [DecidableEq ο] {ctx : Context ι ο}

namespace Worklist

variable {program : Tree} {steps : Nat}

theorem exists_first_of_waits (steps : Nat) (tree : Tree)
    (waits : tree ∈ (after ctx steps).toList) :
    ∃ later rest, (after ctx later).toList = tree :: rest := by
  obtain ⟨front, back, split⟩ := List.append_of_mem waits
  -- The trees in front leave one by one, and none comes in before the tree.
  induction front generalizing steps back with
  | nil => exact ⟨steps, back, split⟩
  | cons next front ih =>
    have moved := (step_after ctx steps next (front ++ tree :: back) split).2
    rw [List.append_assoc, List.cons_append] at moved
    exact ih (steps + 1) (by simp [moved]) _ moved

/-- The tree that has a program ahead is the program or gives way to one that is closer to it. -/
theorem exists_dequeued_or_closer (generated : ctx.grammar.Generates ctx.grammar.start program)
    (origin : Tree) (waits : origin ∈ (after ctx steps).toList) (yields : origin.Yields program) :
    ∃ later, program ∈ dequeued ctx later ∨
      ∃ refined ∈ (after ctx later).toList, refined.Yields program ∧
        ctx.grammar.weight refined = ctx.grammar.weight origin + 1 := by
  obtain ⟨later, rest, first⟩ := exists_first_of_waits steps origin waits
  refine ⟨later + 1, ?_⟩
  have admits := admitted_after ctx later origin (first ▸ List.mem_cons_self)
  cases complete : origin.isComplete with
  | true =>
    obtain rfl := origin.eq_of_yields program complete yields
    exact Or.inl ((mem_dequeued_iff ctx _ _).mpr ⟨later, Nat.lt_succ_self later, rest, first⟩)
  | false =>
    obtain ⟨refined, member, kept⟩ := exists_mem_successors admits complete generated yields
    have among : refined ∈ (after ctx (later + 1)).toList := by
      rw [(step_after ctx later origin rest first).2]
      exact List.mem_append_right rest member
    exact Or.inr ⟨refined, among, kept, weight_of_mem_successors admits member⟩

theorem exists_dequeued_of_yields (generated : ctx.grammar.Generates ctx.grammar.start program)
    (missing steps : Nat) (origin : Tree) (waits : origin ∈ (after ctx steps).toList)
    (yields : origin.Yields program)
    (near : ctx.grammar.weight program ≤ ctx.grammar.weight origin + missing) :
    ∃ later, program ∈ dequeued ctx later := by
  induction missing generalizing steps origin with
  | zero =>
    obtain ⟨later, done | ⟨refined, _, kept, closer⟩⟩ :=
      exists_dequeued_or_closer generated origin waits yields
    · exact ⟨later, done⟩
    · -- There is no production left to go.
      have bounded := ctx.grammar.weight_le_of_yields refined program kept
      omega
  | succ missing ih =>
    obtain ⟨later, done | ⟨refined, among, kept, closer⟩⟩ :=
      exists_dequeued_or_closer generated origin waits yields
    · exact ⟨later, done⟩
    · exact ih later refined among kept (by omega)

theorem exists_dequeued (generated : ctx.grammar.Generates ctx.grammar.start program) :
    ∃ steps, program ∈ dequeued ctx steps := by
  have waits : .hole ctx.grammar.start ∈ (after ctx 0).toList := by
    rw [after, Function.iterate_zero_apply, start, toList_ofList]
    exact List.mem_cons_self
  exact exists_dequeued_of_yields generated (ctx.grammar.weight program) 0 _ waits
    (.hole _ program) (Nat.le_add_left _ _)

/-- None of the first steps ends a run. -/
def Quiet (ctx : Context ι ο) (steps : Nat) : Prop :=
  ∀ earlier < steps, Search.verdict (report ctx earlier) = none

theorem Reported.of_verdict {tree : Tree} {report : Except SearchError (Option Step)}
    (reported : Reported ctx tree report) (result : Except SearchError Result)
    (ended : Search.verdict report = some result) :
    ∃ complete : tree.isComplete = true,
      (ctx.check tree = .ok true ∧ result = .ok (.program ⟨tree, complete⟩)) ∨
      ∃ error, ctx.check tree = .error error ∧ result = .error error := by
  cases reported with
  | expanded => cases ended
  | failed complete error checked =>
    exact ⟨complete, Or.inr ⟨error, checked, (Option.some.inj ended).symm⟩⟩
  | correct complete checked => exact ⟨complete, Or.inl ⟨checked, (Option.some.inj ended).symm⟩⟩
  | incorrect => cases ended

theorem Quiet.not_mem_dequeued (quiet : Quiet ctx steps) (solves : ctx.Solves program) :
    program ∉ dequeued ctx steps := by
  intro member
  have noError : ∀ earlier < steps, ∀ error, report ctx earlier ≠ .error error := by
    intro earlier before error failed
    have silent := quiet earlier before
    rw [failed] at silent
    cases silent
  have noSuccess : ∀ earlier < steps, ∀ found,
      report ctx earlier ≠ .ok (some (.correct found)) := by
    intro earlier before found correct
    have silent := quiet earlier before
    rw [correct] at silent
    cases silent
  have mismatch :=
    check_eq_false_of_dequeued solves.generated.complete member noError noSuccess
  cases mismatch.symm.trans solves.checked

theorem Quiet.exists_origin (quiet : Quiet ctx steps) (solves : ctx.Solves program) :
    ∃ origin ∈ (after ctx steps).toList, origin.Yields program := by
  rcases (partition_after ctx steps).covered program solves.generated with done | waiting
  · exact absurd done (quiet.not_mem_dequeued solves)
  · exact waiting

theorem Quiet.exists_first (quiet : Quiet ctx steps) (solves : ctx.Solves program) :
    ∃ tree rest, (after ctx steps).toList = tree :: rest ∧
      Reported ctx tree (report ctx steps) := by
  obtain ⟨origin, waits, _⟩ := quiet.exists_origin solves
  cases first : (after ctx steps).toList with
  | nil => simp [first] at waits
  | cons tree rest => exact ⟨tree, rest, rfl, (step_after ctx steps tree rest first).1⟩

end Worklist

namespace Search

variable [Hashable ο]

theorem progress_topDown (ctx : Context ι ο) (limits : Limits) (steps : Nat) :
    ((advance ctx)^[steps] (start ctx.grammar .topDown limits)).progress =
      .topDown (Worklist.after ctx steps) := by
  induction steps with
  | zero => rfl
  | succ steps ih =>
    rw [Function.iterate_succ_apply', (step_progress ctx _).2, ih, Worklist.after_succ]
    rfl

theorem report_topDown (ctx : Context ι ο) (limits : Limits) (steps : Nat) :
    (((advance ctx)^[steps] (start ctx.grammar .topDown limits)).step ctx).1 =
      Worklist.report ctx steps := by
  rw [(step_progress ctx _).1, progress_topDown]
  rfl

end Search

namespace Worklist

variable [Hashable ο]

theorem synthesize_cases (ctx : Context ι ο) (maxSize turns : Nat) :
    (synthesize ctx .topDown { maxSize } turns = none ∧ Quiet ctx turns) ∨
    ∃ steps result, synthesize ctx .topDown { maxSize } turns = some result ∧ Quiet ctx steps ∧
      Search.verdict (report ctx steps) = some result := by
  have cases := Search.run_cases ctx maxSize turns (.start ctx.grammar .topDown { maxSize })
  simp only [Search.report_topDown] at cases
  exact cases

theorem quiet_of_synthesize (limits : Limits) (turns : Nat) (program : Program)
    (found : synthesize ctx .topDown limits turns = some (.ok (.program program))) :
    ∃ steps, Quiet ctx steps ∧ report ctx steps = .ok (some (.correct program)) := by
  have reported := Search.exists_report_of_program ctx limits turns _ program found
  simp only [Search.report_topDown] at reported
  exact reported

theorem exists_synthesized (solves : ctx.Solves program) (maxSize : Nat) :
    ∃ turns steps result, synthesize ctx .topDown { maxSize } turns = some result ∧
      Quiet ctx steps ∧ Search.verdict (report ctx steps) = some result := by
  obtain ⟨turns, member⟩ := exists_dequeued solves.generated
  rcases synthesize_cases ctx maxSize turns with ⟨_, quiet⟩ | ended
  · exact absurd member (quiet.not_mem_dequeued solves)
  · exact ⟨turns, ended⟩

/-- Each program of the start category is taken off after some number of steps. So if there is one
that reproduces every example, a run without limits comes to an end, and with a program unless the
evaluation of one fails. -/
theorem reaches_each_program (ctx : Context ι ο) (program : Tree)
    (generated : ctx.grammar.Generates ctx.grammar.start program) :
    (∃ steps, program ∈ dequeued ctx steps) ∧
    (ctx.check program = .ok true → ∀ maxSize, ∃ turns,
      (∃ found, synthesize ctx .topDown { maxSize } turns = some (.ok (.program found))) ∨
      ∃ error, synthesize ctx .topDown { maxSize } turns = some (.error (.evaluation error))) := by
  refine ⟨exists_dequeued generated, ?_⟩
  intro checked maxSize
  have solves : ctx.Solves program := ⟨generated, checked⟩
  obtain ⟨turns, steps, result, ended, quiet, verdict⟩ := exists_synthesized solves maxSize
  refine ⟨turns, ?_⟩
  obtain ⟨tree, _, _, reported⟩ := quiet.exists_first solves
  obtain ⟨complete, ⟨_, rfl⟩ | ⟨error, failed, rfl⟩⟩ := reported.of_verdict result verdict
  · exact Or.inl ⟨_, ended⟩
  · obtain ⟨_, _, reason, _, rfl⟩ := ctx.exists_fault_of_check tree error failed
    exact Or.inr ⟨_, ended⟩

/-- Towers of endings on one word. The first production tried leads into a category without
programs, in which the search never comes to an end. -/
def towerGrammar : Grammar where
  terminals := .ofList ["a", "Concat", "b", "Reject", "loop"]
  categories := .ofList ["word", "void"]
  productions :=
    [⟨⟨0⟩, ⟨3⟩, [.category ⟨1⟩]⟩, ⟨⟨0⟩, ⟨1⟩, [.category ⟨0⟩, .terminal ⟨2⟩]⟩, ⟨⟨0⟩, ⟨0⟩, []⟩,
      ⟨⟨1⟩, ⟨4⟩, [.category ⟨1⟩]⟩]
  start := ⟨0⟩
  wellFormed := (Draft.fault?_eq_none _ _).mp (by decide)

def towers (wanted : String) : Context Unit String :=
  { grammar := towerGrammar
    examples := [⟨(), wanted⟩]
    semantics := Words.semantics towerGrammar }

theorem reaches_tower :
    let tower := Tree.node ⟨1⟩ [.node ⟨1⟩ [.leaf ⟨0⟩, .leaf ⟨2⟩], .leaf ⟨2⟩]
    (towers "abb").check tower = .ok true ∧ (∃ steps, tower ∈ dequeued (towers "abb") steps) ∧
    ∃ turns,
      (∃ found, synthesize (towers "abb") .topDown { } turns = some (.ok (.program found))) ∨
      ∃ error, synthesize (towers "abb") .topDown { } turns =
        some (.error (.evaluation error)) := by
  intro tower
  have checked : (towers "abb").check tower = .ok true := by rfl
  obtain ⟨reached, ends⟩ := reaches_each_program (towers "abb") tower ⟨⟨rfl, rfl⟩, rfl⟩
  exact ⟨checked, reached, ends checked 20⟩

end Worklist

end ByExample
