import ByExample.Proofs.Arithmetic.Pruning
import ByExample.Proofs.Minimality

/-!
The growing search succeeds at most once. Trees that reproduce every example are of one class, so
that at no time more than one of them is kept (`Consistent.single`). A success puts this one into
store, where it stays, and no later frontier has another (`Solved.report`).
-/

namespace ByExample

variable {ι ο : Type} [DecidableEq ο] {ctx : Context ι ο}

/-- The component is of the start category, and its values are the expected outputs. -/
def Component.Hits (ctx : Context ι ο) (component : Component) : Prop :=
  component.category = ctx.grammar.start ∧
    ∃ signature, ctx.signature component.category component.tree = .ok signature ∧
      signature.agrees ctx.expected = true

theorem Component.Valid.hits {component : Component} (valid : component.Valid ctx)
    (solving : component.solves = true) : component.Hits ctx := by
  obtain ⟨signature, signed, marked⟩ := valid.signed
  rw [marked, Bool.and_eq_true, decide_eq_true_eq] at solving
  exact ⟨solving.1, signature, signed, solving.2⟩

theorem Component.Hits.classOf {component : Component} (hits : component.Hits ctx)
    (valid : component.Valid ctx) : ctx.classOf component.tree =
      .ok (ctx.grammar.start, .primary (ctx.expected.map some)) := by
  obtain ⟨ofStart, signature, signed, agrees⟩ := hits
  rw [ctx.agrees_iff] at agrees
  exact (ctx.classOf_eq_ok_iff valid.generated _ _).mpr ⟨ofStart, agrees ▸ signed⟩

namespace Bank

variable [Hashable ο] {bank : Bank ο}

/-- No two of the components kept are hits. -/
def Single (ctx : Context ι ο) (bank : Bank ο) : Prop :=
  bank.kept.Pairwise fun earlier later => ¬(earlier.Hits ctx ∧ later.Hits ctx)

theorem Consistent.single (consistent : bank.Consistent ctx) : bank.Single ctx := by
  have classes := List.pairwise_map.mp consistent.distinct
  refine classes.imp_of_mem fun earlierMember laterMember different => ?_
  rintro ⟨earlierHits, laterHits⟩
  have earlierClass := earlierHits.classOf (consistent.valid _ earlierMember)
  have laterClass := laterHits.classOf (consistent.valid _ laterMember)
  exact different (earlierClass.trans laterClass.symm)

theorem Consistent.offered (consistent : bank.Consistent ctx) (offered : List (Category × Tree))
    (begun : offered <+: bank.offers ctx.grammar (bank.size + 1)) :
    (Bank.offerAll ctx { bank with size := bank.size + 1 } offered).2.Consistent ctx := by
  apply consistent.raised.offerAll
  rintro ⟨category, tree⟩ member
  obtain ⟨generated, sized⟩ := consistent.of_offers category tree (begun.subset member)
  exact ⟨generated, Nat.le_of_eq sized⟩

def Solved (bank : Bank ο) : Prop :=
  ∃ component ∈ bank.stored, component.solves = true

theorem exists_solving_of_report (bank : Bank ο) (program : Program)
    (reported : bank.report = .correct program) :
    ∃ component ∈ bank.frontier, component.solves = true := by
  cases found : bank.frontier.find? (·.solves) with
  | none => simp [report, found] at reported
  | some component =>
    exact ⟨component, Array.mem_of_find?_eq_some found, by simpa using Array.find?_some found⟩

theorem solved_of_correct (program : Program)
    (reported : (bank.step ctx).1 = .ok (some (.correct program))) :
    (bank.advance ctx).Solved := by
  obtain ⟨_, correct, stored⟩ := round_of_report _ reported
  obtain ⟨component, member, solving⟩ := exists_solving_of_report _ program correct
  rw [stored]
  exact ⟨component, Array.mem_append_right _ member, solving⟩

theorem Solved.advance (solved : bank.Solved) : (bank.advance ctx).Solved := by
  obtain ⟨component, member, solving⟩ := solved
  refine ⟨component, ?_, solving⟩
  rw [← (round_frame ctx bank).2.2] at member
  rw [Bank.advance]
  rcases step_cases ctx bank with ⟨_, done⟩ | ⟨_, ⟨error, _, failed⟩ | ⟨_, finished⟩⟩
  · rw [done]
    exact (round_frame ctx bank).2.2 ▸ member
  · rw [failed]
    exact member
  · rw [finished]
    exact Array.mem_append_left _ member

theorem Solved.advances (solved : bank.Solved) (steps : Nat) :
    ((Bank.advance ctx)^[steps] bank).Solved := by
  induction steps with
  | zero => exact solved
  | succ steps ih =>
    rw [Function.iterate_succ_apply']
    exact ih.advance

theorem Solved.not_correct (solved : bank.Solved) (consistent : bank.Consistent ctx)
    (program : Program) : (bank.round ctx).2.report ≠ .correct program := by
  intro correct
  obtain ⟨old, stored, oldSolves⟩ := solved
  obtain ⟨new, waiting, newSolves⟩ := exists_solving_of_report _ program correct
  rw [← (round_frame ctx bank).2.2] at stored
  have valid := consistent.round.valid
  have oldHits := (valid old (mem_kept_of_stored stored)).hits oldSolves
  have newHits := (valid new (mem_kept_of_frontier waiting)).hits newSolves
  -- The one is in store and the other waits, so that they are two of those kept.
  obtain ⟨_, _, apart⟩ := List.pairwise_append.mp consistent.round.single
  exact apart old (Array.mem_toList_iff.mpr stored) new (Array.mem_toList_iff.mpr waiting)
    ⟨oldHits, newHits⟩

theorem Solved.report (solved : bank.Solved) (consistent : bank.Consistent ctx)
    (report : Option Step) (reported : (bank.step ctx).1 = .ok report) :
    report = none ∨ ∃ size frontier, report = some (.round size frontier) := by
  cases report with
  | none => exact Or.inl rfl
  | some report =>
    obtain ⟨_, rfl, _⟩ := round_of_report report reported
    rcases consistent.round.report_cases with ⟨program, correct, _⟩ | ⟨round, _⟩
    · exact absurd correct (solved.not_correct consistent program)
    · exact Or.inr ⟨_, _, congrArg some round⟩

theorem report_after_success (maxSize first : Nat) (program : Program)
    (correct : ((after ctx maxSize first).step ctx).1 = .ok (some (.correct program)))
    (later : Nat) (past : first < later) (report : Option Step)
    (reported : ((after ctx maxSize later).step ctx).1 = .ok report) :
    report = none ∨ ∃ size frontier, report = some (.round size frontier) := by
  obtain ⟨further, rfl⟩ := Nat.exists_eq_add_of_lt past
  have solved : (after ctx maxSize (first + further + 1)).Solved := by
    rw [after, Nat.add_right_comm, Nat.add_comm, Function.iterate_add_apply, ← after, after_succ]
    exact (solved_of_correct program correct).advances further
  exact solved.report (consistent_after ctx maxSize _) report reported

/-- Between the steps of a fresh search, faults among them or not, and halfway through a step, at
most one of the components kept has the expected outputs. At most one step reports a program, and
after it all steps that do not fail report the size of a round, or nothing. -/
theorem succeeds_once (ctx : Context ι ο) (maxSize : Nat) :
    (∀ rounds, let bank := after ctx maxSize rounds
      bank.Single ctx ∧ ∀ offered, offered <+: bank.offers ctx.grammar (bank.size + 1) →
        (offerAll ctx { bank with size := bank.size + 1 } offered).2.Single ctx) ∧
    (∀ first second program other,
      ((after ctx maxSize first).step ctx).1 = .ok (some (.correct program)) →
      ((after ctx maxSize second).step ctx).1 = .ok (some (.correct other)) → first = second) ∧
    ∀ first program,
      ((after ctx maxSize first).step ctx).1 = .ok (some (.correct program)) →
      ∀ later, first < later → ∀ report,
        ((after ctx maxSize later).step ctx).1 = .ok report →
        report = none ∨ ∃ size frontier, report = some (.round size frontier) := by
  refine ⟨?_, ?_, report_after_success maxSize⟩
  · intro rounds bank
    have consistent : bank.Consistent ctx := consistent_after ctx maxSize rounds
    exact ⟨consistent.single, fun offered begun => (consistent.offered offered begun).single⟩
  · intro first second program other correct alsoCorrect
    by_contra different
    rcases Nat.lt_or_gt_of_ne different with before | past
    · rcases report_after_success maxSize first program correct second before _ alsoCorrect with
        none | ⟨_, _, round⟩
      · cases none
      · cases round
    · rcases report_after_success maxSize second other alsoCorrect first past _ correct with
        none | ⟨_, _, round⟩
      · cases none
      · cases round

end Bank

open Arithmetic Bank in
theorem sums_succeed_once :
    ∃ first program, ((after (sumContext 3 4) 5 first).step (sumContext 3 4)).1 =
        .ok (some (.correct program)) ∧
      ∀ later, first < later → ∃ report,
        ((after (sumContext 3 4) 5 later).step (sumContext 3 4)).1 = .ok report ∧
        (report = none ∨ ∃ size frontier, report = some (.round size frontier)) := by
  obtain ⟨outcome, ended⟩ :=
    Option.isSome_iff_exists.mp (Search.isSome_of_lt (sumContext 3 4) 5 6 (by decide))
  obtain ⟨result, rfl⟩ :=
    Search.exists_ok_of_synthesize (exists_signature_of_sum 3 4) { maxSize := 5 } 6 outcome ended
  have settles := Search.settles_of_synthesize (fun _ _ => rfl)
    (sumTable.compositional sumGrammar [⟨.ofList [("x", 3)], 4⟩]) 5 6 result ended
  cases result with
  | program program =>
    obtain ⟨first, _, reported⟩ := Search.exists_report_of_program _ _ _ _ program ended
    rw [Search.report_bottomUp] at reported
    refine ⟨first, program, reported, fun later past => ?_⟩
    obtain ⟨report, passed⟩ := (consistent_after (sumContext 3 4) 5 later).exists_report
      (exists_signature_of_sum 3 4)
    obtain ⟨_, _, onward⟩ := succeeds_once (sumContext 3 4) 5
    exact ⟨report, passed, onward first program reported later past report passed⟩
  | notFound =>
    have solves : (sumContext 3 4).Solves (.node ⟨2⟩ [.leaf ⟨0⟩, .leaf ⟨1⟩]) :=
      ⟨⟨⟨rfl, rfl⟩, rfl⟩, rfl⟩
    exact absurd (settles _ solves) (by decide)
  | timeout => cases settles

end ByExample
