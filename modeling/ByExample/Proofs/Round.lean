import ByExample.Proofs.Bank
import Mathlib.Logic.Function.Iterate

/-!
The rounds of the growing search: all that a step can do (`step_cases`), what it reports, and the
banks that a fresh search reaches (`consistent_after`).
-/

namespace ByExample

namespace Bank

variable {ι ο : Type} [DecidableEq ο] [Hashable ο] {ctx : Context ι ο} {bank : Bank ο}

/-- The next round up to the point where what it kept is stored, or up to its fault. -/
def round (ctx : Context ι ο) (bank : Bank ο) : Except SearchError Unit × Bank ο :=
  offerAll ctx { bank with size := bank.size + 1 } (bank.offers ctx.grammar (bank.size + 1))

theorem round_frame (ctx : Context ι ο) (bank : Bank ο) :
    (bank.round ctx).2.maxSize = bank.maxSize ∧ (bank.round ctx).2.size = bank.size + 1 ∧
      (bank.round ctx).2.stored = bank.stored :=
  offerAll_frame { bank with size := bank.size + 1 } (bank.offers ctx.grammar (bank.size + 1))

theorem step_cases (ctx : Context ι ο) (bank : Bank ο) :
    bank.maxSize ≤ bank.size ∧ bank.step ctx = (.ok none, bank) ∨
    bank.size < bank.maxSize ∧
      ((∃ error, (bank.round ctx).1 = .error error ∧
        bank.step ctx = (.error error, (bank.round ctx).2)) ∨
      (bank.round ctx).1 = .ok () ∧
        bank.step ctx = (.ok (some (bank.round ctx).2.report), (bank.round ctx).2.store)) := by
  by_cases full : bank.maxSize ≤ bank.size
  · exact Or.inl ⟨full, by simp [step, full]⟩
  · refine Or.inr ⟨Nat.lt_of_not_le full, ?_⟩
    rcases built : bank.round ctx with ⟨error | _, after⟩
    · have failed : bank.step ctx = (.error error, after) := by
        rw [round] at built
        simp only [step, full, ↓reduceIte, built]
      exact Or.inl ⟨error, rfl, failed⟩
    · have finished : bank.step ctx = (.ok (some after.report), after.store) := by
        rw [round] at built
        simp only [step, full, ↓reduceIte, built]
      exact Or.inr ⟨rfl, finished⟩

theorem lt_of_report (bank : Bank ο) (report : Step)
    (reported : (bank.step ctx).1 = .ok (some report)) : bank.size < bank.maxSize := by
  rcases step_cases ctx bank with ⟨_, done⟩ | ⟨room, _⟩
  · rw [done] at reported
    cases reported
  · exact room

theorem Consistent.of_offers (consistent : bank.Consistent ctx) (category : Category) (tree : Tree)
    (offered : (category, tree) ∈ bank.offers ctx.grammar (bank.size + 1)) :
    ctx.grammar.Generates category tree ∧ tree.size = bank.size + 1 := by
  obtain ⟨sized, production, member, rfl, children, rfl, stocked⟩ :=
    (bank.mem_offers_iff ctx.grammar (bank.size + 1) (Nat.succ_pos _) category tree).mp offered
  have supplied := stocked.imp consistent.supplies_of_stocks
  exact ⟨(ctx.grammar.generates_node_iff production member children).mpr supplied, sized⟩

theorem Consistent.raised (consistent : bank.Consistent ctx) :
    ({ bank with size := bank.size + 1 } : Bank ο).Consistent ctx where
  valid := consistent.valid
  bounded component member := Nat.le_succ_of_le (consistent.bounded component member)
  remembered := consistent.remembered
  distinct := consistent.distinct

theorem Consistent.round (consistent : bank.Consistent ctx) :
    (bank.round ctx).2.Consistent ctx := by
  apply consistent.raised.offerAll
  rintro ⟨category, tree⟩ offered
  obtain ⟨generated, sized⟩ := consistent.of_offers category tree offered
  exact ⟨generated, Nat.le_of_eq sized⟩

theorem Consistent.step (consistent : bank.Consistent ctx) :
    (bank.step ctx).2.Consistent ctx := by
  rcases step_cases ctx bank with ⟨_, done⟩ | ⟨_, ⟨error, _, failed⟩ | ⟨_, finished⟩⟩
  · rw [done]
    exact consistent
  · rw [failed]
    exact consistent.round
  · rw [finished]
    exact consistent.round.store

theorem Consistent.faults_of_step (consistent : bank.Consistent ctx) (error : SearchError)
    (failed : (bank.step ctx).1 = .error error) : ctx.Faults error := by
  rcases step_cases ctx bank with ⟨_, done⟩ | ⟨_, ⟨other, built, stepped⟩ | ⟨_, finished⟩⟩
  · rw [done] at failed
    cases failed
  · rw [stepped] at failed
    cases failed
    obtain ⟨⟨category, tree⟩, offered, unsigned⟩ := exists_offer_of_error _ _ error built
    exact ctx.faults_of_signature (consistent.of_offers category tree offered).1 error unsigned
  · rw [finished] at failed
    cases failed

theorem Consistent.exists_report (consistent : bank.Consistent ctx)
    (total : ∀ category tree, ctx.grammar.Generates category tree →
      ∃ signature, ctx.signature category tree = .ok signature) :
    ∃ report, (bank.step ctx).1 = .ok report := by
  have finished : (bank.round ctx).1 = .ok () := by
    apply offerAll_eq_ok
    rintro ⟨category, tree⟩ offered
    exact total category tree (consistent.of_offers category tree offered).1
  rcases step_cases ctx bank with ⟨_, done⟩ | ⟨_, ⟨error, failed, _⟩ | ⟨_, stepped⟩⟩
  · exact ⟨none, by rw [done]⟩
  · rw [finished] at failed
    cases failed
  · exact ⟨some (bank.round ctx).2.report, by rw [stepped]⟩

theorem report_cases (bank : Bank ο)
    (complete : ∀ component ∈ bank.frontier, component.tree.isComplete = true) :
    (∃ program, bank.report = .correct program ∧
      ∃ component ∈ bank.frontier, component.solves = true ∧ component.tree = program.tree) ∨
    bank.report = .round bank.size bank.frontier.size ∧
      ∀ component ∈ bank.frontier, component.solves = false := by
  cases found : bank.frontier.find? (·.solves) with
  | some component =>
    have member := Array.mem_of_find?_eq_some found
    have whole := complete component member
    refine Or.inl ⟨⟨component.tree, whole⟩, ?_, component, member, ?_, rfl⟩
    · simp [report, found, Program.ofTree?, whole]
    · simpa using Array.find?_some found
  | none =>
    refine Or.inr ⟨by simp [report, found], ?_⟩
    intro component member
    simpa using Array.find?_eq_none.mp found component member

theorem Consistent.report_cases (consistent : bank.Consistent ctx) :
    (∃ program, bank.report = .correct program ∧ ctx.Solves program.tree ∧
      program.size ≤ bank.size) ∨
    bank.report = .round bank.size bank.frontier.size ∧
      ∀ component ∈ bank.frontier, component.solves = false := by
  have complete (component : Component) (member : component ∈ bank.frontier) :
      component.tree.isComplete = true :=
    (consistent.valid component (mem_kept_of_frontier member)).generated.complete
  rcases bank.report_cases complete with
    ⟨program, reported, component, member, solving, same⟩ | none
  · have among := mem_kept_of_frontier member
    have valid := consistent.valid component among
    have bounded := consistent.bounded component among
    obtain ⟨ofStart, _, checked⟩ := valid.solves_iff.mp solving
    have generated := ofStart ▸ valid.generated
    rw [same] at checked bounded generated
    exact Or.inl ⟨program, reported, ⟨generated, checked⟩, bounded⟩
  · exact Or.inr none

def advance (ctx : Context ι ο) (bank : Bank ο) : Bank ο :=
  (bank.step ctx).2

theorem round_of_report (report : Step) (reported : (bank.step ctx).1 = .ok (some report)) :
    (bank.round ctx).1 = .ok () ∧ (bank.round ctx).2.report = report ∧
      bank.advance ctx = (bank.round ctx).2.store := by
  rw [advance]
  rcases step_cases ctx bank with ⟨_, done⟩ | ⟨_, ⟨error, _, failed⟩ | ⟨clean, finished⟩⟩
  · rw [done] at reported
    cases reported
  · rw [failed] at reported
    cases reported
  · rw [finished] at reported ⊢
    exact ⟨clean, Option.some.inj (Except.ok.inj reported), rfl⟩

theorem maxSize_advance (ctx : Context ι ο) (bank : Bank ο) :
    (bank.advance ctx).maxSize = bank.maxSize := by
  rw [advance]
  rcases step_cases ctx bank with ⟨_, done⟩ | ⟨_, ⟨error, _, failed⟩ | ⟨_, finished⟩⟩
  · rw [done]
  · rw [failed]
    exact (round_frame ctx bank).1
  · rw [finished]
    exact (round_frame ctx bank).1

/-- The bank of a fresh search after some steps, faults among them or not. -/
def after (ctx : Context ι ο) (maxSize rounds : Nat) : Bank ο :=
  (advance ctx)^[rounds] (start maxSize)

theorem after_succ (ctx : Context ι ο) (maxSize rounds : Nat) :
    after ctx maxSize (rounds + 1) = (after ctx maxSize rounds).advance ctx :=
  Function.iterate_succ_apply' (advance ctx) rounds (start maxSize)

theorem consistent_after (ctx : Context ι ο) (maxSize rounds : Nat) :
    (after ctx maxSize rounds).Consistent ctx := by
  induction rounds with
  | zero => exact consistent_start maxSize
  | succ rounds ih =>
    rw [after_succ]
    exact ih.step

theorem maxSize_after (ctx : Context ι ο) (maxSize rounds : Nat) :
    (after ctx maxSize rounds).maxSize = maxSize := by
  induction rounds with
  | zero => rfl
  | succ rounds ih => rw [after_succ, maxSize_advance, ih]

theorem size_after (ctx : Context ι ο) (maxSize rounds : Nat) :
    (after ctx maxSize rounds).size = min rounds maxSize := by
  induction rounds with
  | zero => exact (Nat.zero_min maxSize).symm
  | succ rounds ih =>
    have limit := maxSize_after ctx maxSize rounds
    have raised := (round_frame ctx (after ctx maxSize rounds)).2.1
    rw [after_succ, advance]
    rcases step_cases ctx (after ctx maxSize rounds) with
      ⟨full, done⟩ | ⟨room, ⟨error, _, failed⟩ | ⟨_, finished⟩⟩
    · rw [done]
      change (after ctx maxSize rounds).size = _
      omega
    · rw [failed]
      change ((after ctx maxSize rounds).round ctx).2.size = _
      omega
    · rw [finished]
      change ((after ctx maxSize rounds).round ctx).2.size = _
      omega

end Bank

end ByExample
