import ByExample.Proofs.Refinement
import ByExample.Proofs.Round
import ByExample.Proofs.Running

/-!
Soundness of both strategies, whatever the language does. The states that a search reaches, past
faults included, are states in which each report is what it says (`reports_sound`).
-/

namespace ByExample

variable {ι ο : Type} [DecidableEq ο] [Hashable ο]

/-- The states that a search of this strategy and largest size can be in. -/
def Progress.Sound (ctx : Context ι ο) (strategy : Strategy) (maxSize : Nat) : Progress ο → Prop
  | .topDown worklist => strategy = .topDown ∧ worklist.Admitted ctx.grammar
  | .bottomUp bank => bank.Consistent ctx ∧ bank.maxSize = maxSize

variable {ctx : Context ι ο} {strategy : Strategy} {maxSize : Nat}

theorem Bank.Consistent.report_sound {bank : Bank ο} (consistent : bank.Consistent ctx)
    (report : Step) (reported : (bank.step ctx).1 = .ok (some report)) :
    report.Sound ctx strategy bank.maxSize := by
  rcases step_cases ctx bank with ⟨_, done⟩ | ⟨room, ⟨error, _, failed⟩ | ⟨_, finished⟩⟩
  · rw [done] at reported
    cases reported
  · rw [failed] at reported
    cases reported
  · rw [finished] at reported
    cases reported
    have raised := (round_frame ctx bank).2.1
    rcases consistent.round.report_cases with ⟨program, correct, solves, bounded⟩ | ⟨round, _⟩
    · rw [correct]
      exact ⟨solves, fun _ => by omega⟩
    · rw [round]
      trivial

namespace Search

theorem sound_start (ctx : Context ι ο) (strategy : Strategy) (limits : Limits) :
    (start ctx.grammar strategy limits : Search ο).progress.Sound ctx strategy limits.maxSize := by
  cases strategy with
  | topDown => exact ⟨rfl, Worklist.admitted_start ctx.grammar⟩
  | bottomUp => exact ⟨Bank.consistent_start limits.maxSize, rfl⟩

theorem sound_step (progress : Progress ο) (sound : progress.Sound ctx strategy maxSize) :
    (stepProgress ctx progress).2.Sound ctx strategy maxSize ∧
      ∀ report, (stepProgress ctx progress).1 = .ok (some report) →
        report.Sound ctx strategy maxSize := by
  cases progress with
  | topDown worklist =>
    obtain ⟨rfl, admitted⟩ := sound
    obtain ⟨kept, reports⟩ := admitted.step maxSize
    exact ⟨⟨rfl, kept⟩, reports⟩
  | bottomUp bank =>
    obtain ⟨consistent, rfl⟩ := sound
    exact ⟨⟨consistent.step, Bank.maxSize_advance ctx bank⟩, consistent.report_sound⟩

theorem sound_iterate (steps : Nat) (search : Search ο)
    (sound : search.progress.Sound ctx strategy maxSize) :
    ((advance ctx)^[steps] search).progress.Sound ctx strategy maxSize := by
  induction steps with
  | zero => exact sound
  | succ steps ih =>
    rw [Function.iterate_succ_apply', (step_progress ctx _).2]
    exact (sound_step _ ih).1

theorem report_sound (search : Search ο) (sound : search.progress.Sound ctx strategy maxSize)
    (report : Step) (reported : (search.step ctx).1 = .ok (some report)) :
    report.Sound ctx strategy maxSize := by
  rw [(step_progress ctx search).1] at reported
  exact (sound_step search.progress sound).2 report reported

theorem accepts_of_verdict (search : Search ο) (sound : search.progress.Sound ctx strategy maxSize)
    (program : Program)
    (found : verdict (search.step ctx).1 = some (.ok (.program program))) :
    ctx.Accepts strategy maxSize program := by
  have reported := (verdict_eq_program_iff _ program).mp found
  exact report_sound search sound (.correct program) reported

theorem accepts_of_run (search : Search ο) (sound : search.progress.Sound ctx strategy maxSize)
    (limits : Limits) (turns : Nat) (program : Program)
    (found : (search.run ctx limits turns).1 = some (.ok (.program program))) :
    ctx.Accepts strategy maxSize program := by
  obtain ⟨steps, _, reported⟩ := exists_report_of_program ctx limits turns search program found
  exact report_sound _ (sound_iterate steps search sound) (.correct program) reported

/-- A fresh search driven for any number of steps reports no program but one that reproduces every
example, and no candidate but partial programs of the start category. The programs that a turn or a
run returns are no different. -/
theorem reports_sound (ctx : Context ι ο) (strategy : Strategy) (limits : Limits) (steps : Nat) :
    let search : Search ο := (advance ctx)^[steps] (start ctx.grammar strategy limits)
    (∀ report, (search.step ctx).1 = .ok (some report) →
      report.Sound ctx strategy limits.maxSize) ∧
    (∀ others elapsed program,
      (search.turn ctx others elapsed).1 = some (.ok (.program program)) →
      ctx.Accepts strategy limits.maxSize program) ∧
    (∀ others turns program, (search.run ctx others turns).1 = some (.ok (.program program)) →
      ctx.Accepts strategy limits.maxSize program) ∧
    ∀ turns program, synthesize ctx strategy limits turns = some (.ok (.program program)) →
      ctx.Accepts strategy limits.maxSize program := by
  intro search
  have fresh := sound_start ctx strategy limits
  have sound : search.progress.Sound ctx strategy limits.maxSize :=
    sound_iterate steps (start ctx.grammar strategy limits) fresh
  refine ⟨report_sound search sound, ?_, accepts_of_run search sound, ?_⟩
  · intro others elapsed program found
    rcases result_of_turn ctx others elapsed search _ found with late | missed | reported
    · cases late
    · cases missed
    · exact accepts_of_verdict search sound program reported
  · intro turns program found
    exact accepts_of_run _ fresh limits turns program found

end Search

end ByExample
