import ByExample.Search.Basic
import Mathlib.Logic.Function.Iterate

/-!
A run is a sequence of steps that is cut short by its limits: what it returns is the answer of a
limit or the verdict on one of its steps (`result_of_run`). Without limits the verdicts alone end it
(`run_cases`).
-/

namespace ByExample.Search

variable {ι ο : Type} [DecidableEq ο] [Hashable ο] (ctx : Context ι ο) (limits : Limits)

def advance (search : Search ο) : Search ο :=
  (search.step ctx).2

theorem step_progress (search : Search ο) :
    (search.step ctx).1 = (stepProgress ctx search.progress).1 ∧
      (search.advance ctx).progress = (stepProgress ctx search.progress).2 := by
  simp only [advance, step]
  rcases stepProgress ctx search.progress with ⟨_ | _ | _, _⟩ <;> exact ⟨rfl, rfl⟩

theorem turn_of_room (elapsed : Nat) (search : Search ο) (early : limits.expired elapsed = false)
    (room : limits.spent search.steps = false) :
    search.turn ctx limits elapsed = (verdict (search.step ctx).1, search.advance ctx) := by
  simp [turn, early, room, advance]

theorem turn_cases (elapsed : Nat) (search : Search ο) :
    search.turn ctx limits elapsed = (some (.ok .timeout), search) ∨
    search.turn ctx limits elapsed = (some (.ok .notFound), search) ∨
    search.turn ctx limits elapsed = (verdict (search.step ctx).1, search.advance ctx) := by
  by_cases expired : limits.expired elapsed = true
  · exact Or.inl (by simp [turn, expired])
  · by_cases spent : limits.spent search.steps = true
    · exact Or.inr (Or.inl (by simp [turn, expired, spent]))
    · rw [Bool.not_eq_true] at expired spent
      exact Or.inr (Or.inr (turn_of_room ctx limits elapsed search expired spent))

theorem verdict_eq_program_iff (report : Except SearchError (Option Step)) (program : Program) :
    verdict report = some (.ok (.program program)) ↔ report = .ok (some (.correct program)) := by
  rcases report with _ | _ | _ | _ | _ | _ <;> simp [verdict]

theorem verdict_eq_error_iff (report : Except SearchError (Option Step)) (error : SearchError) :
    verdict report = some (.error error) ↔ report = .error error := by
  rcases report with _ | _ | _ | _ | _ | _ <;> simp [verdict]

theorem result_of_turn (elapsed : Nat) (search : Search ο) (result : Except SearchError Result)
    (ended : (search.turn ctx limits elapsed).1 = some result) :
    result = .ok .timeout ∨ result = .ok .notFound ∨ verdict (search.step ctx).1 = some result := by
  rcases turn_cases ctx limits elapsed search with late | spent | stepped
  · rw [late] at ended
    exact Or.inl (Option.some.inj ended).symm
  · rw [spent] at ended
    exact Or.inr (Or.inl (Option.some.inj ended).symm)
  · rw [stepped] at ended
    exact Or.inr (Or.inr ended)

/-- The result of a run is that of a limit or the verdict on a step, the first verdict there is. -/
theorem result_of_run (turns : Nat) (search : Search ο) (result : Except SearchError Result)
    (ended : (search.run ctx limits turns).1 = some result) :
    result = .ok .timeout ∨ result = .ok .notFound ∨
      ∃ steps, (∀ earlier < steps, verdict (((advance ctx)^[earlier] search).step ctx).1 = none) ∧
        verdict (((advance ctx)^[steps] search).step ctx).1 = some result := by
  induction turns generalizing search with
  | zero => cases ended
  | succ turns ih =>
    rcases turn_cases ctx limits 0 search with late | spent | stepped
    · rw [run, late] at ended
      exact Or.inl (Option.some.inj ended).symm
    · rw [run, spent] at ended
      exact Or.inr (Or.inl (Option.some.inj ended).symm)
    · rw [run, stepped] at ended
      cases reported : verdict (search.step ctx).1 with
      | some outcome =>
        rw [reported] at ended
        exact Or.inr (Or.inr ⟨0, nofun, reported.trans ended⟩)
      | none =>
        rw [reported] at ended
        rcases ih (search.advance ctx) ended with late | missed | ⟨steps, quiet, later⟩
        · exact Or.inl late
        · exact Or.inr (Or.inl missed)
        · exact Or.inr (Or.inr
            ⟨steps + 1, Nat.forall_lt_succ_left.mpr ⟨reported, quiet⟩, later⟩)

theorem exists_report_of_program (turns : Nat) (search : Search ο) (program : Program)
    (found : (search.run ctx limits turns).1 = some (.ok (.program program))) :
    ∃ steps, (∀ earlier < steps, verdict (((advance ctx)^[earlier] search).step ctx).1 = none) ∧
      (((advance ctx)^[steps] search).step ctx).1 = .ok (some (.correct program)) := by
  rcases result_of_run ctx limits turns search _ found with late | missed | ⟨steps, quiet, reported⟩
  · cases late
  · cases missed
  · exact ⟨steps, quiet, (verdict_eq_program_iff _ program).mp reported⟩

theorem exists_report_of_error (turns : Nat) (search : Search ο) (error : SearchError)
    (failed : (search.run ctx limits turns).1 = some (.error error)) :
    ∃ steps, (((advance ctx)^[steps] search).step ctx).1 = .error error := by
  rcases result_of_run ctx limits turns search _ failed with late | missed | ⟨steps, _, reported⟩
  · cases late
  · cases missed
  · exact ⟨steps, (verdict_eq_error_iff _ error).mp reported⟩

theorem run_succ (maxSize turns : Nat) (search : Search ο) :
    (search.run ctx { maxSize } (turns + 1)).1 =
      (verdict (search.step ctx).1).or ((search.advance ctx).run ctx { maxSize } turns).1 := by
  rw [run, turn_of_room ctx { maxSize } 0 search rfl rfl]
  cases verdict (search.step ctx).1 <;> rfl

theorem run_cases (maxSize turns : Nat) (search : Search ο) :
    ((search.run ctx { maxSize } turns).1 = none ∧
      ∀ steps < turns, verdict (((advance ctx)^[steps] search).step ctx).1 = none) ∨
    ∃ steps result, (search.run ctx { maxSize } turns).1 = some result ∧
      (∀ earlier < steps, verdict (((advance ctx)^[earlier] search).step ctx).1 = none) ∧
      verdict (((advance ctx)^[steps] search).step ctx).1 = some result := by
  induction turns generalizing search with
  | zero => exact Or.inl ⟨rfl, nofun⟩
  | succ turns ih =>
    rw [run_succ]
    cases reported : verdict (search.step ctx).1 with
    | some result => exact Or.inr ⟨0, result, rfl, nofun, reported⟩
    | none =>
      rcases ih (search.advance ctx) with ⟨none, quiet⟩ | ⟨steps, result, ended, quiet, later⟩
      · exact Or.inl ⟨none, Nat.forall_lt_succ_left.mpr ⟨reported, quiet⟩⟩
      · exact Or.inr ⟨steps + 1, result, ended,
          Nat.forall_lt_succ_left.mpr ⟨reported, quiet⟩, later⟩

end ByExample.Search
