import ByExample.Arithmetic.Evaluation
import ByExample.Proofs.Decimal
import Mathlib.Data.List.Basic

/-!
The texts of failures. Those that blame the shape of a tree are told from all others by their texts
(`Failure.Structural.eq_of_toEvalError_eq`), whatever names are quoted in them.
-/

namespace ByExample.Arithmetic

theorem eq_of_append_toString (first second between : String) (m n : Nat) (before : List Char)
    (mark : Char) (apart : between.toList = before ++ [mark]) (other : ¬('0' ≤ mark ∧ mark ≤ '9'))
    (same : first ++ between ++ toString m = second ++ between ++ toString n) :
    first = second ∧ m = n := by
  have inside (k : Nat) : mark ∉ Nat.toDigits 10 k := Decimal.not_mem_toDigits k mark other
  have spelled : (first.toList ++ before) ++ mark :: Nat.toDigits 10 m =
      (second.toList ++ before) ++ mark :: Nat.toDigits 10 n := by
    simpa [apart] using congrArg String.toList same
  -- Were what stands before the mark longer on one side, the digits of the other had the mark.
  rcases List.append_eq_append_iff.mp spelled with ⟨rest, longer, digits⟩ | ⟨rest, longer, digits⟩
  · obtain _ | ⟨c, rest⟩ := rest
    · rw [List.append_nil] at longer
      exact ⟨(String.toList_inj.mp (List.append_cancel_right longer)).symm,
        Decimal.toDigits_inj (List.cons.inj digits).2⟩
    · have among : mark ∈ Nat.toDigits 10 m := by
        rw [(List.cons.inj digits).2]
        exact List.mem_append_right rest List.mem_cons_self
      exact absurd among (inside m)
  · obtain _ | ⟨c, rest⟩ := rest
    · rw [List.append_nil] at longer
      exact ⟨String.toList_inj.mp (List.append_cancel_right longer),
        (Decimal.toDigits_inj (List.cons.inj digits).2).symm⟩
    · have among : mark ∈ Nat.toDigits 10 n := by
        rw [(List.cons.inj digits).2]
        exact List.mem_append_right rest List.mem_cons_self
      exact absurd among (inside n)

theorem append_toString_ne (text other : String) (n : Nat) :
    text ++ toString n ≠ other ++ " arguments" := by
  intro same
  have spelled : text.toList ++ Nat.toDigits 10 n = other.toList ++ " arguments".toList := by
    simpa using congrArg String.toList same
  have last := congrArg List.getLast? spelled
  rw [List.getLast?_append_of_ne_nil _ Nat.toDigits_ne_nil,
    List.getLast?_append_of_ne_nil _ (by decide)] at last
  exact absurd (List.mem_of_getLast? last) (Decimal.not_mem_toDigits n 's' (by decide))

namespace Failure

/-- The failures that blame the shape of a tree, and not what its parts evaluate to. -/
inductive Structural : Failure → Prop where
  | incomplete : Structural .incomplete
  | notInTable (operator : Terminal) : Structural (.notInTable operator)
  | argumentCount (name : String) (found : Nat) : Structural (.argumentCount name found)

theorem eq_notInTable (failure : Failure) (operator : Terminal)
    (same : failure.toEvalError = (notInTable operator).toEvalError) :
    failure = .notInTable operator := by
  cases failure with
  | notInTable other =>
    have digits : Nat.toDigits 10 other.index = Nat.toDigits 10 operator.index := by
      simpa [toEvalError, Terminal.text, ← String.toList_inj] using same
    exact congrArg (fun index => notInTable ⟨index⟩) (Decimal.toDigits_inj digits)
  | _ => simp [toEvalError, ← String.toList_inj] at same

theorem eq_argumentCount (failure : Failure) (name : String) (found : Nat)
    (same : failure.toEvalError = (argumentCount name found).toEvalError) :
    failure = .argumentCount name found := by
  cases failure with
  | argumentCount other count =>
    have texts := (String.append_left_inj " arguments").mp (EvalError.fault.inj same)
    obtain ⟨quoted, rfl⟩ := eq_of_append_toString _ _ "` cannot be applied to " count found
      "` cannot be applied to".toList ' ' rfl (by decide) texts
    rw [(String.append_right_inj "`").mp quoted]
  | integerExpected other position =>
    exact absurd (EvalError.fault.inj same) (append_toString_ne _ _ position)
  | booleanExpected other position =>
    exact absurd (EvalError.fault.inj same) (append_toString_ne _ _ position)
  | _ => simp [toEvalError, ← String.toList_inj] at same

theorem Structural.eq_of_toEvalError_eq {failure other : Failure} (structural : other.Structural)
    (same : failure.toEvalError = other.toEvalError) : failure = other := by
  cases structural with
  | notInTable operator => exact eq_notInTable failure operator same
  | argumentCount name found => exact eq_argumentCount failure name found same
  | incomplete =>
    cases failure with
    | incomplete => rfl
    | _ => simp [toEvalError, ← String.toList_inj] at same

end Failure

end ByExample.Arithmetic
