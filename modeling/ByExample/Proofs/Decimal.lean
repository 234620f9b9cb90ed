import ByExample.Decimal
import ByExample.Json.Scanner
import Mathlib.Data.List.TakeWhile
import Mathlib.Tactic.IntervalCases

/-!
Integers in digits. What is written of an integer is read back (`integer?_digits`), and it is a JSON
number (`isNumber_digits`): there are no leading zeros.
-/

namespace ByExample.Decimal

theorem isDigit_of_mem_toDigits (n : Nat) (c : Char) (member : c ∈ Nat.toDigits 10 n) :
    '0' ≤ c ∧ c ≤ '9' := by
  have digit := Nat.isDigit_of_mem_toDigits (by decide) (by decide) member
  simpa [Char.isDigit, Char.le_def] using digit

theorem extend?_eq (leading : Nat) (text : List Char) (digits : ∀ c ∈ text, '0' ≤ c ∧ c ≤ '9') :
    extend? leading text = some (Nat.ofDigitChars 10 text leading) := by
  induction text generalizing leading with
  | nil => rfl
  | cons c rest ih =>
    obtain ⟨first, others⟩ := List.forall_mem_cons.mp digits
    simp only [extend?, digit?, first, and_self, ↓reduceIte, ih _ others, Nat.ofDigitChars_cons]

theorem digits_of_extend? (leading : Nat) (text : List Char) (n : Nat)
    (read : extend? leading text = some n) : ∀ c ∈ text, '0' ≤ c ∧ c ≤ '9' := by
  induction text generalizing leading with
  | nil => nofun
  | cons c rest ih =>
    by_cases digit : '0' ≤ c ∧ c ≤ '9'
    · simp only [extend?, digit?, if_pos digit] at read
      exact List.forall_mem_cons.mpr ⟨digit, ih _ read⟩
    · simp [extend?, digit?, if_neg digit] at read

theorem digits_of_natural? (text : List Char) (n : Nat) (read : natural? text = some n) :
    ∀ c ∈ text, '0' ≤ c ∧ c ≤ '9' := by
  rw [natural?, Option.ite_none_left_eq_some] at read
  exact digits_of_extend? 0 text n read.2

theorem natural?_toDigits (n : Nat) : natural? (Nat.toDigits 10 n) = some n := by
  rw [natural?, if_neg Nat.toDigits_ne_nil, extend?_eq 0 _ (isDigit_of_mem_toDigits n),
    Nat.ofDigitChars_ten_toDigits]

theorem toDigits_inj {m n : Nat} (same : Nat.toDigits 10 m = Nat.toDigits 10 n) : m = n := by
  have read := congrArg natural? same
  rw [natural?_toDigits, natural?_toDigits] at read
  exact Option.some.inj read

theorem not_mem_toDigits (n : Nat) (sign : Char) (other : ¬('0' ≤ sign ∧ sign ≤ '9')) :
    sign ∉ Nat.toDigits 10 n :=
  fun member => other (isDigit_of_mem_toDigits n sign member)

theorem integer?_digits (value : Int) : integer? (digits value) = some value := by
  cases value with
  | ofNat n =>
    have natural := natural?_toDigits n
    -- No sign is a digit.
    cases spelled : Nat.toDigits 10 n with
    | nil => exact absurd spelled Nat.toDigits_ne_nil
    | cons c rest =>
      have unsigned (sign : Char) (other : ¬('0' ≤ sign ∧ sign ≤ '9')) : c ≠ sign := by
        rintro rfl
        exact not_mem_toDigits n c other (spelled ▸ List.mem_cons_self)
      have minus := unsigned '-' (by decide)
      have plus := unsigned '+' (by decide)
      rw [spelled] at natural
      simp [digits, spelled, integer?, minus, plus, natural]
  | negSucc n =>
    rw [digits, integer?, natural?_toDigits]
    rfl

theorem not_isAlpha_of_integer? (text : List Char) (value : Int)
    (read : integer? text = some value) : ∀ c ∈ text, c.toLower.isAlpha = false := by
  have digit (c : Char) (digit : '0' ≤ c ∧ c ≤ '9') : c.toLower.isAlpha = false := by
    have low : 48 ≤ c.toNat := digit.1
    have high : c.toNat ≤ 57 := digit.2
    rw [← c.ofNat_toNat]
    interval_cases c.toNat <;> rfl
  have unsigned (text : List Char) (sign : Int → Int)
      (read : Option.map sign (natural? text) = some value) :
      ∀ c ∈ text, c.toLower.isAlpha = false := by
    obtain ⟨_, read, _⟩ := Option.map_eq_some_iff.mp read
    obtain ⟨n, natural, _⟩ := Option.bind_eq_some_iff.mp read
    exact fun c member => digit c (digits_of_natural? text n natural c member)
  unfold integer? at read
  split at read
  · exact List.forall_mem_cons.mpr ⟨by decide, unsigned _ _ read⟩
  · exact List.forall_mem_cons.mpr ⟨by decide, unsigned _ _ read⟩
  · exact unsigned text _ read

theorem word?_toInt (word : Int64) : word? word.toInt = some word := by
  rw [word?, if_pos ⟨Int64.le_iff_toInt_le.mp (Int64.minValue_le word),
    Int64.le_iff_toInt_le.mp (Int64.le_maxValue word)⟩, Int64.ofInt_toInt]

theorem head_toDigits (n : Nat) (positive : 0 < n) : (Nat.toDigits 10 n).head? ≠ some '0' := by
  induction n using Nat.strongRecOn with
  | ind n ih =>
    rw [Nat.toDigits_eq_if (by decide)]
    split
    · rename_i small
      interval_cases n <;> decide
    · have shorter := ih (n / 10) (Nat.div_lt_self positive (by decide))
        (Nat.div_pos (by omega) (by decide))
      obtain ⟨first, rest, spelled⟩ := List.exists_cons_of_ne_nil
        (Nat.toDigits_ne_nil : Nat.toDigits 10 (n / 10) ≠ [])
      rw [spelled] at shorter ⊢
      exact shorter

theorem isUnsigned_toDigits (n : Nat) : Json.isUnsigned (Nat.toDigits 10 n) = true := by
  rcases Nat.eq_zero_or_pos n with rfl | positive
  · rfl
  · have head := head_toDigits n positive
    have digits : ∀ c ∈ Nat.toDigits 10 n, Json.isDigit c = true :=
      fun c member => decide_eq_true (isDigit_of_mem_toDigits n c member)
    unfold Json.isUnsigned
    split
    · rename_i spelled
      rw [spelled] at head
      exact absurd rfl head
    · rw [List.takeWhile_eq_self_iff.mpr digits, List.dropWhile_eq_nil_iff.mpr digits]
      simp [Nat.toDigits_ne_nil, Json.isFraction, Json.isExponent]

theorem isNumber_digits (value : Int) : Json.isNumber (digits value) = true := by
  cases value with
  | negSucc n => exact isUnsigned_toDigits (n + 1)
  | ofNat n =>
    unfold Json.isNumber
    split
    · rename_i rest spelled
      have sign : Nat.toDigits 10 n = '-' :: rest := spelled
      exact absurd (sign ▸ List.mem_cons_self) (not_mem_toDigits n '-' (by decide))
    · exact isUnsigned_toDigits n

theorem digits_ne_minus_zero (value : Int) : digits value ≠ ['-', '0'] := by
  cases value with
  | negSucc n =>
    have head := head_toDigits (n + 1) (Nat.succ_pos n)
    intro spelled
    rw [(List.cons.inj spelled).2] at head
    exact head rfl
  | ofNat n =>
    intro spelled
    have sign : Nat.toDigits 10 n = ['-', '0'] := spelled
    exact absurd (sign ▸ List.mem_cons_self) (not_mem_toDigits n '-' (by decide))

end ByExample.Decimal
