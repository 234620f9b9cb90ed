import ByExample.Product.Odometer
import ByExample.Product.Weighted
import Mathlib.Data.List.Forall2
import Mathlib.Logic.Function.Iterate

/-!
Counting off tuples. An odometer shows the tuples of digits below its radices, one after the other
(`current?_iterate`), and the digits below the lengths of some columns pick exactly the tuples over
these columns, in the same order (`picks_tuples`).
-/

namespace ByExample

/-- All tuples of digits below the radices, first digit fastest. -/
def digitTuples : List Nat → List (List Nat)
  | [] => [[]]
  | radix :: radices =>
    (digitTuples radices).flatMap fun rest => (List.range radix).map fun digit => digit :: rest

theorem mem_digitTuples_iff (radices digits : List Nat) :
    digits ∈ digitTuples radices ↔ Within radices digits := by
  induction radices generalizing digits with
  | nil => cases digits <;> simp [digitTuples, Within]
  | cons radix radices ih => cases digits <;> simp [digitTuples, Within, ih, and_comm]

theorem getElem?_flatMap_of_length {α β : Type} (block : α → List β) (length : Nat)
    (positive : 0 < length) (blocks : ∀ x, (block x).length = length) (xs : List α) (n : Nat) :
    (xs.flatMap block)[n]? = xs[n / length]?.bind fun x => (block x)[n % length]? := by
  induction xs generalizing n with
  | nil => simp
  | cons x xs ih =>
    rw [List.flatMap_cons]
    by_cases inside : n < length
    · rw [List.getElem?_append_left (by rw [blocks]; exact inside), Nat.div_eq_of_lt inside,
        Nat.mod_eq_of_lt inside]
      rfl
    · have past : length ≤ n := Nat.le_of_not_lt inside
      rw [List.getElem?_append_right (by rw [blocks]; exact past), blocks, ih,
        Nat.mod_eq_sub_mod past, Nat.div_eq_sub_div positive past]
      rfl

theorem getElem?_digitTuples_cons (radix : Nat) (radices : List Nat) (positive : 0 < radix)
    (n : Nat) :
    (digitTuples (radix :: radices))[n]? =
      (digitTuples radices)[n / radix]?.map fun rest => n % radix :: rest := by
  rw [digitTuples, getElem?_flatMap_of_length _ radix positive (by simp)]
  cases (digitTuples radices)[n / radix]? with
  | none => rfl
  | some rest => simp [List.getElem?_range (Nat.mod_lt n positive)]

theorem getElem?_digitTuples_succ (radices : List Nat) (n : Nat) :
    (digitTuples radices)[n + 1]? = (digitTuples radices)[n]?.bind (successor? radices) := by
  induction radices generalizing n with
  | nil => cases n <;> simp [digitTuples, successor?]
  | cons radix radices ih =>
    rcases Nat.eq_zero_or_pos radix with rfl | positive
    · simp [digitTuples]
    · rw [getElem?_digitTuples_cons radix radices positive,
        getElem?_digitTuples_cons radix radices positive]
      have split := Nat.mod_add_div n radix
      by_cases room : n % radix + 1 < radix
      · obtain ⟨quotient, remainder⟩ : (n + 1) / radix = n / radix ∧
            (n + 1) % radix = n % radix + 1 :=
          (Nat.div_mod_unique positive).mpr ⟨by omega, room⟩
        rw [quotient, remainder]
        cases (digitTuples radices)[n / radix]? <;> simp [successor?, room]
      -- The first digit is at its maximum: it starts anew, and the rest moves on.
      · have last := Nat.mod_lt n positive
        obtain ⟨quotient, remainder⟩ : (n + 1) / radix = n / radix + 1 ∧ (n + 1) % radix = 0 :=
          (Nat.div_mod_unique positive).mpr ⟨by rw [Nat.mul_succ]; omega, positive⟩
        rw [quotient, remainder, ih]
        cases (digitTuples radices)[n / radix]? <;> simp [successor?, room]

namespace Odometer

theorem current?_start (radices : List Nat) :
    (start radices).current? = (digitTuples radices)[0]? := by
  induction radices with
  | nil => rfl
  | cons radix radices ih =>
    rcases Nat.eq_zero_or_pos radix with rfl | positive
    · simp [start, digitTuples]
    · rw [getElem?_digitTuples_cons radix radices positive, Nat.zero_div, Nat.zero_mod, ← ih]
      by_cases others : ∀ other ∈ radices, 0 < other
      · have all : ∀ other ∈ radix :: radices, 0 < other :=
          List.forall_mem_cons.mpr ⟨positive, others⟩
        rw [start, dif_pos all, start, dif_pos others]
        rfl
      · have missing : ¬∀ other ∈ radix :: radices, 0 < other :=
          fun all => others (List.forall_mem_cons.mp all).2
        rw [start, dif_neg missing, start, dif_neg others]
        rfl

theorem radices_iterate (radices : List Nat) (turns : Nat) :
    (increment^[turns] (start radices)).radices = radices := by
  induction turns with
  | zero => exact radices_start radices
  | succ turns ih => rw [Function.iterate_succ_apply', radices_increment, ih]

theorem current?_iterate (radices : List Nat) (turns : Nat) :
    (increment^[turns] (start radices)).current? = (digitTuples radices)[turns]? := by
  induction turns with
  | zero => exact current?_start radices
  | succ turns ih =>
    rw [Function.iterate_succ_apply', current?_increment, radices_iterate, ih,
      getElem?_digitTuples_succ]

end Odometer

variable {α : Type}

/-- The items that the digits number, one in each column. -/
def pick? : List (List α) → List Nat → Option (List α)
  | [], [] => some []
  | column :: columns, digit :: digits => do
    let item ← column[digit]?
    let items ← pick? columns digits
    return item :: items
  | _, _ => none

theorem forall₂_range_getElem? (column : List α) :
    List.Forall₂ (fun digit item => column[digit]? = some item) (List.range column.length)
      column := by
  rw [List.forall₂_iff_get]
  simp

theorem picks_tuples (weight : α → Nat) (columns : List (List α)) :
    List.Forall₂ (fun digits tuple => pick? columns digits = some tuple.2 ∧
        ∃ weights, pick? (columns.map fun column => column.map weight) digits = some weights ∧
          weights.foldr (· + ·) 0 = tuple.1)
      (digitTuples (columns.map List.length))
      (tuples (columns.map fun column => column.map fun item => (weight item, item))) := by
  induction columns with
  | nil => exact .cons ⟨rfl, [], rfl, rfl⟩ .nil
  | cons column columns ih =>
    apply List.rel_flatMap ih
    rintro digits ⟨total, items⟩ ⟨picked, weights, weighed, rfl⟩
    simp only [List.forall₂_map_left_iff, List.forall₂_map_right_iff]
    refine (forall₂_range_getElem? column).imp fun digit item found => ⟨?_, ?_⟩
    · simp [pick?, found, picked]
    · exact ⟨weight item :: weights, by simp [pick?, found, weighed], rfl⟩

end ByExample
