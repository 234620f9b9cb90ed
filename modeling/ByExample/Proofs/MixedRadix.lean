import ByExample.Proofs.Counting
import Mathlib.Algebra.BigOperators.Group.List.Basic

/-!
The number system of an odometer. A digit counts how often the positions before it have gone round,
and the tuples are as many as the product of the radices; after so many turns there is nothing left
to show, and there never will be (`counts_in_mixed_radix`).
-/

namespace ByExample

/-- The digits of `n`: each position has the product of the radices before it for its unit. -/
def digitsOf (radices : List Nat) (n : Nat) : List Nat :=
  radices.mapIdx fun position radix => n / (radices.take position).prod % radix

theorem digitsOf_cons (radix : Nat) (radices : List Nat) (n : Nat) :
    digitsOf (radix :: radices) n = n % radix :: digitsOf radices (n / radix) := by
  rw [digitsOf, List.mapIdx_cons]
  congr 1
  · simp
  · simp [digitsOf, Nat.div_div_eq_div_mul]

theorem getElem?_digitTuples (radices : List Nat) (n : Nat) :
    (digitTuples radices)[n]? =
      if n < radices.prod then some (digitsOf radices n) else none := by
  induction radices generalizing n with
  | nil => cases n <;> simp [digitTuples, digitsOf]
  | cons radix radices ih =>
    rcases Nat.eq_zero_or_pos radix with rfl | positive
    · simp [digitTuples]
    · have bound : n / radix < radices.prod ↔ n < (radix :: radices).prod := by
        rw [List.prod_cons, Nat.div_lt_iff_lt_mul positive, Nat.mul_comm]
      rw [getElem?_digitTuples_cons radix radices positive, ih, digitsOf_cons]
      by_cases below : n / radix < radices.prod
      · rw [if_pos below, if_pos (bound.mp below), Option.map_some]
      · rw [if_neg below, if_neg (mt bound.mpr below), Option.map_none]

namespace Odometer

/-- After any number of turns the odometer shows that number in mixed radix, the first digit being
the lowest, as long as the number is below the product of the radices, and nothing from then on. -/
theorem counts_in_mixed_radix (radices : List Nat) (turns : Nat) :
    (increment^[turns] (start radices)).current? =
      if turns < radices.prod then
        some (radices.mapIdx fun position radix =>
          turns / (radices.take position).prod % radix)
      else none := by
  rw [current?_iterate, getElem?_digitTuples, digitsOf]

example : (increment^[5] (start [2, 3])).current? = some [1, 2] := by decide

end Odometer

end ByExample
