import ByExample.Product.Odometer

/-!
Tuples of digits that number sizes of a given sum. A sieve runs an odometer over the positions in
some columns of sizes and stops only where the sizes add up. Nothing but the sizes is looked at.
-/

namespace ByExample

def weigh : (columns : List (List Nat)) → (digits : List Nat) →
    Within (columns.map List.length) digits → Nat
  | [], [], _ => 0
  | column :: columns, digit :: digits, within =>
    column.get ⟨digit, within.1⟩ + weigh columns digits within.2

structure Sieve where
  columns : List (List Nat)
  total : Nat
  odometer : Odometer
  radices_eq : odometer.radices = columns.map List.length

namespace Sieve

def start (columns : List (List Nat)) (total : Nat) : Sieve where
  columns := columns
  total := total
  odometer := .start (columns.map List.length)
  radices_eq := Odometer.radices_start _

def increment (sieve : Sieve) : Sieve :=
  { sieve with
    odometer := sieve.odometer.increment
    radices_eq := sieve.radices_eq }

theorem within (sieve : Sieve) (digits : List Nat)
    (shown : sieve.odometer.current? = some digits) :
    Within (sieve.columns.map List.length) digits :=
  sieve.radices_eq ▸ sieve.odometer.within digits shown

/-- Passes over the tuples up to the first one of the wanted sum, and over that one too, which it
gives back. Once the odometer has shown all of them there is nothing to give. -/
def next (sieve : Sieve) : Option (List Nat) × Sieve :=
  match shown : sieve.odometer.current? with
  | none => (none, sieve)
  | some digits =>
    if weigh sieve.columns digits (sieve.within digits shown) = sieve.total then
      (some digits, sieve.increment)
    else sieve.increment.next
termination_by sieve.odometer.remaining
decreasing_by exact sieve.odometer.remaining_increment_lt digits shown

variable {sieve : Sieve}

theorem next_of_none (shown : sieve.odometer.current? = none) : sieve.next = (none, sieve) := by
  rw [next]
  split
  · rfl
  · rename_i found
    cases found.symm.trans shown

theorem next_of_some {digits : List Nat} (shown : sieve.odometer.current? = some digits) :
    sieve.next =
      if weigh sieve.columns digits (sieve.within digits shown) = sieve.total then
        (some digits, sieve.increment)
      else sieve.increment.next := by
  rw [next]
  split
  · rename_i ended
    cases ended.symm.trans shown
  · rename_i found
    cases found.symm.trans shown
    rfl

end Sieve

end ByExample
