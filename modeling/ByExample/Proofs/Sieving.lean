import ByExample.Product.Sieve
import ByExample.Proofs.Counting
import Mathlib.Algebra.BigOperators.Group.Finset.Basic
import Mathlib.Data.List.GetD

/-!
What comes through a sieve. Each call gives the next of the tuples whose sizes have the wanted sum,
which are the ones that `tuplesOfWeight` lists, and once they are used up every call gives nothing
(`Sieve.lists_tuples_of_weight`).
-/

namespace ByExample

/-- The sum of the sizes that the digits number; a digit too large counts nothing. -/
def weightOf (columns : List (List Nat)) (digits : List Nat) : Nat :=
  ∑ position ∈ Finset.range columns.length,
    (columns.getD position []).getD (digits.getD position 0) 0

theorem weightOf_cons (column : List Nat) (columns : List (List Nat)) (digit : Nat)
    (digits : List Nat) :
    weightOf (column :: columns) (digit :: digits) =
      column.getD digit 0 + weightOf columns digits := by
  simp only [weightOf, List.length_cons, Finset.sum_range_succ', List.getD_cons_succ,
    List.getD_cons_zero, Nat.add_comm]

theorem weigh_eq (columns : List (List Nat)) (digits : List Nat)
    (within : Within (columns.map List.length) digits) :
    weigh columns digits within = weightOf columns digits := by
  induction columns generalizing digits with
  | nil =>
    cases digits with
    | nil => rfl
    | cons digit digits => cases within
  | cons column columns ih =>
    cases digits with
    | nil => cases within
    | cons digit digits =>
      obtain ⟨below, rest⟩ := within
      simp only [weigh, weightOf_cons, ih digits rest, List.get_eq_getElem]
      rw [List.getD_eq_getElem column 0 below]

/-- One tuple comes before another if its digit is the smaller one at the last position where they
differ. -/
def Precedes : List Nat → List Nat → Prop
  | digit :: digits, other :: others => Precedes digits others ∨ digits = others ∧ digit < other
  | _, _ => False

theorem pairwise_digitTuples (radices : List Nat) : (digitTuples radices).Pairwise Precedes := by
  induction radices with
  | nil => simp [digitTuples]
  | cons radix radices ih =>
    rw [digitTuples, List.pairwise_flatMap]
    constructor
    · intro rest _
      rw [List.pairwise_map]
      exact List.pairwise_lt_range.imp fun smaller => Or.inr ⟨rfl, smaller⟩
    · refine ih.imp fun earlier tuple first other second => ?_
      obtain ⟨digit, _, rfl⟩ := List.mem_map.mp first
      obtain ⟨_, _, rfl⟩ := List.mem_map.mp second
      exact Or.inl earlier

theorem precedes_irrefl (digits : List Nat) : ¬Precedes digits digits := by
  induction digits with
  | nil => exact id
  | cons digit digits ih =>
    rintro (earlier | ⟨_, smaller⟩)
    · exact ih earlier
    · exact Nat.lt_irrefl digit smaller

namespace Odometer

def upcoming (odometer : Odometer) : List (List Nat) :=
  match _ : odometer.current? with
  | none => []
  | some digits => digits :: odometer.increment.upcoming
termination_by odometer.remaining
decreasing_by exact odometer.remaining_increment_lt digits ‹_›

variable {odometer : Odometer}

theorem upcoming_of_none (shown : odometer.current? = none) : odometer.upcoming = [] := by
  rw [upcoming]
  split
  · rfl
  · rename_i found
    cases found.symm.trans shown

theorem upcoming_of_some {digits : List Nat} (shown : odometer.current? = some digits) :
    odometer.upcoming = digits :: odometer.increment.upcoming := by
  rw [upcoming]
  split
  · rename_i ended
    cases ended.symm.trans shown
  · rename_i found
    cases found.symm.trans shown
    rfl

theorem getElem?_upcoming (odometer : Odometer) (turns : Nat) :
    odometer.upcoming[turns]? = (increment^[turns] odometer).current? := by
  induction turns generalizing odometer with
  | zero =>
    cases shown : odometer.current? with
    | none => simp [upcoming_of_none shown, shown]
    | some digits => simp [upcoming_of_some shown, shown]
  | succ turns ih =>
    rw [Function.iterate_succ_apply, ← ih]
    cases shown : odometer.current? with
    | none =>
      have ended : odometer.increment.current? = none := by simp [shown]
      rw [upcoming_of_none shown, upcoming_of_none ended]
      rfl
    | some digits => rw [upcoming_of_some shown, List.getElem?_cons_succ]

theorem upcoming_start (radices : List Nat) : (start radices).upcoming = digitTuples radices := by
  apply List.ext_getElem?
  intro turns
  rw [getElem?_upcoming, current?_iterate]

end Odometer

namespace Sieve

/-- The tuples that the sieve has yet to give. -/
def pending (sieve : Sieve) : List (List Nat) :=
  sieve.odometer.upcoming.filter fun digits => weightOf sieve.columns digits = sieve.total

theorem pending_of_none {sieve : Sieve} (shown : sieve.odometer.current? = none) :
    sieve.pending = [] := by
  rw [pending, Odometer.upcoming_of_none shown, List.filter_nil]

theorem pending_of_some {sieve : Sieve} {digits : List Nat}
    (shown : sieve.odometer.current? = some digits) :
    sieve.pending =
      if weigh sieve.columns digits (sieve.within digits shown) = sieve.total then
        digits :: sieve.increment.pending
      else sieve.increment.pending := by
  rw [pending, Odometer.upcoming_of_some shown, List.filter_cons, weigh_eq]
  simp only [decide_eq_true_eq]
  rfl

def advance (sieve : Sieve) : Sieve :=
  sieve.next.2

theorem next_spec (sieve : Sieve) :
    sieve.next.1 = sieve.pending.head? ∧ sieve.advance.pending = sieve.pending.tail := by
  simp only [advance]
  induction sieve using next.induct with
  | case1 sieve shown =>
    have ended := pending_of_none shown
    rw [next_of_none shown]
    simp only [ended, List.head?_nil, List.tail_nil, and_self]
  | case2 sieve digits shown wanted =>
    rw [next_of_some shown, pending_of_some shown, if_pos wanted, if_pos wanted]
    exact ⟨rfl, rfl⟩
  | case3 sieve digits shown unwanted ih =>
    rwa [next_of_some shown, pending_of_some shown, if_neg unwanted, if_neg unwanted]

/-- A call turns the odometer on, once for each tuple that it passes over or gives. -/
theorem exists_turns (sieve : Sieve) :
    ∃ turns ≤ sieve.odometer.remaining, sieve.advance = increment^[turns] sieve := by
  induction sieve using next.induct with
  | case1 sieve shown =>
    rw [advance, next_of_none shown]
    exact ⟨0, Nat.zero_le _, rfl⟩
  | case2 sieve digits shown wanted =>
    have fewer := sieve.odometer.remaining_increment_lt digits shown
    rw [advance, next_of_some shown, if_pos wanted]
    exact ⟨1, Nat.one_le_of_lt fewer, rfl⟩
  | case3 sieve digits shown unwanted ih =>
    obtain ⟨turns, bounded, same⟩ := ih
    have fewer := sieve.odometer.remaining_increment_lt digits shown
    rw [advance, next_of_some shown, if_neg unwanted]
    exact ⟨turns + 1, Nat.lt_of_le_of_lt bounded fewer, same⟩

theorem next_iterate (sieve : Sieve) (calls : Nat) :
    (advance^[calls] sieve).next.1 = sieve.pending[calls]? := by
  induction calls generalizing sieve with
  | zero => rw [Function.iterate_zero_apply, (next_spec sieve).1, List.head?_eq_getElem?]
  | succ calls ih =>
    rw [Function.iterate_succ_apply, ih, (next_spec sieve).2, List.getElem?_tail]

end Sieve

theorem zipIdx_eq (column : List Nat) :
    column.zipIdx = (List.range column.length).map fun digit => (column.getD digit 0, digit) := by
  apply List.ext_getElem
  · simp
  · intro digit below _
    rw [List.length_zipIdx] at below
    simp [below]

theorem tuples_zipIdx (columns : List (List Nat)) :
    tuples (columns.map List.zipIdx) =
      (digitTuples (columns.map List.length)).map fun digits =>
        (weightOf columns digits, digits) := by
  induction columns with
  | nil => rfl
  | cons column columns ih =>
    rw [List.map_cons, tuples, ih, zipIdx_eq, List.map_cons, digitTuples]
    simp only [List.flatMap_map, List.map_flatMap, List.map_map, Function.comp_def, weightOf_cons]

/-- The digits number one size in each column, and these sizes have the sum `total`. -/
structure Selects (columns : List (List Nat)) (total : Nat) (digits : List Nat) : Prop where
  length_eq : digits.length = columns.length
  below : ∀ position < columns.length,
    digits.getD position 0 < (columns.getD position []).length
  sum_eq : weightOf columns digits = total

theorem within_lengths_iff (columns : List (List Nat)) (digits : List Nat) :
    Within (columns.map List.length) digits ↔ digits.length = columns.length ∧
      ∀ position < columns.length,
        digits.getD position 0 < (columns.getD position []).length := by
  induction columns generalizing digits with
  | nil => cases digits <;> simp [Within]
  | cons column columns ih =>
    cases digits with
    | nil => simp [Within]
    | cons digit digits =>
      simp only [List.map_cons, Within, ih, List.length_cons, Nat.forall_lt_succ_left,
        List.getD_cons_zero, List.getD_cons_succ, Nat.add_right_cancel_iff]
      exact and_left_comm

namespace Sieve

theorem pending_start (columns : List (List Nat)) (total : Nat) :
    (start columns total).pending =
      (digitTuples (columns.map List.length)).filter (weightOf columns · = total) := by
  rw [← Odometer.upcoming_start]
  rfl

theorem pending_start_eq_tuplesOfWeight (columns : List (List Nat)) (total : Nat) :
    (start columns total).pending = tuplesOfWeight (columns.map List.zipIdx) total := by
  rw [pending_start, tuplesOfWeight_eq, tuples_zipIdx, List.filterMap_map,
    ← List.filterMap_eq_filter]
  refine List.filterMap_congr fun digits _ => ?_
  by_cases wanted : weightOf columns digits = total <;> simp [wanted]

theorem mem_pending_start_iff (columns : List (List Nat)) (total : Nat) (digits : List Nat) :
    digits ∈ (start columns total).pending ↔ Selects columns total digits := by
  rw [pending_start, List.mem_filter, mem_digitTuples_iff, within_lengths_iff, decide_eq_true_eq]
  constructor
  · rintro ⟨⟨length, below⟩, sum⟩
    exact ⟨length, below, sum⟩
  · rintro ⟨length, below, sum⟩
    exact ⟨⟨length, below⟩, sum⟩

/-- The calls give, one after the other, the tuples of digits that number sizes of the wanted sum,
all of them and each of them once, the first digit running fastest, and nothing from then on. The
tuples are those that `tuplesOfWeight` lists. No call turns the odometer more often than there are
tuples left. -/
theorem lists_tuples_of_weight (columns : List (List Nat)) (total : Nat) :
    (∃ given : List (List Nat),
      (∀ calls, (advance^[calls] (start columns total)).next.1 = given[calls]?) ∧
      (∀ digits, digits ∈ given ↔ Selects columns total digits) ∧
      given.Nodup ∧ given.Pairwise Precedes ∧
      given = tuplesOfWeight (columns.map List.zipIdx) total) ∧
    ∀ sieve : Sieve,
      ∃ turns ≤ sieve.odometer.remaining, sieve.advance = increment^[turns] sieve := by
  have ordered : (start columns total).pending.Pairwise Precedes := by
    rw [pending_start]
    exact (pairwise_digitTuples _).filter _
  refine ⟨⟨(start columns total).pending, next_iterate _, mem_pending_start_iff columns total,
    ordered.imp ?_, ordered, pending_start_eq_tuplesOfWeight columns total⟩, exists_turns⟩
  rintro digits _ earlier rfl
  exact precedes_irrefl digits earlier

example : tuplesOfWeight ([[1, 1, 3], [1, 2]].map List.zipIdx) 3 = [[0, 1], [1, 1]] := by decide

end Sieve

end ByExample
