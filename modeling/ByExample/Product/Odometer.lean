/-!
Counting in mixed radix. An odometer shows one tuple of digits at a time, one digit per position and
each below the radix of its position. The first digit runs fastest. After the last tuple there is
nothing left to show, and there never will be.
-/

namespace ByExample

def Within : List Nat → List Nat → Prop
  | [], [] => True
  | radix :: radices, digit :: digits => digit < radix ∧ Within radices digits
  | _, _ => False

/-- The tuple after `digits`: the first digit that is not at its maximum grows by one and those
before it return to zero. The tuple with every digit at its maximum has no successor. -/
def successor? : List Nat → List Nat → Option (List Nat)
  | radix :: radices, digit :: digits =>
    if digit + 1 < radix then some ((digit + 1) :: digits)
    else (successor? radices digits).map (0 :: ·)
  | _, _ => none

theorem within_zeros (radices : List Nat) (positive : ∀ radix ∈ radices, 0 < radix) :
    Within radices (radices.map fun _ => 0) := by
  induction radices with
  | nil => trivial
  | cons radix radices ih =>
    exact ⟨positive radix List.mem_cons_self,
      ih fun other member => positive other (List.mem_cons_of_mem _ member)⟩

theorem within_successor (radices digits next : List Nat) (valid : Within radices digits)
    (step : successor? radices digits = some next) : Within radices next := by
  induction radices generalizing digits next with
  | nil => cases digits <;> simp [successor?] at step
  | cons radix radices ih =>
    cases digits with
    | nil => simp [successor?] at step
    | cons digit digits =>
      obtain ⟨below, rest⟩ := valid
      simp only [successor?] at step
      split at step
      · rename_i room
        cases step
        exact ⟨room, rest⟩
      · obtain ⟨tail, found, rfl⟩ := Option.map_eq_some_iff.mp step
        exact ⟨by omega, ih digits tail rest found⟩

def followers : List Nat → List Nat → Nat
  | radix :: radices, digit :: digits => radix - 1 - digit + radix * followers radices digits
  | _, _ => 0

theorem followers_successor (radices digits next : List Nat) (valid : Within radices digits)
    (step : successor? radices digits = some next) :
    followers radices next + 1 = followers radices digits := by
  induction radices generalizing digits next with
  | nil => cases digits <;> simp [successor?] at step
  | cons radix radices ih =>
    cases digits with
    | nil => simp [successor?] at step
    | cons digit digits =>
      obtain ⟨below, rest⟩ := valid
      simp only [successor?] at step
      split at step
      · cases step
        simp only [followers]
        omega
      -- A digit at its maximum has no followers of its own; at zero it has one less than its radix.
      · obtain ⟨tail, found, rfl⟩ := Option.map_eq_some_iff.mp step
        have fewer := ih digits tail rest found
        simp only [followers, ← fewer, Nat.mul_succ]
        omega

/-- A counter over the tuples within `radices`. `current?` is the tuple on show, absent once all
have been shown. -/
structure Odometer where
  radices : List Nat
  current? : Option (List Nat)
  within : ∀ digits ∈ current?, Within radices digits

namespace Odometer

def start (radices : List Nat) : Odometer :=
  if positive : ∀ radix ∈ radices, 0 < radix then
    { radices
      current? := some (radices.map fun _ => 0)
      within := by
        rintro digits ⟨⟩
        exact within_zeros radices positive }
  else
    { radices, current? := none, within := by simp }

def increment (odometer : Odometer) : Odometer where
  radices := odometer.radices
  current? := odometer.current?.bind (successor? odometer.radices)
  within := by
    intro next found
    obtain ⟨digits, shown, step⟩ := Option.bind_eq_some_iff.mp found
    exact within_successor _ digits next (odometer.within digits shown) step

theorem radices_start (radices : List Nat) : (start radices).radices = radices := by
  rw [start]
  split <;> rfl

@[simp] theorem radices_increment (odometer : Odometer) :
    odometer.increment.radices = odometer.radices := rfl

@[simp] theorem current?_increment (odometer : Odometer) :
    odometer.increment.current? = odometer.current?.bind (successor? odometer.radices) := rfl

def remaining (odometer : Odometer) : Nat :=
  match odometer.current? with
  | some digits => followers odometer.radices digits + 1
  | none => 0

theorem remaining_increment_lt (odometer : Odometer) (digits : List Nat)
    (shown : odometer.current? = some digits) :
    odometer.increment.remaining < odometer.remaining := by
  simp only [remaining, radices_increment, current?_increment, shown, Option.bind_some]
  cases step : successor? odometer.radices digits with
  | none => simp
  | some next =>
    have fewer := followers_successor _ digits next (odometer.within digits shown) step
    simp only
    omega

end Odometer

end ByExample
