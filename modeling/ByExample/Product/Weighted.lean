/-!
Tuples that take one item from each of several columns of weighted items. `tuples` lists all of them,
first column fastest; `tuplesOfWeight` lists those of a given total weight in the same order, without
forming a tuple whose later items already weigh too much (`tuplesOfWeight_eq`).
-/

namespace ByExample

variable {α : Type}

/-- Every tuple over the columns together with its weight, first column fastest. -/
def tuples : List (List (Nat × α)) → List (Nat × List α)
  | [] => [(0, [])]
  | column :: columns =>
    (tuples columns).flatMap fun rest =>
      column.map fun item => (item.1 + rest.1, item.2 :: rest.2)

def tuplesWithin (limit : Nat) : List (List (Nat × α)) → List (Nat × List α)
  | [] => [(0, [])]
  | column :: columns =>
    (tuplesWithin limit columns).flatMap fun rest =>
      column.filterMap fun item =>
        if item.1 + rest.1 ≤ limit then some (item.1 + rest.1, item.2 :: rest.2) else none

def tuplesOfWeight (columns : List (List (Nat × α))) (total : Nat) : List (List α) :=
  match columns with
  | [] => if total = 0 then [[]] else []
  | column :: columns =>
    (tuplesWithin total columns).flatMap fun rest =>
      column.filterMap fun item =>
        if item.1 + rest.1 = total then some (item.2 :: rest.2) else none

theorem flatMap_filter_of_nil {β γ : Type} (keep : β → Bool) (f : β → List γ)
    (dropped : ∀ x, keep x = false → f x = []) (xs : List β) :
    (xs.filter keep).flatMap f = xs.flatMap f := by
  induction xs with
  | nil => rfl
  | cons x xs ih =>
    cases kept : keep x with
    | true => simp [kept, ih]
    | false => simp [kept, ih, dropped x kept]

theorem filter_map_eq_filterMap {β γ : Type} (f : β → γ) (keep : γ → Prop) [DecidablePred keep]
    (xs : List β) :
    (xs.map f).filter (keep ·) = xs.filterMap fun x => if keep (f x) then some (f x) else none := by
  induction xs with
  | nil => rfl
  | cons x xs ih => by_cases kept : keep (f x) <;> simp [kept, ih]

theorem tuplesWithin_eq (limit : Nat) (columns : List (List (Nat × α))) :
    tuplesWithin limit columns = (tuples columns).filter (·.1 ≤ limit) := by
  induction columns with
  | nil => simp [tuplesWithin, tuples]
  | cons column columns ih =>
    rw [tuplesWithin, ih, flatMap_filter_of_nil, tuples, List.filter_flatMap]
    · congr 1
      funext rest
      exact (filter_map_eq_filterMap (fun item => (item.1 + rest.1, item.2 :: rest.2))
        (fun tuple => tuple.1 ≤ limit) column).symm
    · intro rest heavy
      rw [List.filterMap_eq_nil_iff]
      intro item _
      have heavy : ¬rest.1 ≤ limit := of_decide_eq_false heavy
      rw [if_neg (by omega)]

theorem tuplesOfWeight_eq (columns : List (List (Nat × α))) (total : Nat) :
    tuplesOfWeight columns total =
      (tuples columns).filterMap fun tuple => if tuple.1 = total then some tuple.2 else none := by
  cases columns with
  | nil => cases total <;> simp [tuplesOfWeight, tuples]
  | cons column columns =>
    rw [tuplesOfWeight, tuplesWithin_eq, flatMap_filter_of_nil, tuples, List.filterMap_flatMap]
    · congr 1
      funext rest
      rw [List.filterMap_map]
      rfl
    · intro rest heavy
      rw [List.filterMap_eq_nil_iff]
      intro item _
      have heavy : ¬rest.1 ≤ total := of_decide_eq_false heavy
      rw [if_neg (by omega)]

end ByExample
