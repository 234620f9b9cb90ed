/-!
Numbered names. A name is entered once and keeps the number it got then, so numbers and names
determine each other (`idxOf?_eq_some_iff`).
-/

namespace ByExample

/-- The names entered so far; the number of a name is its position. -/
structure NameTable where
  names : List String
  distinct : names.Nodup

namespace NameTable

def empty : NameTable where
  names := []
  distinct := List.nodup_nil

def size (table : NameTable) : Nat :=
  table.names.length

def name? (table : NameTable) (index : Nat) : Option String :=
  table.names[index]?

def idxOf? (table : NameTable) (name : String) : Option Nat :=
  if name ∈ table.names then some (table.names.idxOf name) else none

/-- The number of `name`, or the next free number if the name is not there. -/
def idxOf (table : NameTable) (name : String) : Nat :=
  table.names.idxOf name

def insert (table : NameTable) (name : String) : NameTable :=
  if present : name ∈ table.names then table
  else
    { names := table.names ++ [name]
      distinct := by
        rw [List.nodup_append]
        refine ⟨table.distinct, by simp, ?_⟩
        intro earlier member last single same
        have entered : last = name := List.mem_singleton.mp single
        exact present (entered ▸ same ▸ member) }

def ofList (names : List String) : NameTable :=
  names.foldl insert empty

theorem mem_insert (table : NameTable) (name other : String) :
    other ∈ (table.insert name).names ↔ other ∈ table.names ∨ other = name := by
  unfold insert
  split
  · rename_i present
    constructor
    · exact Or.inl
    · rintro (member | rfl)
      · exact member
      · exact present
  · simp

theorem mem_foldl_insert (names : List String) (table : NameTable) (other : String) :
    other ∈ (names.foldl insert table).names ↔ other ∈ table.names ∨ other ∈ names := by
  induction names generalizing table with
  | nil => simp
  | cons name names ih => simp [ih, mem_insert, or_assoc]

@[simp] theorem mem_ofList (names : List String) (other : String) :
    other ∈ (ofList names).names ↔ other ∈ names := by
  simp [ofList, mem_foldl_insert, empty]

theorem idxOf_lt_size (table : NameTable) (name : String) (member : name ∈ table.names) :
    table.idxOf name < table.size :=
  List.idxOf_lt_length_of_mem member

theorem name?_idxOf (table : NameTable) (name : String) (member : name ∈ table.names) :
    table.name? (table.idxOf name) = some name := by
  have below := table.idxOf_lt_size name member
  rw [name?, List.getElem?_eq_getElem below]
  exact congrArg some (List.getElem_idxOf below)

theorem idxOf_of_name? (table : NameTable) (name : String) (index : Nat)
    (found : table.name? index = some name) : table.idxOf name = index := by
  obtain ⟨below, same⟩ := List.getElem?_eq_some_iff.mp found
  subst same
  exact table.distinct.idxOf_getElem index below

theorem idxOf?_eq_some_iff (table : NameTable) (name : String) (index : Nat) :
    table.idxOf? name = some index ↔ table.name? index = some name := by
  constructor
  · intro found
    simp only [idxOf?, Option.ite_none_right_eq_some, Option.some.injEq] at found
    obtain ⟨member, same⟩ := found
    subst same
    exact table.name?_idxOf name member
  · intro found
    have member : name ∈ table.names := List.mem_of_getElem? found
    have same : table.names.idxOf name = index := table.idxOf_of_name? name index found
    simp [idxOf?, member, same]

end NameTable

end ByExample
