/-!
The inputs of arithmetic programs: finitely many names bound to 64-bit integers. An environment keeps
its names in ascending order, so that equal bindings are equal environments.
-/

namespace ByExample.Arithmetic

def setBinding (name : String) (value : Int64) : List (String × Int64) → List (String × Int64)
  | [] => [(name, value)]
  | (other, old) :: rest =>
    if name < other then (name, value) :: (other, old) :: rest
    else if other < name then (other, old) :: setBinding name value rest
    else (name, value) :: rest

theorem mem_setBinding (name : String) (value : Int64) (bindings : List (String × Int64))
    (binding : String × Int64) (member : binding ∈ setBinding name value bindings) :
    binding.1 = name ∨ binding ∈ bindings := by
  induction bindings with
  | nil => simp_all [setBinding]
  | cons first rest ih =>
    obtain ⟨other, old⟩ := first
    simp only [setBinding] at member
    split at member
    · rcases List.mem_cons.mp member with rfl | later
      · exact Or.inl rfl
      · exact Or.inr later
    · split at member
      · rcases List.mem_cons.mp member with rfl | later
        · exact Or.inr List.mem_cons_self
        · exact (ih later).imp_right (List.mem_cons_of_mem _)
      · rcases List.mem_cons.mp member with rfl | later
        · exact Or.inl rfl
        · exact Or.inr (List.mem_cons_of_mem _ later)

theorem setBinding_sorted (name : String) (value : Int64) (bindings : List (String × Int64))
    (sorted : bindings.Pairwise (·.1 < ·.1)) : (setBinding name value bindings).Pairwise (·.1 < ·.1) := by
  induction bindings with
  | nil => simp [setBinding]
  | cons first rest ih =>
    obtain ⟨other, old⟩ := first
    obtain ⟨least, later⟩ := List.pairwise_cons.mp sorted
    simp only [setBinding]
    split
    · rename_i before
      refine List.pairwise_cons.mpr ⟨fun binding member => ?_, sorted⟩
      rcases List.mem_cons.mp member with rfl | among
      · exact before
      · exact String.lt_trans before (least binding among)
    · split
      · rename_i after
        refine List.pairwise_cons.mpr ⟨fun binding member => ?_, ih later⟩
        rcases mem_setBinding name value rest binding member with same | among
        · exact same ▸ after
        · exact least binding among
      · rename_i notBefore notAfter
        have same : name = other :=
          String.le_antisymm (String.not_lt.mp notAfter) (String.not_lt.mp notBefore)
        exact List.pairwise_cons.mpr ⟨fun binding member => same ▸ least binding member, later⟩

theorem lookup_cons_eq_ite (name other : String) (value : Int64) (rest : List (String × Int64)) :
    List.lookup other ((name, value) :: rest) =
      if other = name then some value else rest.lookup other := by
  rw [List.lookup_cons]
  by_cases same : other = name
  · simp [same]
  · simp [same, beq_eq_false_iff_ne.mpr same]

theorem lookup_setBinding (name other : String) (value : Int64)
    (bindings : List (String × Int64)) :
    (setBinding name value bindings).lookup other =
      if other = name then some value else bindings.lookup other := by
  induction bindings with
  | nil => exact lookup_cons_eq_ite name other value []
  | cons first rest ih =>
    obtain ⟨head, old⟩ := first
    simp only [setBinding]
    split
    · exact lookup_cons_eq_ite name other value _
    · split
      · rename_i after
        have different : head ≠ name := String.ne_of_lt after
        rw [lookup_cons_eq_ite, lookup_cons_eq_ite, ih]
        by_cases here : other = head
        · simp [here, different]
        · simp [here]
      · rename_i notBefore notAfter
        have equal : head = name :=
          String.le_antisymm (String.not_lt.mp notBefore) (String.not_lt.mp notAfter)
        rw [lookup_cons_eq_ite, lookup_cons_eq_ite, equal]
        by_cases same : other = name <;> simp [same]

structure Environment where
  bindings : List (String × Int64)
  sorted : bindings.Pairwise (·.1 < ·.1)

namespace Environment

def empty : Environment where
  bindings := []
  sorted := List.Pairwise.nil

def insert (environment : Environment) (name : String) (value : Int64) : Environment where
  bindings := setBinding name value environment.bindings
  sorted := setBinding_sorted name value _ environment.sorted

/-- Binds in order, so that of several bindings of one name the last one stays. -/
def ofList (bindings : List (String × Int64)) : Environment :=
  bindings.foldl (fun environment binding => environment.insert binding.1 binding.2) empty

def get? (environment : Environment) (name : String) : Option Int64 :=
  environment.bindings.lookup name

@[simp] theorem get?_insert (environment : Environment) (name other : String) (value : Int64) :
    (environment.insert name value).get? other =
      if other = name then some value else environment.get? other :=
  lookup_setBinding name other value _

end Environment

end ByExample.Arithmetic
