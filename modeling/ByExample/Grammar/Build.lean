import ByExample.Grammar.Basic

/-!
Making a grammar of a draft. `Draft.fault?` looks for the first thing that keeps a draft from being
well formed, in a fixed order of inspection; a draft without a fault is a grammar (`wellFormed`).
-/

namespace ByExample

def firstRepeat {α : Type} [DecidableEq α] (seen : List α) : List α → Option α
  | [] => none
  | x :: xs => if x ∈ seen then some x else firstRepeat (x :: seen) xs

theorem firstRepeat_eq_none {α : Type} [DecidableEq α] (seen xs : List α) :
    firstRepeat seen xs = none ↔ xs.Nodup ∧ ∀ x ∈ xs, x ∉ seen := by
  induction xs generalizing seen with
  | nil => simp [firstRepeat]
  | cons x xs ih =>
    by_cases old : x ∈ seen
    · simp [firstRepeat, old]
    · simp only [firstRepeat, old, ↓reduceIte, ih, List.nodup_cons, List.mem_cons, not_or]
      constructor
      · rintro ⟨distinct, fresh⟩
        refine ⟨⟨fun member => (fresh x member).1 rfl, distinct⟩, ?_⟩
        rintro y (rfl | member)
        · exact old
        · exact (fresh y member).2
      · rintro ⟨⟨absent, distinct⟩, fresh⟩
        refine ⟨distinct, fun y member => ⟨?_, fresh y (Or.inr member)⟩⟩
        rintro rfl
        exact absent member

namespace Draft

def errorAbout (draft : Draft) (symbol : Symbol) (cause : String → GrammarError) : GrammarError :=
  match draft.nameOf symbol with
  | .ok name => cause name
  | .error error => error

def foreign? (draft : Draft) (symbol : Symbol) : Option GrammarError :=
  if draft.Issued symbol then none
  else match symbol with
    | .terminal operator => some (.unknownOperator operator)
    | .category category => some (.unknownCategory category)

def uninhabited? (draft : Draft) (category : Category) : Option GrammarError :=
  if draft.ofCategory category = [] then
    some (draft.errorAbout (.category category) .missingProductions)
  else none

/-- A category argument needs a production, a literal argument must not take arguments itself. -/
def argumentFault? (draft : Draft) : Symbol → Option GrammarError
  | .category category => draft.uninhabited? category
  | .terminal operator =>
    if draft.productions.all fun owner => owner.operator ≠ operator ∨ owner.arguments = [] then none
    else some (draft.errorAbout (.terminal operator) .literalOperator)

def duplicate? (draft : Draft) : Option GrammarError :=
  (firstRepeat [] (draft.productions.map Production.operator)).map fun operator =>
    draft.errorAbout (.terminal operator) .duplicateOperator

/-- The first fault. Handles are looked at before anything they stand for: the start category, then
the productions in the order of addition; then repeated operators, the productions of the start
category, and the arguments category by category. -/
def fault? (draft : Draft) (start : Category) : Option GrammarError :=
  ((Symbol.category start :: draft.productions.flatMap Production.symbols).findSome? draft.foreign?)
    |>.or draft.duplicate?
    |>.or (draft.uninhabited? start)
    |>.or ((draft.allProductions.flatMap Production.arguments).findSome? draft.argumentFault?)

theorem foreign?_eq_none (draft : Draft) (symbol : Symbol) :
    draft.foreign? symbol = none ↔ draft.Issued symbol := by
  cases symbol <;> simp [foreign?]

theorem uninhabited?_eq_none (draft : Draft) (category : Category) :
    draft.uninhabited? category = none ↔ draft.ofCategory category ≠ [] := by
  simp [uninhabited?]

theorem mem_allCategories (draft : Draft) (category : Category) :
    category ∈ draft.allCategories ↔ draft.Issued (.category category) := by
  simp only [allCategories, List.mem_map, List.mem_range, Issued]
  exact ⟨fun ⟨_, below, same⟩ => same ▸ below, fun below => ⟨category.index, below, rfl⟩⟩

theorem mem_allProductions (draft : Draft) (production : Production) :
    production ∈ draft.allProductions ↔
      production ∈ draft.productions ∧ draft.Issued (.category production.category) := by
  simp only [allProductions, List.mem_flatMap, mem_allCategories, ofCategory, List.mem_filter,
    decide_eq_true_eq]
  constructor
  · rintro ⟨category, issued, member, rfl⟩
    exact ⟨member, issued⟩
  · rintro ⟨member, issued⟩
    exact ⟨_, issued, member, rfl⟩

/-- The inspection overlooks nothing, and it reports faults only. -/
theorem fault?_eq_none (draft : Draft) (start : Category) :
    draft.fault? start = none ↔ draft.WellFormed start := by
  simp only [fault?, Option.or_eq_none_iff, List.findSome?_eq_none_iff, List.mem_cons,
    List.mem_flatMap, foreign?_eq_none, uninhabited?_eq_none, duplicate?, Option.map_eq_none_iff,
    firstRepeat_eq_none]
  constructor
  · rintro ⟨⟨⟨issued, distinct, _⟩, inhabited⟩, sound⟩
    have known : ∀ production ∈ draft.productions, ∀ symbol ∈ production.symbols,
        draft.Issued symbol := fun production member symbol among =>
      issued symbol (Or.inr ⟨production, member, among⟩)
    have listed : ∀ production ∈ draft.productions, production ∈ draft.allProductions :=
      fun production member => (mem_allProductions draft production).mpr
        ⟨member, known production member _ List.mem_cons_self⟩
    refine ⟨issued _ (Or.inl rfl), known, distinct, inhabited, ?_, ?_⟩
    · intro production member category among
      exact (uninhabited?_eq_none draft category).mp
        (sound (.category category) ⟨production, listed production member, among⟩)
    · intro production member operator among owner owned same
      have bare := sound (.terminal operator) ⟨production, listed production member, among⟩
      simp only [argumentFault?, ite_eq_left_iff, reduceCtorEq, imp_false, Decidable.not_not,
        List.all_eq_true, decide_eq_true_eq] at bare
      exact (bare owner owned).resolve_left fun different => different same
  · intro valid
    refine ⟨⟨⟨?_, valid.operators_distinct, by simp⟩, valid.start_inhabited⟩, ?_⟩
    · rintro symbol (rfl | ⟨production, member, among⟩)
      · exact valid.start_issued
      · exact valid.symbols_issued production member symbol among
    · rintro symbol ⟨production, listed, among⟩
      have member := ((mem_allProductions draft production).mp listed).1
      cases symbol with
      | category category =>
        exact (uninhabited?_eq_none draft category).mpr
          (valid.arguments_inhabited production member category among)
      | terminal operator =>
        have bare := valid.literals_bare production member operator among
        simp only [argumentFault?, ite_eq_left_iff, reduceCtorEq, imp_false, Decidable.not_not,
          List.all_eq_true, decide_eq_true_eq]
        intro owner owned
        by_cases same : owner.operator = operator
        · exact Or.inr (bare owner owned same)
        · exact Or.inl same

def build (draft : Draft) (start : Category) : Except GrammarError Grammar :=
  match found : draft.fault? start with
  | some error => .error error
  | none => .ok ⟨draft, start, (fault?_eq_none draft start).mp found⟩

end Draft

end ByExample
