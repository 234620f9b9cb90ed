import ByExample.Proofs.Filing
import Mathlib.Data.List.Induction

/-!
Drafts by their calls. What a draft has in it is what has been said to it: the handles that it
issued are those that the calls gave, a name is looked up as the handle that entering it gave
(`look_eq_some_iff`), and the productions are those added, in order. So what makes a grammar of a
draft can be said of the calls alone (`builds_from_calls`).
-/

namespace ByExample

namespace NameTable

theorem lt_size_iff (table : NameTable) (index : Nat) :
    index < table.size ↔ ∃ name, table.idxOf? name = some index := by
  simp only [idxOf?_eq_some_iff, name?, List.getElem?_eq_some_iff, size]
  constructor
  · intro below
    exact ⟨_, below, rfl⟩
  · rintro ⟨name, below, _⟩
    exact below

theorem idxOf?_insert (table : NameTable) (entered name : String) (index : Nat) :
    (table.insert entered).idxOf? name = some index ↔
      table.idxOf? name = some index ∨ name = entered ∧ table.idxOf entered = index := by
  simp only [idxOf?_eq_some_iff]
  by_cases present : entered ∈ table.names
  · rw [insert, dif_pos present, or_iff_left_of_imp]
    rintro ⟨rfl, rfl⟩
    exact table.name?_idxOf name present
  · have next : table.idxOf entered = table.names.length := List.idxOf_eq_length present
    rw [insert, dif_neg present, next, name?, name?]
    rcases Nat.lt_trichotomy index table.names.length with below | rfl | past
    · simp only [List.getElem?_append_left below, Nat.ne_of_gt below, and_false, or_false]
    · simp [eq_comm]
    · have outside : ¬index - table.names.length < 1 := by omega
      simp [List.getElem?_append_right (Nat.le_of_lt past), Nat.ne_of_lt past,
        Nat.le_of_lt past, outside]

theorem map_idxOf?_insert {α : Type} (handle : Nat → α) (table : NameTable)
    (entered name : String) (symbol : α) :
    ((table.insert entered).idxOf? name).map handle = some symbol ↔
      (table.idxOf? name).map handle = some symbol ∨
        name = entered ∧ handle (table.idxOf entered) = symbol := by
  simp only [Option.map_eq_some_iff, idxOf?_insert]
  constructor
  · rintro ⟨index, found | ⟨rfl, rfl⟩, rfl⟩
    · exact Or.inl ⟨index, found, rfl⟩
    · exact Or.inr ⟨rfl, rfl⟩
  · rintro (⟨index, found, rfl⟩ | ⟨rfl, rfl⟩)
    · exact ⟨index, Or.inl found, rfl⟩
    · exact ⟨_, Or.inr ⟨rfl, rfl⟩, rfl⟩

end NameTable

namespace Draft

theorem nameOf_terminal_eq_ok_iff (draft : Draft) (operator : Terminal) (name : String) :
    draft.nameOf (.terminal operator) = .ok name ↔
      draft.terminals.name? operator.index = some name := by
  cases named : draft.terminals.name? operator.index <;> simp [nameOf, named]

theorem nameOf_category_eq_ok_iff (draft : Draft) (category : Category) (name : String) :
    draft.nameOf (.category category) = .ok name ↔
      draft.categories.name? category.index = some name := by
  cases named : draft.categories.name? category.index <;> simp [nameOf, named]

inductive Call where
  | terminal (name : String)
  | category (name : String)
  | add (production : Production)

def perform (draft : Draft) : Call → Draft
  | .terminal name => (draft.terminal name).2
  | .category name => (draft.category name).2
  | .add production => draft.add production

/-- The handle that a call gives back. -/
def answer (draft : Draft) : Call → Option Symbol
  | .terminal name => some (.terminal (draft.terminal name).1)
  | .category name => some (.category (draft.category name).1)
  | .add _ => none

/-- The handle of the name that a call enters, if the name is there. -/
def look (draft : Draft) : Call → Option Symbol
  | .terminal name => (draft.terminals.idxOf? name).map fun index => .terminal ⟨index⟩
  | .category name => (draft.categories.idxOf? name).map fun index => .category ⟨index⟩
  | .add _ => none

def ofCalls (calls : List Call) : Draft :=
  calls.foldl perform empty

def Call.production? : Call → Option Production
  | .add production => some production
  | _ => none

def added (calls : List Call) : List Production :=
  calls.filterMap Call.production?

/-- The call is among these, and gave back the handle when its turn came. -/
def Gives (calls : List Call) (call : Call) (symbol : Symbol) : Prop :=
  ∃ before after, calls = before ++ call :: after ∧ (ofCalls before).answer call = some symbol

def Given (calls : List Call) (symbol : Symbol) : Prop :=
  ∃ call, Gives calls call symbol

theorem ofCalls_concat (calls : List Call) (last : Call) :
    ofCalls (calls ++ [last]) = (ofCalls calls).perform last := by
  simp [ofCalls]

theorem gives_concat (calls : List Call) (last call : Call) (symbol : Symbol) :
    Gives (calls ++ [last]) call symbol ↔
      Gives calls call symbol ∨ call = last ∧ (ofCalls calls).answer last = some symbol := by
  constructor
  · rintro ⟨before, after, split, answered⟩
    rcases List.eq_nil_or_concat after with rfl | ⟨init, final, rfl⟩
    · obtain ⟨rfl, same⟩ := List.append_inj' split rfl
      cases same
      exact Or.inr ⟨rfl, answered⟩
    · rw [List.concat_eq_append, ← List.cons_append, ← List.append_assoc] at split
      obtain ⟨rfl, _⟩ := List.append_inj' split rfl
      exact Or.inl ⟨before, init, rfl, answered⟩
  · rintro (⟨before, after, rfl, answered⟩ | ⟨rfl, answered⟩)
    · exact ⟨before, after ++ [last], by simp, answered⟩
    · exact ⟨calls, [], rfl, answered⟩

theorem look_perform (draft : Draft) (last call : Call) (symbol : Symbol) :
    (draft.perform last).look call = some symbol ↔
      draft.look call = some symbol ∨ call = last ∧ draft.answer last = some symbol := by
  cases last with
  | terminal entered =>
    cases call with
    | terminal name =>
      simp only [look, perform, Draft.terminal, answer, NameTable.map_idxOf?_insert,
        Call.terminal.injEq, Option.some.injEq]
    | category name => simp [look, perform, Draft.terminal]
    | add production => simp [look]
  | category entered =>
    cases call with
    | terminal name => simp [look, perform, Draft.category]
    | category name =>
      simp only [look, perform, Draft.category, answer, NameTable.map_idxOf?_insert,
        Call.category.injEq, Option.some.injEq]
    | add production => simp [look]
  | add production => cases call <;> simp [look, perform, add, answer]

theorem look_eq_some_iff (calls : List Call) (call : Call) (symbol : Symbol) :
    (ofCalls calls).look call = some symbol ↔ Gives calls call symbol := by
  induction calls using List.reverseRecOn with
  | nil =>
    constructor
    · cases call <;> simp [ofCalls, empty, look, NameTable.empty, NameTable.idxOf?]
    · rintro ⟨before, after, split, _⟩
      simp at split
  | append_singleton calls last ih => rw [ofCalls_concat, look_perform, ih, gives_concat]

def Call.entering : Symbol → String → Call
  | .terminal _, name => .terminal name
  | .category _, name => .category name

theorem nameOf_of_look (draft : Draft) (call : Call) (symbol : Symbol)
    (looked : draft.look call = some symbol) :
    ∃ name, draft.nameOf symbol = .ok name ∧ call = Call.entering symbol name := by
  cases call with
  | terminal name =>
    obtain ⟨index, found, rfl⟩ := Option.map_eq_some_iff.mp looked
    rw [NameTable.idxOf?_eq_some_iff] at found
    exact ⟨name, (draft.nameOf_terminal_eq_ok_iff _ name).mpr found, rfl⟩
  | category name =>
    obtain ⟨index, found, rfl⟩ := Option.map_eq_some_iff.mp looked
    rw [NameTable.idxOf?_eq_some_iff] at found
    exact ⟨name, (draft.nameOf_category_eq_ok_iff _ name).mpr found, rfl⟩
  | add production => simp [look] at looked

theorem gives_inj {calls : List Call} {left right : Call} {symbol : Symbol}
    (first : Gives calls left symbol) (second : Gives calls right symbol) : left = right := by
  rw [← look_eq_some_iff] at first second
  obtain ⟨name, named, rfl⟩ := nameOf_of_look _ _ _ first
  obtain ⟨other, also, rfl⟩ := nameOf_of_look _ _ _ second
  cases named.symm.trans also
  rfl

theorem productions_ofCalls (calls : List Call) : (ofCalls calls).productions = added calls := by
  induction calls using List.reverseRecOn with
  | nil => rfl
  | append_singleton calls last ih =>
    rw [ofCalls_concat, added, List.filterMap_append, ← added, ← ih]
    cases last <;> simp [perform, Draft.terminal, Draft.category, add, Call.production?]

theorem issued_iff_look (draft : Draft) (symbol : Symbol) :
    draft.Issued symbol ↔ ∃ call, draft.look call = some symbol := by
  cases symbol with
  | terminal operator =>
    rw [Issued, NameTable.lt_size_iff]
    constructor
    · rintro ⟨name, found⟩
      exact ⟨.terminal name, by rw [look, found]; rfl⟩
    · rintro ⟨_ | _ | _, looked⟩
      · obtain ⟨index, found, ⟨⟩⟩ := Option.map_eq_some_iff.mp looked
        exact ⟨_, found⟩
      · simp [look] at looked
      · simp [look] at looked
  | category category =>
    rw [Issued, NameTable.lt_size_iff]
    constructor
    · rintro ⟨name, found⟩
      exact ⟨.category name, by rw [look, found]; rfl⟩
    · rintro ⟨_ | _ | _, looked⟩
      · simp [look] at looked
      · obtain ⟨index, found, ⟨⟩⟩ := Option.map_eq_some_iff.mp looked
        exact ⟨_, found⟩
      · simp [look] at looked

theorem issued_iff_given (calls : List Call) (symbol : Symbol) :
    (ofCalls calls).Issued symbol ↔ Given calls symbol := by
  simp only [issued_iff_look, look_eq_some_iff, Given]

/-- Calls that make a grammar with this start category: whatever they speak of they have entered, no
operator heads two productions, the start category and those in argument places have productions,
and a terminal in an argument place takes no arguments itself. -/
structure Coherent (calls : List Call) (start : Category) : Prop where
  start_given : Given calls (.category start)
  symbols_given : ∀ production ∈ added calls, ∀ symbol ∈ production.symbols, Given calls symbol
  operators_distinct : (added calls).Pairwise fun earlier later =>
    earlier.operator ≠ later.operator
  start_inhabited : ∃ production ∈ added calls, production.category = start
  arguments_inhabited : ∀ production ∈ added calls, ∀ category,
    .category category ∈ production.arguments → ∃ other ∈ added calls, other.category = category
  literals_bare : ∀ production ∈ added calls, ∀ operator,
    .terminal operator ∈ production.arguments →
    ∀ owner ∈ added calls, owner.operator = operator → owner.arguments = []

theorem ofCategory_ne_nil_iff (draft : Draft) (category : Category) :
    draft.ofCategory category ≠ [] ↔
      ∃ production ∈ draft.productions, production.category = category := by
  simp [ofCategory]

theorem coherent_iff_wellFormed (calls : List Call) (start : Category) :
    Coherent calls start ↔ (ofCalls calls).WellFormed start := by
  have productions := productions_ofCalls calls
  constructor
  · intro coherent
    refine ⟨?_, ?_, ?_, ?_, ?_, ?_⟩
    · exact (issued_iff_given calls _).mpr coherent.start_given
    · intro production member symbol among
      exact (issued_iff_given calls symbol).mpr
        (coherent.symbols_given production (productions ▸ member) symbol among)
    · rw [productions]
      exact List.pairwise_map.mpr coherent.operators_distinct
    · rw [ofCategory_ne_nil_iff, productions]
      exact coherent.start_inhabited
    · simp only [ofCategory_ne_nil_iff, productions]
      exact coherent.arguments_inhabited
    · rw [productions]
      exact coherent.literals_bare
  · intro valid
    refine ⟨?_, ?_, ?_, ?_, ?_, ?_⟩
    · exact (issued_iff_given calls _).mp valid.start_issued
    · intro production member symbol among
      exact (issued_iff_given calls symbol).mp
        (valid.symbols_issued production (productions ▸ member) symbol among)
    · rw [← productions]
      exact List.pairwise_map.mp valid.operators_distinct
    · rw [← productions, ← ofCategory_ne_nil_iff]
      exact valid.start_inhabited
    · simpa only [ofCategory_ne_nil_iff, productions] using valid.arguments_inhabited
    · rw [← productions]
      exact valid.literals_bare

theorem build_eq_error_iff (draft : Draft) (start : Category) (error : GrammarError) :
    draft.build start = .error error ↔ draft.fault? start = some error := by
  unfold build
  split
  · rename_i other found
    rw [found, Except.error.injEq, Option.some.injEq]
  · rename_i sound
    simp [sound]

theorem build_eq_ok_iff (draft : Draft) (start : Category) (grammar : Grammar) :
    draft.build start = .ok grammar ↔ grammar.toDraft = draft ∧ grammar.start = start := by
  unfold build
  split
  · rename_i error found
    simp only [reduceCtorEq, false_iff]
    rintro ⟨rfl, rfl⟩
    cases found.symm.trans ((fault?_eq_none _ _).mpr grammar.wellFormed)
  · rw [Except.ok.injEq]
    constructor
    · rintro rfl
      exact ⟨rfl, rfl⟩
    · rintro ⟨rfl, rfl⟩
      rfl

theorem exists_build_iff (draft : Draft) (start : Category) :
    (∃ grammar, draft.build start = .ok grammar) ↔ draft.WellFormed start := by
  simp only [build_eq_ok_iff]
  constructor
  · rintro ⟨grammar, rfl, rfl⟩
    exact grammar.wellFormed
  · intro valid
    exact ⟨⟨draft, start, valid⟩, rfl, rfl⟩

end Draft

namespace Grammar

open Draft

theorem nameOf_terminal_iff (grammar : Grammar) (operator : Terminal) (name : String) :
    grammar.nameOf (.terminal operator) = .ok name ↔ grammar.terminal? name = some operator := by
  rw [nameOf_terminal_eq_ok_iff, terminal?, Option.map_eq_some_iff,
    ← NameTable.idxOf?_eq_some_iff]
  exact ⟨fun found => ⟨_, found, rfl⟩, fun ⟨_, found, same⟩ => same ▸ found⟩

theorem nameOf_category_iff (grammar : Grammar) (category : Category) (name : String) :
    grammar.nameOf (.category category) = .ok name ↔ grammar.category? name = some category := by
  rw [nameOf_category_eq_ok_iff, category?, Option.map_eq_some_iff,
    ← NameTable.idxOf?_eq_some_iff]
  exact ⟨fun found => ⟨_, found, rfl⟩, fun ⟨_, found, same⟩ => same ▸ found⟩

/-- The grammar says what the calls have said, and the index of its productions says no different.
-/
structure Reflects (grammar : Grammar) (calls : List Call) (start : Category) : Prop where
  start_eq : grammar.start = start
  terminal?_iff : ∀ name operator,
    grammar.terminal? name = some operator ↔ Gives calls (.terminal name) (.terminal operator)
  category?_iff : ∀ name category,
    grammar.category? name = some category ↔ Gives calls (.category name) (.category category)
  terminal_named : ∀ operator name,
    grammar.nameOf (.terminal operator) = .ok name ↔ grammar.terminal? name = some operator
  category_named : ∀ category name,
    grammar.nameOf (.category category) = .ok name ↔ grammar.category? name = some category
  names_apart : ∀ left right symbol, Gives calls left symbol → Gives calls right symbol →
    left = right
  listed : ∀ category, Given calls (.category category) →
    grammar.productionsFor category = .ok ((added calls).filter (·.category = category))
  unlisted : ∀ category, ¬Given calls (.category category) →
    grammar.productionsFor category = .error (.unknownCategory category)
  owned : ∀ operator production, grammar.productionOf operator = .ok production ↔
    production ∈ added calls ∧ production.operator = operator
  bare : ∀ operator name, grammar.terminal? name = some operator →
    (∀ production ∈ added calls, production.operator ≠ operator) →
    grammar.productionOf operator = .error (.noProduction name)
  foreign : ∀ operator, ¬Given calls (.terminal operator) →
    grammar.productionOf operator = .error (.unknownOperator operator)
  indexed : ∃ index, Index.ofDraft? grammar.toDraft = some index ∧
    (∀ category, Given calls (.category category) →
      index.shelf? category = some ((added calls).filter (·.category = category))) ∧
    ∀ operator, Given calls (.terminal operator) → ∀ production,
      index.production? operator = some production ↔
        grammar.productionOf operator = .ok production

variable {grammar : Grammar} {calls : List Call} {start : Category}

theorem productionOf_of_bare (operator : Terminal)
    (bare : ∀ production ∈ grammar.productions, production.operator ≠ operator) :
    grammar.productionOf operator =
      (grammar.nameOf (.terminal operator)).bind fun name => .error (.noProduction name) := by
  have absent : grammar.productions.find? (·.operator = operator) = none :=
    List.find?_eq_none.mpr fun production member => by simpa using bare production member
  rw [productionOf, absent]
  cases grammar.nameOf (.terminal operator) <;> rfl

theorem reflects_of_build (built : (ofCalls calls).build start = .ok grammar) :
    grammar.Reflects calls start := by
  obtain ⟨same, started⟩ := (build_eq_ok_iff _ _ _).mp built
  have gives := same ▸ look_eq_some_iff calls
  have given := same ▸ issued_iff_given calls
  have productions := same ▸ productions_ofCalls calls
  have terminals : ∀ name operator, grammar.terminal? name = some operator ↔
      Gives calls (.terminal name) (.terminal operator) := by
    intro name operator
    simp [← gives, terminal?, look]
  have categories : ∀ name category, grammar.category? name = some category ↔
      Gives calls (.category name) (.category category) := by
    intro name category
    simp [← gives, category?, look]
  have listed : ∀ category,
      grammar.ofCategory category = (added calls).filter (·.category = category) := by
    intro category
    rw [ofCategory, productions]
  refine ⟨started, terminals, categories, grammar.nameOf_terminal_iff, grammar.nameOf_category_iff,
    fun _ _ _ => gives_inj, ?_, ?_, ?_, ?_, ?_, ?_⟩
  · intro category known
    rw [productionsFor, if_pos ((given _).mpr known), listed]
  · intro category unknown
    rw [productionsFor, if_neg (mt (given _).mp unknown)]
  · intro operator production
    rw [productionOf_eq_ok_iff, productions]
  · intro operator name known bare
    rw [← productions] at bare
    rw [productionOf_of_bare operator bare, (grammar.nameOf_terminal_iff operator name).mpr known]
    rfl
  · intro operator unknown
    have foreign : ¬grammar.Issued (.terminal operator) := mt (given _).mp unknown
    have bare : ∀ production ∈ grammar.productions, production.operator ≠ operator := by
      rintro production member rfl
      exact foreign (grammar.operator_issued production member)
    rw [productionOf_of_bare operator bare, nameOf, NameTable.name?,
      List.getElem?_eq_none (Nat.le_of_not_lt foreign)]
    rfl
  · obtain ⟨index, made, shelved, owned⟩ := grammar.exists_index
    refine ⟨index, made, fun category known => ?_, fun operator known => ?_⟩
    · rw [shelved category ((given _).mpr known), listed]
    · exact owned operator ((given _).mpr known)

end Grammar

namespace Draft

/-- A draft makes a grammar exactly where its calls are coherent, and the grammar then reflects
them: names and handles stand for each other, and productions are found by category and by operator.
-/
theorem builds_from_calls (calls : List Call) (start : Category) :
    ((∃ grammar, (ofCalls calls).build start = .ok grammar) ↔ Coherent calls start) ∧
      ∀ grammar, (ofCalls calls).build start = .ok grammar → grammar.Reflects calls start := by
  refine ⟨?_, fun grammar built => Grammar.reflects_of_build built⟩
  rw [exists_build_iff, coherent_iff_wellFormed]

def sumCalls : List Call :=
  [.category "E", .terminal "x", .add ⟨⟨0⟩, ⟨0⟩, []⟩,
    .add ⟨⟨0⟩, ⟨1⟩, [.category ⟨0⟩, .category ⟨0⟩]⟩, .terminal "add", .terminal "x"]

theorem sums_drafted : ∃ grammar, (ofCalls sumCalls).build ⟨0⟩ = .ok grammar ∧
    Coherent sumCalls ⟨0⟩ ∧ grammar.Reflects sumCalls ⟨0⟩ := by
  have coherent : Coherent sumCalls ⟨0⟩ :=
    (coherent_iff_wellFormed _ _).mpr ((fault?_eq_none _ _).mp (by decide))
  obtain ⟨accepted, reflected⟩ := builds_from_calls sumCalls ⟨0⟩
  obtain ⟨grammar, built⟩ := accepted.mpr coherent
  exact ⟨grammar, built, coherent, reflected grammar built⟩

end Draft

end ByExample
