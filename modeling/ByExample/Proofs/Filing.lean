import ByExample.Proofs.Language

/-!
Looking productions up by number. One pass over the productions files each on the shelf of its
category and notes for its operator where it stands; the pass stops at an operator that has been
noted before. It gets through exactly where no operator heads two productions, and then shelves and
notes give the answers that a search of all productions gives (`Filed`).
-/

namespace ByExample

/-- A shelf for each category, and for each operator the category and the place on its shelf of the
production that it heads. -/
structure Index where
  shelves : List (List Production)
  owners : List (Option (Category × Nat))

namespace Index

def blank (draft : Draft) : Index where
  shelves := List.replicate draft.categories.size []
  owners := List.replicate draft.terminals.size none

def file? (index : Index) (production : Production) : Option Index :=
  match index.shelves[production.category.index]?, index.owners[production.operator.index]? with
  | some shelf, some none =>
    some {
      shelves := index.shelves.set production.category.index (shelf ++ [production])
      owners := index.owners.set production.operator.index
        (some (production.category, shelf.length)) }
  | _, _ => none

def ofDraft? (draft : Draft) : Option Index :=
  draft.productions.foldlM file? (blank draft)

def shelf? (index : Index) (category : Category) : Option (List Production) :=
  index.shelves[category.index]?

def production? (index : Index) (operator : Terminal) : Option Production :=
  match index.owners[operator.index]? with
  | some (some (category, place)) => (index.shelf? category).bind (·[place]?)
  | _ => none

def Notes (productions : List Production) (operator : Terminal) : Option (Category × Nat) → Prop
  | none => ∀ production ∈ productions, production.operator ≠ operator
  | some (category, place) => ∃ production,
      (productions.filter (·.category = category))[place]? = some production ∧
        production.operator = operator

/-- The productions are on the shelves, and each is noted where it stands. -/
structure Filed (draft : Draft) (productions : List Production) (index : Index) : Prop where
  shelved : ∀ category, draft.Issued (.category category) →
    index.shelves[category.index]? = some (productions.filter (·.category = category))
  noted : ∀ operator, draft.Issued (.terminal operator) →
    ∃ owner, index.owners[operator.index]? = some owner ∧ Notes productions operator owner

theorem filed_blank (draft : Draft) : Filed draft [] (blank draft) where
  shelved category issued := by
    have below : category.index < draft.categories.size := issued
    simp [blank, below]
  noted operator issued := by
    have below : operator.index < draft.terminals.size := issued
    exact ⟨none, by simp [blank, below], nofun⟩

variable {draft : Draft} {productions : List Production} {index : Index}

theorem Notes.append {operator : Terminal} {owner : Option (Category × Nat)}
    (notes : Notes productions operator owner) (production : Production)
    (other : production.operator ≠ operator) :
    Notes (productions ++ [production]) operator owner := by
  cases owner with
  | none =>
    intro filed member
    rcases List.mem_append.mp member with old | last
    · exact notes filed old
    · exact List.mem_singleton.mp last ▸ other
  | some owner =>
    obtain ⟨found, placed, named⟩ := notes
    refine ⟨found, ?_, named⟩
    rw [List.filter_append]
    exact List.getElem?_append_left (List.getElem?_eq_some_iff.mp placed).1 ▸ placed

theorem Filed.file (filed : Filed draft productions index) (production : Production)
    (shelf : draft.Issued (.category production.category))
    (slot : draft.Issued (.terminal production.operator))
    (fresh : ∀ other ∈ productions, other.operator ≠ production.operator) :
    ∃ next, index.file? production = some next ∧
      Filed draft (productions ++ [production]) next := by
  have shelved := filed.shelved production.category shelf
  obtain ⟨owner, noted, notes⟩ := filed.noted production.operator slot
  cases owner with
  | some owner =>
    obtain ⟨found, placed, named⟩ := notes
    exact absurd named (fresh found (List.mem_filter.mp (List.mem_of_getElem? placed)).1)
  | none =>
    have shelfBelow := (List.getElem?_eq_some_iff.mp shelved).1
    have slotBelow := (List.getElem?_eq_some_iff.mp noted).1
    refine ⟨_, by rw [file?, shelved, noted], ?_, ?_⟩
    · intro category issued
      by_cases same : production.category = category
      · subst same
        simp [shelfBelow]
      · have apart : production.category.index ≠ category.index :=
          fun equal => same (congrArg Category.mk equal)
        simp [List.getElem?_set_ne apart, filed.shelved category issued, same]
    · intro operator issued
      by_cases same : production.operator = operator
      · subst same
        refine ⟨_, List.getElem?_set_self slotBelow, production, ?_, rfl⟩
        simp
      · have apart : production.operator.index ≠ operator.index :=
          fun equal => same (congrArg Terminal.mk equal)
        obtain ⟨owner, old, kept⟩ := filed.noted operator issued
        exact ⟨owner, by simp [List.getElem?_set_ne apart, old], kept.append production same⟩

theorem Filed.file?_eq_none (filed : Filed draft productions index) (production : Production)
    (slot : draft.Issued (.terminal production.operator))
    (taken : ∃ other ∈ productions, other.operator = production.operator) :
    index.file? production = none := by
  obtain ⟨owner, noted, notes⟩ := filed.noted production.operator slot
  cases owner with
  | none =>
    obtain ⟨other, member, same⟩ := taken
    exact absurd same (notes other member)
  | some owner =>
    rw [file?, noted]
    cases index.shelves[production.category.index]? <;> rfl

theorem Filed.foldlM (filed : Filed draft productions index) (rest : List Production)
    (issued : ∀ production ∈ rest, ∀ symbol ∈ production.symbols, draft.Issued symbol)
    (distinct : (productions.map Production.operator).Nodup) :
    (∃ final, rest.foldlM file? index = some final ∧
      ((productions ++ rest).map Production.operator).Nodup ∧
      Filed draft (productions ++ rest) final) ∨
    rest.foldlM file? index = none ∧
      ¬((productions ++ rest).map Production.operator).Nodup := by
  induction rest generalizing productions index with
  | nil => exact Or.inl ⟨index, rfl, by simpa using distinct, by simpa using filed⟩
  | cons production rest ih =>
    have known := issued production List.mem_cons_self
    have slot := known (.terminal production.operator) (by simp [Production.symbols])
    by_cases taken : ∃ other ∈ productions, other.operator = production.operator
    · refine Or.inr ⟨?_, ?_⟩
      · rw [List.foldlM_cons, filed.file?_eq_none production slot taken]
        rfl
      · obtain ⟨other, member, same⟩ := taken
        rw [List.map_append, List.nodup_append]
        rintro ⟨_, _, apart⟩
        exact apart _ (List.mem_map_of_mem member) production.operator (by simp) same
    · have fresh : ∀ other ∈ productions, other.operator ≠ production.operator :=
        fun other member same => taken ⟨other, member, same⟩
      obtain ⟨next, made, kept⟩ := filed.file production
        (known (.category production.category) (by simp [Production.symbols])) slot fresh
      have still : ((productions ++ [production]).map Production.operator).Nodup := by
        rw [List.map_append, List.nodup_append]
        refine ⟨distinct, by simp, ?_⟩
        rintro _ old _ last rfl
        obtain ⟨other, member, same⟩ := List.mem_map.mp old
        exact fresh other member (same.trans (by simpa using last))
      have later := ih kept (fun other member => issued other (List.mem_cons_of_mem _ member)) still
      rw [List.append_assoc, List.singleton_append] at later
      rw [List.foldlM_cons, made]
      exact later

section

variable (issued : ∀ production ∈ draft.productions, ∀ symbol ∈ production.symbols,
  draft.Issued symbol)

include issued

theorem exists_index_iff :
    (∃ index, ofDraft? draft = some index) ↔ (draft.productions.map Production.operator).Nodup := by
  rcases (filed_blank draft).foldlM draft.productions issued List.nodup_nil with
    ⟨final, passed, distinct, _⟩ | ⟨stopped, repeated⟩
  · exact iff_of_true ⟨final, passed⟩ distinct
  · refine iff_of_false ?_ repeated
    rintro ⟨index, passed⟩
    cases stopped.symm.trans passed

theorem filed_of_ofDraft? (passed : ofDraft? draft = some index) :
    Filed draft draft.productions index := by
  rcases (filed_blank draft).foldlM draft.productions issued List.nodup_nil with
    ⟨final, made, _, filed⟩ | ⟨stopped, _⟩
  · cases passed.symm.trans made
    exact filed
  · cases stopped.symm.trans passed

end

theorem Filed.production?_eq_some_iff (filed : Filed draft productions index)
    (distinct : (productions.map Production.operator).Nodup) (operator : Terminal)
    (issued : draft.Issued (.terminal operator))
    (shelved : ∀ production ∈ productions, draft.Issued (.category production.category))
    (production : Production) :
    index.production? operator = some production ↔
      production ∈ productions ∧ production.operator = operator := by
  obtain ⟨owner, noted, notes⟩ := filed.noted operator issued
  cases owner with
  | none =>
    rw [production?, noted]
    simp only [reduceCtorEq, false_iff, not_and]
    exact notes production
  | some owner =>
    obtain ⟨category, place⟩ := owner
    obtain ⟨found, placed, named⟩ := notes
    obtain ⟨member, there⟩ := List.mem_filter.mp (List.mem_of_getElem? placed)
    have shelf := filed.shelved found.category (shelved found member)
    rw [of_decide_eq_true there] at shelf
    have answer : index.production? operator = some found := by
      simp [production?, noted, shelf?, shelf, placed]
    rw [answer, Option.some.injEq]
    constructor
    · rintro rfl
      exact ⟨member, named⟩
    · rintro ⟨among, same⟩
      exact List.inj_on_of_nodup_map distinct member among (named.trans same.symm)

end Index

/-- The index of a grammar answers as the grammar does. -/
theorem Grammar.exists_index (grammar : Grammar) :
    ∃ index, Index.ofDraft? grammar.toDraft = some index ∧
      (∀ category, grammar.Issued (.category category) →
        index.shelf? category = some (grammar.ofCategory category)) ∧
      ∀ operator, grammar.Issued (.terminal operator) → ∀ production,
        index.production? operator = some production ↔
          grammar.productionOf operator = .ok production := by
  have issued := grammar.wellFormed.symbols_issued
  have distinct := grammar.wellFormed.operators_distinct
  obtain ⟨index, passed⟩ := (Index.exists_index_iff issued).mpr distinct
  have filed := Index.filed_of_ofDraft? issued passed
  refine ⟨index, passed, filed.shelved, fun operator known production => ?_⟩
  rw [grammar.productionOf_eq_ok_iff]
  exact filed.production?_eq_some_iff distinct operator known grammar.category_issued production

end ByExample
