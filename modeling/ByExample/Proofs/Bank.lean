import ByExample.Proofs.Acceptance
import ByExample.Proofs.Growth

/-!
The invariant of the growing search's bank (`Consistent`). All that is kept is of its category and
no larger than the round allows, and each kept tree opened a class of its own, so that the classes
met are the classes kept. Offering trees preserves it, also where a fault cuts the offers short.
-/

namespace ByExample

variable {ι ο : Type} [DecidableEq ο] {ctx : Context ι ο}

/-- A component is a program of its category with a signature, and marked if it solves. -/
structure Component.Valid (ctx : Context ι ο) (component : Component) : Prop where
  generated : ctx.grammar.Generates component.category component.tree
  signed : ∃ signature, ctx.signature component.category component.tree = .ok signature ∧
    component.solves = (component.category = ctx.grammar.start && signature.agrees ctx.expected)

theorem Component.Valid.solves_iff {component : Component} (valid : component.Valid ctx) :
    component.solves = true ↔ component.category = ctx.grammar.start ∧
      ctx.semantics.isPredicate ctx.grammar.start = false ∧
      ctx.check component.tree = .ok true := by
  obtain ⟨signature, signed, marked⟩ := valid.signed
  rw [marked, Bool.and_eq_true, decide_eq_true_eq, ctx.agrees_iff]
  apply and_congr_right
  intro ofStart
  rw [← ctx.signature_eq_expected_iff, ← ofStart, signed, Except.ok.injEq]

namespace Bank

variable [Hashable ο] {bank : Bank ο}

/-- All components: those in store and those that wait to be stored. -/
def kept (bank : Bank ο) : List Component :=
  bank.stored.toList ++ bank.frontier.toList

theorem mem_kept_of_stored {component : Component} (member : component ∈ bank.stored) :
    component ∈ bank.kept :=
  List.mem_append_left _ (Array.mem_toList_iff.mpr member)

theorem mem_kept_of_frontier {component : Component} (member : component ∈ bank.frontier) :
    component ∈ bank.kept :=
  List.mem_append_right _ (Array.mem_toList_iff.mpr member)

theorem mem_componentsOf_iff (bank : Bank ο) (category : Category) (tree : Tree) :
    tree ∈ bank.componentsOf category ↔
      ∃ component ∈ bank.stored, component.category = category ∧ component.tree = tree := by
  simp [componentsOf, and_assoc]

def keptClasses (ctx : Context ι ο) (bank : Bank ο) :
    List (Except SearchError (Category × Signature ο)) :=
  bank.kept.map fun component => ctx.classOf component.tree

structure Consistent (ctx : Context ι ο) (bank : Bank ο) : Prop where
  valid : ∀ component ∈ bank.kept, component.Valid ctx
  bounded : ∀ component ∈ bank.kept, component.tree.size ≤ bank.size
  remembered : ∀ key, key ∈ bank.classes.seen ↔ .ok key ∈ bank.keptClasses ctx
  distinct : (bank.keptClasses ctx).Nodup

theorem consistent_start (maxSize : Nat) : (start maxSize : Bank ο).Consistent ctx where
  valid := by simp [start, kept]
  bounded := by simp [start, kept]
  remembered := by simp [start, kept, keptClasses, Classes.empty]
  distinct := by simp [start, kept, keptClasses]

theorem Consistent.exists_of_mem_seen (consistent : bank.Consistent ctx) (category : Category)
    (signature : Signature ο) (met : (category, signature) ∈ bank.classes.seen) :
    ∃ component ∈ bank.kept, component.category = category ∧
      ctx.signature category component.tree = .ok signature := by
  obtain ⟨component, member, opened⟩ :=
    List.mem_map.mp ((consistent.remembered (category, signature)).mp met)
  obtain ⟨rfl, signed⟩ :=
    (ctx.classOf_eq_ok_iff (consistent.valid component member).generated category signature).mp
      opened
  exact ⟨component, member, rfl, signed⟩

theorem Consistent.eq_of_signature_eq (consistent : bank.Consistent ctx) (category : Category)
    (left right : Tree) (signature : Signature ο)
    (leftStored : left ∈ bank.componentsOf category)
    (rightStored : right ∈ bank.componentsOf category)
    (leftSigned : ctx.signature category left = .ok signature)
    (rightSigned : ctx.signature category right = .ok signature) : left = right := by
  have opened (component : Component) (stored : component ∈ bank.stored)
      (named : component.category = category)
      (signed : ctx.signature category component.tree = .ok signature) :
      ctx.classOf component.tree = .ok (category, signature) := by
    have generated := (consistent.valid component (mem_kept_of_stored stored)).generated
    exact (ctx.classOf_eq_ok_iff (named ▸ generated) category signature).mpr ⟨rfl, signed⟩
  obtain ⟨first, firstStored, firstNamed, rfl⟩ := (bank.mem_componentsOf_iff _ _).mp leftStored
  obtain ⟨second, secondStored, secondNamed, rfl⟩ := (bank.mem_componentsOf_iff _ _).mp rightStored
  have firstClass := opened first firstStored firstNamed leftSigned
  have secondClass := opened second secondStored secondNamed rightSigned
  have same : first = second :=
    List.inj_on_of_nodup_map consistent.distinct (mem_kept_of_stored firstStored)
      (mem_kept_of_stored secondStored) (firstClass.trans secondClass.symm)
  rw [same]

theorem Consistent.nodup_stored (consistent : bank.Consistent ctx) :
    (bank.stored.toList.map Component.tree).Nodup := by
  have classes : (bank.stored.toList.map fun component => ctx.classOf component.tree).Nodup := by
    have whole := consistent.distinct
    rw [keptClasses, kept, List.map_append] at whole
    exact whole.of_append_left
  apply List.Nodup.of_map ctx.classOf
  rw [List.map_map]
  exact classes

theorem Consistent.nodup_componentsOf (consistent : bank.Consistent ctx) (category : Category) :
    (bank.componentsOf category).Nodup :=
  List.Nodup.sublist (List.filter_sublist.map Component.tree) consistent.nodup_stored

theorem Consistent.of_mem_componentsOf (consistent : bank.Consistent ctx) (category : Category)
    (tree : Tree) (member : tree ∈ bank.componentsOf category) :
    ctx.grammar.Generates category tree ∧ tree.size ≤ bank.size := by
  obtain ⟨component, stored, rfl, rfl⟩ := (bank.mem_componentsOf_iff category tree).mp member
  have among := mem_kept_of_stored stored
  exact ⟨(consistent.valid component among).generated, consistent.bounded component among⟩

theorem Consistent.supplies_of_stocks (consistent : bank.Consistent ctx) (tree : Tree)
    (argument : Symbol) (stocked : bank.Stocks tree argument) :
    ctx.grammar.Supplies tree argument := by
  cases argument with
  | terminal operator => exact stocked
  | category category =>
    exact (consistent.of_mem_componentsOf category tree stocked).1

theorem offer_eq (category : Category) (tree : Tree) (signature : Signature ο) :
    bank.offer ctx category tree signature =
      { bank with
        frontier :=
          if (category, signature) ∈ bank.classes.seen then bank.frontier
          else bank.frontier.push
            { category, tree,
              solves := category = ctx.grammar.start && signature.agrees ctx.expected }
        classes := (bank.classes.insert category signature).2 } := by
  have fresh := bank.classes.insert_fst category signature
  cases opened : bank.classes.insert category signature with
  | mk isNew classes =>
    rw [opened] at fresh
    cases isNew <;> simp_all [offer]

theorem mem_seen_offer (category : Category) (tree : Tree) (signature : Signature ο)
    (key : Category × Signature ο) :
    key ∈ (bank.offer ctx category tree signature).classes.seen ↔
      key = (category, signature) ∨ key ∈ bank.classes.seen := by
  rw [offer_eq, Classes.mem_insert_snd]

theorem kept_offer_of_known (ctx : Context ι ο) (category : Category) (tree : Tree)
    (signature : Signature ο) (known : (category, signature) ∈ bank.classes.seen) :
    (bank.offer ctx category tree signature).kept = bank.kept := by
  simp [offer_eq, kept, known]

theorem kept_offer_of_new (ctx : Context ι ο) (category : Category) (tree : Tree)
    (signature : Signature ο) (new : (category, signature) ∉ bank.classes.seen) :
    (bank.offer ctx category tree signature).kept =
      bank.kept ++
        [⟨category, tree, category = ctx.grammar.start && signature.agrees ctx.expected⟩] := by
  simp [offer_eq, kept, new]

theorem Consistent.offer (consistent : bank.Consistent ctx) (category : Category) (tree : Tree)
    (signature : Signature ο) (generated : ctx.grammar.Generates category tree)
    (bounded : tree.size ≤ bank.size) (signed : ctx.signature category tree = .ok signature) :
    (bank.offer ctx category tree signature).Consistent ctx := by
  have size : (bank.offer ctx category tree signature).size = bank.size := by rw [offer_eq]
  by_cases known : (category, signature) ∈ bank.classes.seen
  -- A tree of a class that has been met changes nothing.
  · have same := kept_offer_of_known ctx category tree signature known
    refine ⟨?_, ?_, ?_, ?_⟩
    · rw [same]
      exact consistent.valid
    · rw [same, size]
      exact consistent.bounded
    · intro key
      rw [mem_seen_offer, keptClasses, same, ← keptClasses, ← consistent.remembered]
      exact or_iff_right_of_imp fun equal => equal ▸ known
    · rw [keptClasses, same]
      exact consistent.distinct
  -- Otherwise the class of the tree is the one class that is added.
  · have added := kept_offer_of_new ctx category tree signature known
    have opened : ctx.classOf tree = .ok (category, signature) :=
      (ctx.classOf_eq_ok_iff generated category signature).mpr ⟨rfl, signed⟩
    have classes : (bank.offer ctx category tree signature).keptClasses ctx =
        bank.keptClasses ctx ++ [.ok (category, signature)] := by
      simp [keptClasses, added, opened]
    refine ⟨?_, ?_, ?_, ?_⟩
    · rw [added]
      intro component member
      rcases List.mem_append.mp member with old | last
      · exact consistent.valid component old
      · cases List.mem_singleton.mp last
        exact ⟨generated, signature, signed, rfl⟩
    · rw [added, size]
      intro component member
      rcases List.mem_append.mp member with old | last
      · exact consistent.bounded component old
      · cases List.mem_singleton.mp last
        exact bounded
    · intro key
      rw [mem_seen_offer, classes, List.mem_append, List.mem_singleton, Except.ok.injEq,
        ← consistent.remembered, or_comm]
    · rw [classes, List.nodup_append]
      refine ⟨consistent.distinct, List.nodup_singleton _, ?_⟩
      intro earlier member last single same
      rw [List.mem_singleton.mp single] at same
      exact known ((consistent.remembered _).mpr (same ▸ member))

theorem offerAll_frame (bank : Bank ο) (offers : List (Category × Tree)) :
    (bank.offerAll ctx offers).2.maxSize = bank.maxSize ∧
      (bank.offerAll ctx offers).2.size = bank.size ∧
      (bank.offerAll ctx offers).2.stored = bank.stored := by
  induction offers generalizing bank with
  | nil => exact ⟨rfl, rfl, rfl⟩
  | cons offer rest ih =>
    rw [offerAll]
    cases ctx.signature offer.1 offer.2 with
    | error error => exact ⟨rfl, rfl, rfl⟩
    | ok signature => simpa only [offer_eq] using ih (bank.offer ctx offer.1 offer.2 signature)

theorem mem_seen_offerAll_of_mem (bank : Bank ο) (offers : List (Category × Tree))
    (key : Category × Signature ο) (met : key ∈ bank.classes.seen) :
    key ∈ (bank.offerAll ctx offers).2.classes.seen := by
  induction offers generalizing bank with
  | nil => exact met
  | cons offer rest ih =>
    rw [offerAll]
    cases ctx.signature offer.1 offer.2 with
    | error error => exact met
    | ok signature => exact ih _ ((mem_seen_offer _ _ _ _).mpr (Or.inr met))

theorem exists_signature_of_offerAll (bank : Bank ο) (offers : List (Category × Tree))
    (finished : (bank.offerAll ctx offers).1 = .ok ()) (category : Category) (tree : Tree)
    (offered : (category, tree) ∈ offers) :
    ∃ signature, ctx.signature category tree = .ok signature ∧
      (category, signature) ∈ (bank.offerAll ctx offers).2.classes.seen := by
  induction offers generalizing bank with
  | nil => cases offered
  | cons offer rest ih =>
    cases signed : ctx.signature offer.1 offer.2 with
    | error error => simp [offerAll, signed] at finished
    | ok signature =>
      simp only [offerAll, signed] at finished ⊢
      rcases List.mem_cons.mp offered with rfl | later
      · exact ⟨signature, signed,
          mem_seen_offerAll_of_mem _ rest _ ((mem_seen_offer _ _ _ _).mpr (Or.inl rfl))⟩
      · exact ih _ finished later

theorem exists_offer_of_error (bank : Bank ο) (offers : List (Category × Tree))
    (error : SearchError) (failed : (bank.offerAll ctx offers).1 = .error error) :
    ∃ offer ∈ offers, ctx.signature offer.1 offer.2 = .error error := by
  induction offers generalizing bank with
  | nil => cases failed
  | cons offer rest ih =>
    cases signed : ctx.signature offer.1 offer.2 with
    | error cause =>
      simp only [offerAll, signed] at failed
      cases failed
      exact ⟨offer, List.mem_cons_self, signed⟩
    | ok signature =>
      simp only [offerAll, signed] at failed
      obtain ⟨later, member, unsigned⟩ := ih _ failed
      exact ⟨later, List.mem_cons_of_mem offer member, unsigned⟩

theorem offerAll_eq_ok (bank : Bank ο) (offers : List (Category × Tree))
    (signed : ∀ offer ∈ offers, ∃ signature, ctx.signature offer.1 offer.2 = .ok signature) :
    (bank.offerAll ctx offers).1 = .ok () := by
  induction offers generalizing bank with
  | nil => rfl
  | cons offer rest ih =>
    obtain ⟨signature, first⟩ := signed offer List.mem_cons_self
    simp only [offerAll, first]
    exact ih _ fun later member => signed later (List.mem_cons_of_mem offer member)

theorem Consistent.offerAll (consistent : bank.Consistent ctx) (offers : List (Category × Tree))
    (sound : ∀ offer ∈ offers,
      ctx.grammar.Generates offer.1 offer.2 ∧ offer.2.size ≤ bank.size) :
    (bank.offerAll ctx offers).2.Consistent ctx := by
  induction offers generalizing bank with
  | nil => exact consistent
  | cons offer rest ih =>
    obtain ⟨generated, bounded⟩ := sound offer List.mem_cons_self
    rw [Bank.offerAll]
    cases signed : ctx.signature offer.1 offer.2 with
    | error error => exact consistent
    | ok signature =>
      apply ih (consistent.offer offer.1 offer.2 signature generated bounded signed)
      intro later member
      have size : (bank.offer ctx offer.1 offer.2 signature).size = bank.size := by rw [offer_eq]
      rw [size]
      exact sound later (List.mem_cons_of_mem offer member)

@[simp] theorem kept_store (bank : Bank ο) : bank.store.kept = bank.kept := by
  simp [store, kept]

theorem Consistent.store (consistent : bank.Consistent ctx) : bank.store.Consistent ctx where
  valid := by
    rw [kept_store]
    exact consistent.valid
  bounded := by
    rw [kept_store]
    exact consistent.bounded
  remembered := by
    rw [keptClasses, kept_store]
    exact consistent.remembered
  distinct := by
    rw [keptClasses, kept_store]
    exact consistent.distinct

end Bank

end ByExample
