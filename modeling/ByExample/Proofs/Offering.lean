import ByExample.Proofs.Arithmetic.Pruning
import ByExample.Proofs.Strata

/-!
The trees that the growing search looks at. A round hands over every tree of its size that its
production and the bank admit, each of them once (`nodup_offers`), up to the first one that faults
(`handed`). As no two rounds are of one size, no tree is handed over twice in a whole search
(`offers_each_tree_once`).
-/

namespace ByExample

section

variable {α : Type}

theorem nodup_tuples (columns : List (List (Nat × α)))
    (distinct : ∀ column ∈ columns, (column.map Prod.snd).Nodup) :
    ((tuples columns).map Prod.snd).Nodup := by
  induction columns with
  | nil => simp [tuples]
  | cons column columns ih =>
    have heads := distinct column List.mem_cons_self
    have tails := ih fun other member => distinct other (List.mem_cons_of_mem column member)
    have split : (tuples (column :: columns)).map Prod.snd =
        ((tuples columns).map Prod.snd).flatMap fun rest =>
          (column.map Prod.snd).map fun item => item :: rest := by
      simp [tuples, List.map_flatMap, List.flatMap_map, Function.comp_def]
    rw [split, List.nodup_flatMap]
    constructor
    · intro rest _
      exact heads.map fun _ _ same => (List.cons.inj same).1
    · refine tails.imp fun different tuple first second => ?_
      obtain ⟨_, _, rfl⟩ := List.mem_map.mp first
      obtain ⟨_, _, same⟩ := List.mem_map.mp second
      exact different (List.cons.inj same).2.symm

theorem nodup_tuplesOfWeight (columns : List (List (Nat × α))) (total : Nat)
    (distinct : ∀ column ∈ columns, (column.map Prod.snd).Nodup) :
    (tuplesOfWeight columns total).Nodup := by
  have picked : tuplesOfWeight columns total =
      ((tuples columns).filter (·.1 = total)).map Prod.snd := by
    rw [tuplesOfWeight_eq, ← List.filterMap_eq_map, List.filterMap_filter]
    simp
  rw [picked]
  exact (nodup_tuples columns distinct).sublist (List.filter_sublist.map Prod.snd)

end

namespace Grammar

theorem nodup_allProductions (grammar : Grammar) : grammar.allProductions.Nodup := by
  rw [Draft.allProductions, List.nodup_flatMap]
  constructor
  · intro category _
    exact (grammar.wellFormed.operators_distinct.of_map _).filter _
  · refine grammar.nodup_allCategories.imp fun different production first second => ?_
    simp only [Draft.ofCategory, List.mem_filter, decide_eq_true_eq] at first second
    exact different (first.2.symm.trans second.2)

theorem pairwise_operators (grammar : Grammar) :
    grammar.allProductions.Pairwise fun left right => left.operator ≠ right.operator := by
  refine grammar.nodup_allProductions.imp_of_mem fun leftMember rightMember different same => ?_
  have left := ((grammar.mem_allProductions _).mp leftMember).1
  have right := ((grammar.mem_allProductions _).mp rightMember).1
  exact different (grammar.eq_of_operator_eq _ _ left right same)

end Grammar

namespace Bank

variable {ι ο : Type}

/-- Of the offers those that are looked at: all up to the first one without a signature, and that
one as well. -/
def lookedAt (ctx : Context ι ο) : List (Category × Tree) → List (Category × Tree)
  | [] => []
  | offer :: rest =>
    match ctx.signature offer.1 offer.2 with
    | .error _ => [offer]
    | .ok _ => offer :: lookedAt ctx rest

theorem lookedAt_sublist (ctx : Context ι ο) (offers : List (Category × Tree)) :
    (lookedAt ctx offers).Sublist offers := by
  induction offers with
  | nil => exact List.Sublist.refl _
  | cons offer rest ih =>
    rw [lookedAt]
    cases ctx.signature offer.1 offer.2 with
    | error error => exact (List.nil_sublist rest).cons_cons offer
    | ok signature => exact ih.cons_cons offer

variable [DecidableEq ο] [Hashable ο] {ctx : Context ι ο} {bank : Bank ο}

theorem Consistent.nodup_column (consistent : bank.Consistent ctx) (argument : Symbol) :
    ((bank.column argument).map Prod.snd).Nodup := by
  cases argument with
  | terminal operator => exact List.nodup_singleton _
  | category category =>
    rw [column, List.map_map]
    simpa [Function.comp_def] using consistent.nodup_componentsOf category

theorem Consistent.nodup_combinations (consistent : bank.Consistent ctx) (size : Nat)
    (production : Production) : (bank.combinations size production).Nodup := by
  refine List.Nodup.map (fun _ _ same => (Tree.node.inj same).2) ?_
  apply nodup_tuplesOfWeight
  intro column member
  obtain ⟨argument, _, rfl⟩ := List.mem_map.mp member
  exact consistent.nodup_column argument

theorem Consistent.nodup_offers (consistent : bank.Consistent ctx) (size : Nat) :
    ((bank.offers ctx.grammar size).map Prod.snd).Nodup := by
  have trees : (bank.offers ctx.grammar size).map Prod.snd =
      ctx.grammar.allProductions.flatMap (bank.combinations size) := by
    simp [offers, List.map_flatMap, Function.comp_def]
  rw [trees, List.nodup_flatMap]
  refine ⟨fun production _ => consistent.nodup_combinations size production, ?_⟩
  -- The operator at the root tells the production.
  refine ctx.grammar.pairwise_operators.imp fun different tree first second => ?_
  obtain ⟨_, _, rfl⟩ := List.mem_map.mp first
  obtain ⟨_, _, same⟩ := List.mem_map.mp second
  exact different (Tree.node.inj same).1.symm

theorem offerAll_lookedAt (bank : Bank ο) (offers : List (Category × Tree)) :
    offerAll ctx bank (lookedAt ctx offers) = offerAll ctx bank offers := by
  induction offers generalizing bank with
  | nil => rfl
  | cons offer rest ih =>
    cases signed : ctx.signature offer.1 offer.2 with
    | error error => simp only [lookedAt, offerAll, signed]
    | ok signature => simp only [lookedAt, offerAll, signed, ih]

theorem lookedAt_of_finished (bank : Bank ο) (offers : List (Category × Tree))
    (finished : (offerAll ctx bank offers).1 = .ok ()) : lookedAt ctx offers = offers := by
  induction offers generalizing bank with
  | nil => rfl
  | cons offer rest ih =>
    cases signed : ctx.signature offer.1 offer.2 with
    | error error => simp [offerAll, signed] at finished
    | ok signature =>
      simp only [offerAll, signed] at finished
      simp only [lookedAt, signed, ih _ finished]

/-- The trees that the next step looks at, with their categories. -/
def handed (ctx : Context ι ο) (bank : Bank ο) : List (Category × Tree) :=
  if bank.maxSize ≤ bank.size then []
  else lookedAt ctx (bank.offers ctx.grammar (bank.size + 1))

theorem handed_sublist (ctx : Context ι ο) (bank : Bank ο) :
    (bank.handed ctx).Sublist (bank.offers ctx.grammar (bank.size + 1)) := by
  rw [handed]
  split
  · exact List.nil_sublist _
  · exact lookedAt_sublist ctx _

theorem round_eq_handed (ctx : Context ι ο) (bank : Bank ο) (room : bank.size < bank.maxSize) :
    bank.round ctx = offerAll ctx { bank with size := bank.size + 1 } (bank.handed ctx) := by
  rw [handed, if_neg (Nat.not_le_of_lt room), offerAll_lookedAt, round]

theorem handed_of_finished (room : bank.size < bank.maxSize)
    (finished : (bank.round ctx).1 = .ok ()) :
    bank.handed ctx = bank.offers ctx.grammar (bank.size + 1) := by
  rw [handed, if_neg (Nat.not_le_of_lt room)]
  exact lookedAt_of_finished _ _ finished

theorem Consistent.nodup_handed (consistent : bank.Consistent ctx) :
    ((bank.handed ctx).map Prod.snd).Nodup :=
  (consistent.nodup_offers _).sublist ((handed_sublist ctx bank).map Prod.snd)

theorem mem_offers_of_two_le (bank : Bank ο) (grammar : Grammar) (size : Nat) (large : 2 ≤ size)
    (category : Category) (tree : Tree) :
    (category, tree) ∈ bank.offers grammar size ↔ tree.size = size ∧
      ∃ production ∈ grammar.productions, production.arguments ≠ [] ∧
        production.category = category ∧ ∃ children, tree = .node production.operator children ∧
          List.Forall₂ bank.Stocks children production.arguments := by
  rw [bank.mem_offers_iff grammar size (by omega)]
  refine and_congr_right fun sized => exists_congr fun production => and_congr_right fun _ => ?_
  refine (and_iff_right_of_imp ?_).symm
  rintro ⟨_, children, rfl, stocked⟩ bare
  rw [bare] at stocked
  cases stocked
  simp only [Tree.size, Tree.sizeAll] at sized
  omega

theorem size_of_handed (ctx : Context ι ο) (maxSize rounds : Nat) (category : Category)
    (tree : Tree) (member : (category, tree) ∈ (after ctx maxSize rounds).handed ctx) :
    rounds < maxSize ∧ tree.size = rounds + 1 := by
  have offered := (handed_sublist ctx _).subset member
  obtain ⟨_, sized⟩ := (consistent_after ctx maxSize rounds).of_offers category tree offered
  have room : rounds < maxSize := by
    by_contra full
    rw [handed, maxSize_after, size_after, if_pos (by omega)] at member
    cases member
  rw [size_after] at sized
  exact ⟨room, by omega⟩

theorem nodup_handed_after (ctx : Context ι ο) (maxSize rounds : Nat) :
    (((List.range rounds).flatMap fun earlier =>
      (after ctx maxSize earlier).handed ctx).map Prod.snd).Nodup := by
  rw [List.map_flatMap, List.nodup_flatMap]
  refine ⟨fun earlier _ => (consistent_after ctx maxSize earlier).nodup_handed, ?_⟩
  refine List.pairwise_lt_range.imp fun {earlier later} before tree first second => ?_
  obtain ⟨⟨_, left⟩, firstHanded, rfl⟩ := List.mem_map.mp first
  obtain ⟨⟨_, right⟩, secondHanded, same⟩ := List.mem_map.mp second
  obtain ⟨_, leftSize⟩ := size_of_handed ctx maxSize earlier _ _ firstHanded
  obtain ⟨_, rightSize⟩ := size_of_handed ctx maxSize later _ _ secondHanded
  -- The two steps are of different sizes, and their trees with them.
  have equal : right.size = left.size := congrArg Tree.size same
  omega

/-- A step hands over the trees that its round is made of. If none of them faults, these are, from
size two on, all trees of the size that apply an operator with arguments to one tree per argument, a
stored tree of its category or the leaf of its literal, and each is handed over once. Of all trees
that a fresh search hands over in however many steps, faults among them or not, no two are equal. -/
theorem offers_each_tree_once (ctx : Context ι ο) (maxSize rounds : Nat) :
    let bank := after ctx maxSize rounds
    (bank.size < bank.maxSize →
      bank.round ctx = offerAll ctx { bank with size := bank.size + 1 } (bank.handed ctx) ∧
      ((bank.round ctx).1 = .ok () → 2 ≤ bank.size + 1 →
        (∀ category tree, (category, tree) ∈ bank.handed ctx ↔ tree.size = bank.size + 1 ∧
          ∃ production ∈ ctx.grammar.productions, production.arguments ≠ [] ∧
            production.category = category ∧
            ∃ children, tree = .node production.operator children ∧
              List.Forall₂ bank.Stocks children production.arguments) ∧
        ((bank.handed ctx).map Prod.snd).Nodup)) ∧
    (((List.range rounds).flatMap fun earlier =>
      (after ctx maxSize earlier).handed ctx).map Prod.snd).Nodup := by
  intro bank
  have consistent : bank.Consistent ctx := consistent_after ctx maxSize rounds
  refine ⟨fun room => ⟨round_eq_handed ctx bank room, ?_⟩, nodup_handed_after ctx maxSize rounds⟩
  intro finished large
  refine ⟨fun category tree => ?_, consistent.nodup_handed⟩
  rw [handed_of_finished room finished]
  exact bank.mem_offers_of_two_le ctx.grammar _ large category tree

open Arithmetic in
theorem sums_offered_once :
    let ctx := sumContext 3 9
    let bank := after ctx 5 2
    bank.size < bank.maxSize ∧ (bank.round ctx).1 = .ok () ∧ 2 ≤ bank.size + 1 ∧
      (∃ tree, (⟨0⟩, tree) ∈ bank.handed ctx ∧ tree.size = 3) ∧
      ((bank.handed ctx).map Prod.snd).Nodup := by
  intro ctx bank
  have consistent : bank.Consistent ctx := consistent_after ctx 5 2
  have size : bank.size = 2 := size_after ctx 5 2
  have room : bank.size < bank.maxSize := by
    rw [size, maxSize_after]
    decide
  have finished : (bank.round ctx).1 = .ok () := by
    apply offerAll_eq_ok
    rintro ⟨category, tree⟩ offered
    exact exists_signature_of_sum 3 9 category tree (consistent.of_offers category tree offered).1
  have large : 2 ≤ bank.size + 1 := by omega
  obtain ⟨combined, distinct⟩ := ((offers_each_tree_once ctx 5 2).1 room).2 finished large
  refine ⟨room, finished, large, ?_, distinct⟩
  -- The input itself is represented by a leaf, which is added to itself.
  have clean (earlier : Nat) (_ : earlier < 2) : ∃ report,
      ((after ctx 5 earlier).step ctx).1 = .ok report :=
    (consistent_after ctx 5 earlier).exists_report (exists_signature_of_sum 3 9)
  obtain ⟨_, represents⟩ := represents_after
    (sumTable.compositional sumGrammar [⟨.ofList [("x", 3)], 9⟩]) 5 2 (by decide) clean
  obtain ⟨_, _, leaf, stored, _, small⟩ :=
    represents ⟨0⟩ (.leaf ⟨0⟩) ⟨⟨rfl, rfl⟩, rfl⟩ (by decide)
  have sized : (Tree.node ⟨2⟩ [leaf, leaf]).size = 3 := by
    have positive := leaf.size_pos
    simp only [Tree.leaf, Tree.size, Tree.sizeAll] at small ⊢
    omega
  refine ⟨.node ⟨2⟩ [leaf, leaf], (combined ⟨0⟩ _).mpr ⟨by rw [sized, size], ?_⟩, sized⟩
  exact ⟨⟨⟨0⟩, ⟨2⟩, [.category ⟨0⟩, .category ⟨0⟩]⟩, by simp [ctx, sumContext, Table.context,
    sumGrammar], by simp, rfl, [leaf, leaf], rfl, .cons stored (.cons stored .nil)⟩

end Bank

end ByExample
