import ByExample.Proofs.Round

/-!
What pruning costs: nothing, as long as the signature of a tree is composed of the signatures of its
arguments (`Compositional`). Then after `n` rounds without a fault each program of at most `n` nodes
has a stored one of its class that is no larger (`represents_after`), although most programs were
never built.
-/

namespace ByExample

variable {ι ο : Type}

namespace Context

/-- Two trees that count as the same in the place of an argument. -/
def Alike (ctx : Context ι ο) (left right : Tree) : Symbol → Prop
  | .terminal _ => left = right
  | .category category => ∃ signature,
    ctx.signature category left = .ok signature ∧ ctx.signature category right = .ok signature

/-- A tree keeps its signature if trees that count as the same are exchanged for its children. -/
def Compositional (ctx : Context ι ο) : Prop :=
  ∀ production ∈ ctx.grammar.productions, ∀ (pairs : List (Tree × Tree)) (signature : Signature ο),
    List.Forall₂ (fun pair => ctx.Alike pair.1 pair.2) pairs production.arguments →
    ctx.signature production.category (.node production.operator (pairs.map Prod.fst)) =
      .ok signature →
    ctx.signature production.category (.node production.operator (pairs.map Prod.snd)) =
      .ok signature

end Context

namespace Bank

variable [DecidableEq ο] [Hashable ο] {ctx : Context ι ο} {bank : Bank ο} {size : Nat}

def Represents (ctx : Context ι ο) (bank : Bank ο) (size : Nat) : Prop :=
  ∀ category tree, ctx.grammar.Generates category tree → tree.size ≤ size →
    ∃ signature, ctx.signature category tree = .ok signature ∧
      ∃ stored ∈ bank.componentsOf category,
        ctx.signature category stored = .ok signature ∧ stored.size ≤ tree.size

theorem represents_zero (ctx : Context ι ο) (bank : Bank ο) : bank.Represents ctx 0 := by
  intro category tree generated bounded
  exact absurd bounded (Nat.not_le_of_lt tree.size_pos)

theorem Represents.exists_stocked (represents : bank.Represents ctx size) (tree : Tree)
    (argument : Symbol) (supplied : ctx.grammar.Supplies tree argument)
    (bounded : tree.size ≤ size) :
    ∃ stored, bank.Stocks stored argument ∧ stored.size ≤ tree.size ∧
      ctx.Alike stored tree argument := by
  cases argument with
  | terminal operator => exact ⟨tree, supplied, Nat.le_refl _, rfl⟩
  | category category =>
    obtain ⟨signature, signed, stored, member, same, smaller⟩ :=
      represents category tree supplied bounded
    exact ⟨stored, member, smaller, signature, same, signed⟩

theorem Represents.exists_pairs (represents : bank.Represents ctx size) (children : List Tree)
    (arguments : List Symbol)
    (supplied : List.Forall₂ ctx.grammar.Supplies children arguments)
    (bounded : Tree.sizeAll children ≤ size) :
    ∃ pairs : List (Tree × Tree), pairs.map Prod.snd = children ∧
      List.Forall₂ bank.Stocks (pairs.map Prod.fst) arguments ∧
      Tree.sizeAll (pairs.map Prod.fst) ≤ Tree.sizeAll children ∧
      List.Forall₂ (fun pair => ctx.Alike pair.1 pair.2) pairs arguments := by
  induction supplied with
  | nil => exact ⟨[], rfl, .nil, Nat.le_refl _, .nil⟩
  | @cons child argument rest _ first _ ih =>
    rw [Tree.sizeAll] at bounded
    obtain ⟨stored, stocked, smaller, alike⟩ :=
      represents.exists_stocked child argument first (by omega)
    obtain ⟨pairs, rfl, restStocked, restSmaller, restAlike⟩ := ih (by omega)
    refine ⟨(stored, child) :: pairs, rfl, .cons stocked restStocked, ?_, .cons alike restAlike⟩
    simp only [List.map_cons, Tree.sizeAll]
    omega

theorem mem_componentsOf_store_iff (bank : Bank ο) (category : Category) (tree : Tree) :
    tree ∈ bank.store.componentsOf category ↔
      ∃ component ∈ bank.kept, component.category = category ∧ component.tree = tree := by
  simp [mem_componentsOf_iff, store, kept]

theorem mem_componentsOf_round (bank : Bank ο) (category : Category) (tree : Tree)
    (member : tree ∈ bank.componentsOf category) :
    tree ∈ (bank.round ctx).2.store.componentsOf category := by
  obtain ⟨component, stored, named⟩ := (bank.mem_componentsOf_iff category tree).mp member
  refine (mem_componentsOf_store_iff _ category tree).mpr ⟨component, ?_, named⟩
  rw [kept, (round_frame ctx bank).2.2]
  exact List.mem_append_left _ (Array.mem_toList_iff.mpr stored)

theorem Consistent.exists_of_offered (consistent : bank.Consistent ctx)
    (finished : (bank.round ctx).1 = .ok ()) (category : Category) (tree : Tree)
    (offered : (category, tree) ∈ bank.offers ctx.grammar (bank.size + 1)) :
    ∃ signature, ctx.signature category tree = .ok signature ∧
      ∃ stored ∈ (bank.round ctx).2.store.componentsOf category,
        ctx.signature category stored = .ok signature ∧ stored.size ≤ bank.size + 1 := by
  obtain ⟨signature, signed, met⟩ :=
    exists_signature_of_offerAll _ _ finished category tree offered
  obtain ⟨component, member, named, same⟩ :=
    consistent.round.exists_of_mem_seen category signature met
  have bounded := consistent.round.bounded component member
  rw [(round_frame ctx bank).2.1] at bounded
  exact ⟨signature, signed, component.tree,
    (mem_componentsOf_store_iff _ category _).mpr ⟨component, member, named, rfl⟩, same, bounded⟩

theorem Represents.round (represents : bank.Represents ctx bank.size)
    (compositional : ctx.Compositional) (consistent : bank.Consistent ctx)
    (finished : (bank.round ctx).1 = .ok ()) :
    (bank.round ctx).2.store.Represents ctx (bank.size + 1) := by
  intro category tree generated bounded
  obtain ⟨production, among, children, rfl, rfl, supplied⟩ := generated.exists_production
  rw [Tree.size] at bounded ⊢
  obtain ⟨pairs, rfl, stocked, smaller, alike⟩ :=
    represents.exists_pairs children production.arguments supplied (by omega)
  -- With stored trees in the place of its children the program has the signature it had.
  have exchanged := compositional production among pairs
  have size : (Tree.node production.operator (pairs.map Prod.fst)).size =
      1 + Tree.sizeAll (pairs.map Prod.fst) := by rw [Tree.size]
  by_cases largest : (Tree.node production.operator (pairs.map Prod.fst)).size = bank.size + 1
  -- If it did not become smaller, the round has built it.
  · have offered := (bank.mem_offers_iff ctx.grammar (bank.size + 1) (Nat.succ_pos _) _ _).mpr
      ⟨largest, production, among, rfl, _, rfl, stocked⟩
    obtain ⟨signature, signed, stored, member, same, below⟩ :=
      consistent.exists_of_offered finished _ _ offered
    exact ⟨signature, exchanged signature alike signed, stored, member, same, by omega⟩
  -- A smaller program is represented since an earlier round.
  · have built := (ctx.grammar.generates_node_iff production among _).mpr
      (stocked.imp consistent.supplies_of_stocks)
    obtain ⟨signature, signed, stored, member, same, below⟩ :=
      represents production.category _ built (by omega)
    exact ⟨signature, exchanged signature alike signed, stored,
      mem_componentsOf_round bank _ _ member, same, by omega⟩

theorem Represents.step (represents : bank.Represents ctx bank.size)
    (compositional : ctx.Compositional) (consistent : bank.Consistent ctx)
    (room : bank.size < bank.maxSize) (report : Option Step)
    (passed : (bank.step ctx).1 = .ok report) :
    (bank.advance ctx).size = bank.size + 1 ∧
      (bank.advance ctx).Represents ctx (bank.size + 1) := by
  rw [advance]
  rcases step_cases ctx bank with ⟨full, _⟩ | ⟨_, ⟨error, _, failed⟩ | ⟨finished, stepped⟩⟩
  · omega
  · rw [failed] at passed
    cases passed
  · rw [stepped]
    exact ⟨(round_frame ctx bank).2.1, represents.round compositional consistent finished⟩

theorem represents_after (compositional : ctx.Compositional) (maxSize rounds : Nat)
    (within : rounds ≤ maxSize)
    (clean : ∀ earlier < rounds, ∃ report,
      ((after ctx maxSize earlier).step ctx).1 = .ok report) :
    (after ctx maxSize rounds).size = rounds ∧
      (after ctx maxSize rounds).Represents ctx rounds := by
  induction rounds with
  | zero => exact ⟨rfl, represents_zero ctx _⟩
  | succ rounds ih =>
    obtain ⟨size, represents⟩ :=
      ih (by omega) fun earlier below => clean earlier (Nat.lt_succ_of_lt below)
    obtain ⟨report, passed⟩ := clean rounds (Nat.lt_succ_self rounds)
    have limit := maxSize_after ctx maxSize rounds
    have next := Represents.step (size.symm ▸ represents) compositional
      (consistent_after ctx maxSize rounds) (by omega) report passed
    rw [size, ← after_succ] at next
    exact next

end Bank

end ByExample
