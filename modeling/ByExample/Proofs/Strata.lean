import ByExample.Proofs.Round
import ByExample.Words

/-!
How the growing search comes by its components. A round adds trees of its own size at the end, made
of trees in store (`exists_added_of_round`). So what is kept is in order of size and composed of what
is stored, also where faults cut rounds short (`Stratified`), and without faults each round stores
one size (`grows_in_strata`).
-/

namespace ByExample.Bank

variable {ι ο : Type} [DecidableEq ο] [Hashable ο] {ctx : Context ι ο} {bank : Bank ο}

/-- The component applies a production of its category to trees in store and leaves of literals. -/
def Composes (grammar : Grammar) (bank : Bank ο) (component : Component) : Prop :=
  ∃ production ∈ grammar.productions, production.category = component.category ∧
    ∃ children, component.tree = .node production.operator children ∧
      List.Forall₂ bank.Stocks children production.arguments

theorem Composes.mono {other : Bank ο} {component : Component}
    (composes : bank.Composes ctx.grammar component)
    (grown : ∀ component ∈ bank.stored, component ∈ other.stored) :
    other.Composes ctx.grammar component := by
  obtain ⟨production, member, named, children, same, stocked⟩ := composes
  refine ⟨production, member, named, children, same, stocked.imp fun child argument stocks => ?_⟩
  cases argument with
  | terminal operator => exact stocks
  | category category =>
    obtain ⟨stored, among, held⟩ := (bank.mem_componentsOf_iff category child).mp stocks
    exact (other.mem_componentsOf_iff category child).mpr ⟨stored, grown stored among, held⟩

theorem exists_added_of_offer (ctx : Context ι ο) (bank : Bank ο) (category : Category)
    (tree : Tree) (signature : Signature ο) :
    ∃ added, (bank.offer ctx category tree signature).frontier.toList =
        bank.frontier.toList ++ added ∧
      ∀ component ∈ added, (component.category, component.tree) = (category, tree) := by
  rw [offer_eq]
  by_cases known : (category, signature) ∈ bank.classes.seen
  · exact ⟨[], by simp [known], nofun⟩
  · refine ⟨[⟨category, tree, category = ctx.grammar.start && signature.agrees ctx.expected⟩], ?_, ?_⟩
    · simp [known]
    · rintro _ single
      rw [List.mem_singleton.mp single]

theorem exists_added_of_offerAll (ctx : Context ι ο) (bank : Bank ο)
    (offers : List (Category × Tree)) :
    ∃ added, (bank.offerAll ctx offers).2.frontier.toList = bank.frontier.toList ++ added ∧
      ∀ component ∈ added, (component.category, component.tree) ∈ offers := by
  induction offers generalizing bank with
  | nil => exact ⟨[], by simp [offerAll], nofun⟩
  | cons offer rest ih =>
    rw [offerAll]
    cases ctx.signature offer.1 offer.2 with
    | error error => exact ⟨[], by simp, nofun⟩
    | ok signature =>
      obtain ⟨first, frontier, same⟩ := exists_added_of_offer ctx bank offer.1 offer.2 signature
      obtain ⟨others, extended, among⟩ := ih (bank.offer ctx offer.1 offer.2 signature)
      refine ⟨first ++ others, by rw [extended, frontier, List.append_assoc], ?_⟩
      intro component member
      rcases List.mem_append.mp member with here | later
      · exact same component here ▸ List.mem_cons_self
      · exact List.mem_cons_of_mem offer (among component later)

theorem exists_added_of_round (ctx : Context ι ο) (bank : Bank ο) :
    ∃ added, (bank.round ctx).2.frontier.toList = bank.frontier.toList ++ added ∧
      ∀ component ∈ added, component.tree.size = bank.size + 1 ∧
        bank.Composes ctx.grammar component := by
  obtain ⟨added, frontier, among⟩ := exists_added_of_offerAll ctx
    { bank with size := bank.size + 1 } (bank.offers ctx.grammar (bank.size + 1))
  refine ⟨added, frontier, fun component member => ?_⟩
  exact (bank.mem_offers_iff ctx.grammar (bank.size + 1) (Nat.succ_pos _) _ _).mp
    (among component member)

/-- The components are kept in order of size, and each is composed of what is stored. -/
structure Stratified (grammar : Grammar) (bank : Bank ο) : Prop where
  sorted : bank.kept.Pairwise fun earlier later => earlier.tree.size ≤ later.tree.size
  composed : ∀ component ∈ bank.kept, bank.Composes grammar component

theorem stratified_start (grammar : Grammar) (maxSize : Nat) :
    (start maxSize : Bank ο).Stratified grammar where
  sorted := by simp [start, kept]
  composed := by simp [start, kept]

theorem Stratified.round (stratified : bank.Stratified ctx.grammar)
    (consistent : bank.Consistent ctx) : (bank.round ctx).2.Stratified ctx.grammar := by
  obtain ⟨added, frontier, new⟩ := exists_added_of_round ctx bank
  have stored := (round_frame ctx bank).2.2
  have kept : (bank.round ctx).2.kept = bank.kept ++ added := by
    rw [Bank.kept, Bank.kept, stored, frontier, List.append_assoc]
  have composed (component : Component) (composes : bank.Composes ctx.grammar component) :
      (bank.round ctx).2.Composes ctx.grammar component :=
    composes.mono fun _ member => stored ▸ member
  constructor
  · rw [kept, List.pairwise_append]
    refine ⟨stratified.sorted, List.pairwise_iff_forall_sublist.mpr ?_, ?_⟩
    · intro earlier later sub
      have first := (new earlier (sub.subset (by simp))).1
      have second := (new later (sub.subset (by simp))).1
      omega
    -- Whatever was kept before is smaller than the trees of the round.
    · intro earlier old later member
      have bounded := consistent.bounded earlier old
      have sized := (new later member).1
      omega
  · rw [kept]
    intro component member
    rcases List.mem_append.mp member with old | last
    · exact composed component (stratified.composed component old)
    · exact composed component (new component last).2

theorem Stratified.store (stratified : bank.Stratified ctx.grammar) :
    bank.store.Stratified ctx.grammar where
  sorted := by
    rw [kept_store]
    exact stratified.sorted
  composed := by
    rw [kept_store]
    intro component member
    exact (stratified.composed component member).mono fun _ stored =>
      Array.mem_append_left _ stored

theorem stratified_after (ctx : Context ι ο) (maxSize rounds : Nat) :
    (after ctx maxSize rounds).Stratified ctx.grammar := by
  induction rounds with
  | zero => exact stratified_start ctx.grammar maxSize
  | succ rounds ih =>
    have built := ih.round (consistent_after ctx maxSize rounds)
    rw [after_succ, advance]
    rcases step_cases ctx (after ctx maxSize rounds) with
      ⟨_, done⟩ | ⟨_, ⟨_, _, failed⟩ | ⟨_, finished⟩⟩
    · rw [done]
      exact ih
    · rw [failed]
      exact built
    · rw [finished]
      exact built.store

theorem Stratified.pairwise_componentsOf (stratified : bank.Stratified ctx.grammar)
    (category : Category) :
    (bank.componentsOf category).Pairwise fun earlier later => earlier.size ≤ later.size := by
  rw [componentsOf, List.pairwise_map]
  exact (List.pairwise_append.mp stratified.sorted).1.filter _

theorem frame_of_clean (ctx : Context ι ο) (maxSize rounds : Nat)
    (clean : ∀ earlier < rounds, ∃ report,
      ((after ctx maxSize earlier).step ctx).1 = .ok report) :
    (after ctx maxSize rounds).frontier = #[] ∧
      (after ctx maxSize rounds).size = min rounds maxSize := by
  refine ⟨?_, size_after ctx maxSize rounds⟩
  induction rounds with
  | zero => rfl
  | succ rounds ih =>
    have frontier := ih fun earlier below => clean earlier (Nat.lt_succ_of_lt below)
    obtain ⟨report, passed⟩ := clean rounds (Nat.lt_succ_self rounds)
    rw [after_succ, advance]
    rcases step_cases ctx (after ctx maxSize rounds) with
      ⟨_, done⟩ | ⟨_, ⟨_, _, failed⟩ | ⟨_, finished⟩⟩
    · rw [done]
      exact frontier
    · rw [failed] at passed
      cases passed
    · rw [finished]
      rfl

theorem mem_components_iff (bank : Bank ο) (grammar : Grammar) (category : Category) (tree : Tree) :
    (category, tree) ∈ bank.components grammar ↔
      grammar.Issued (.category category) ∧ tree ∈ bank.componentsOf category := by
  simp only [components, List.mem_flatMap, List.mem_map, Draft.mem_allCategories, Prod.mk.injEq]
  constructor
  · rintro ⟨_, issued, _, member, rfl, rfl⟩
    exact ⟨issued, member⟩
  · rintro ⟨issued, member⟩
    exact ⟨category, issued, tree, member, rfl, rfl⟩

theorem Consistent.nodup_components (consistent : bank.Consistent ctx) :
    (bank.components ctx.grammar).Nodup := by
  rw [components, List.nodup_flatMap]
  constructor
  · intro category _
    apply List.Nodup.of_map Prod.snd
    simpa [Function.comp_def] using consistent.nodup_componentsOf category
  · refine ctx.grammar.nodup_allCategories.imp fun different pair first second => ?_
    obtain ⟨_, _, rfl⟩ := List.mem_map.mp first
    obtain ⟨_, _, same⟩ := List.mem_map.mp second
    exact different (congrArg Prod.fst same).symm

theorem Consistent.perm_components (consistent : bank.Consistent ctx) :
    (bank.components ctx.grammar).Perm
      (bank.stored.toList.map fun component => (component.category, component.tree)) := by
  have stored : (bank.stored.toList.map fun component =>
      (component.category, component.tree)).Nodup := by
    apply List.Nodup.of_map Prod.snd
    simpa [Function.comp_def] using consistent.nodup_stored
  refine (List.perm_ext_iff_of_nodup consistent.nodup_components stored).mpr ?_
  rintro ⟨category, tree⟩
  rw [mem_components_iff, mem_componentsOf_iff]
  simp only [List.mem_map, Array.mem_toList_iff, Prod.mk.injEq, and_iff_right_iff_imp]
  rintro ⟨component, member, rfl, rfl⟩
  exact (consistent.valid component (mem_kept_of_stored member)).generated.issued

theorem Consistent.countP_round (consistent : bank.Consistent ctx) (empty : bank.frontier = #[]) :
    (bank.round ctx).2.store.stored.toList.countP (·.tree.size = bank.size + 1) =
      (bank.round ctx).2.frontier.size := by
  obtain ⟨added, built, new⟩ := exists_added_of_round ctx bank
  rw [empty, List.nil_append] at built
  have earlier : bank.stored.toList.countP (·.tree.size = bank.size + 1) = 0 := by
    rw [List.countP_eq_zero]
    intro component member
    have bounded := consistent.bounded component (List.mem_append_left _ member)
    simp only [decide_eq_true_eq]
    omega
  have all : added.countP (·.tree.size = bank.size + 1) = added.length := by
    rw [List.countP_eq_length]
    intro component member
    exact decide_eq_true (new component member).1
  rw [Bank.store, Array.toList_append, (round_frame ctx bank).2.2, built, List.countP_append, earlier,
    all, Nat.zero_add, ← built, Array.length_toList]

theorem Consistent.count_of_round (consistent : bank.Consistent ctx)
    (empty : bank.frontier = #[]) (size frontier : Nat)
    (reported : (bank.step ctx).1 = .ok (some (.round size frontier))) :
    size = bank.size + 1 ∧
      ((bank.advance ctx).components ctx.grammar).countP (·.2.size = size) = frontier := by
  rcases step_cases ctx bank with ⟨_, done⟩ | ⟨_, ⟨_, _, failed⟩ | ⟨_, finished⟩⟩
  · rw [done] at reported
    cases reported
  · rw [failed] at reported
    cases reported
  · rw [finished] at reported
    rcases consistent.round.report_cases with ⟨program, correct, _⟩ | ⟨round, _⟩
    · rw [correct] at reported
      cases reported
    · rw [round] at reported
      cases reported
      have raised := (round_frame ctx bank).2.1
      refine ⟨raised, ?_⟩
      rw [advance, finished, consistent.round.store.perm_components.countP_eq, List.countP_map,
        raised]
      exact consistent.countP_round empty

theorem Consistent.exists_keys (consistent : bank.Consistent ctx) :
    ∃ keys : List (Category × Signature ο),
      List.Forall₂ (fun component key => component.category = key.1 ∧
        ctx.signature component.category component.tree = .ok key.2) bank.kept keys ∧
      keys.Nodup ∧ ∀ key, key ∈ bank.classes.seen ↔ key ∈ keys := by
  have signed (component : Component) (member : component ∈ bank.kept) :
      ∃ key : Category × Signature ο, component.category = key.1 ∧
        ctx.signature component.category component.tree = .ok key.2 := by
    obtain ⟨signature, same, _⟩ := (consistent.valid component member).signed
    exact ⟨(component.category, signature), rfl, same⟩
  obtain ⟨keys, opened⟩ := exists_forall₂ signed
  have classes : bank.keptClasses ctx = keys.map .ok := by
    rw [keptClasses, ← List.forall₂_eq_eq_eq, List.forall₂_map_left_iff,
      List.forall₂_map_right_iff]
    refine forall₂_imp_of_mem opened fun component member key _ same => ?_
    exact (ctx.classOf_eq_ok_iff (consistent.valid component member).generated key.1 key.2).mpr same
  refine ⟨keys, opened, ?_, ?_⟩
  · have distinct := consistent.distinct
    rw [classes] at distinct
    exact distinct.of_map
  · intro key
    rw [consistent.remembered, classes]
    simp

/-- The bank after any number of steps, past faults or not. All that it keeps are programs of their
category up to the size reached, composed of stored ones, and in store in order of size; their
classes are distinct and are the classes met. If no step has failed, nothing waits, and the report
on a round names its number and how many stored programs have that size. -/
theorem grows_in_strata (ctx : Context ι ο) (maxSize rounds : Nat) :
    let bank := after ctx maxSize rounds
    (∀ component ∈ bank.kept, ctx.grammar.Generates component.category component.tree ∧
      component.tree.size ≤ bank.size ∧ bank.Composes ctx.grammar component) ∧
    (∃ keys : List (Category × Signature ο),
      List.Forall₂ (fun component key => component.category = key.1 ∧
        ctx.signature component.category component.tree = .ok key.2) bank.kept keys ∧
      keys.Nodup ∧ ∀ key, key ∈ bank.classes.seen ↔ key ∈ keys) ∧
    (∀ category,
      (bank.componentsOf category).Pairwise fun earlier later => earlier.size ≤ later.size) ∧
    ((∀ earlier < rounds, ∃ report, ((after ctx maxSize earlier).step ctx).1 = .ok report) →
      bank.frontier = #[] ∧
      ∀ size frontier, (bank.step ctx).1 = .ok (some (.round size frontier)) →
        size = rounds + 1 ∧
        ((bank.advance ctx).components ctx.grammar).countP (·.2.size = size) = frontier) := by
  intro bank
  have consistent : bank.Consistent ctx := consistent_after ctx maxSize rounds
  have stratified : bank.Stratified ctx.grammar := stratified_after ctx maxSize rounds
  refine ⟨?_, consistent.exists_keys, stratified.pairwise_componentsOf, ?_⟩
  · intro component member
    exact ⟨(consistent.valid component member).generated, consistent.bounded component member,
      stratified.composed component member⟩
  · intro clean
    obtain ⟨empty, reached⟩ := frame_of_clean ctx maxSize rounds clean
    refine ⟨empty, fun size frontier reported => ?_⟩
    obtain ⟨numbered, counted⟩ := consistent.count_of_round empty size frontier reported
    have room : bank.size < bank.maxSize := lt_of_report bank (.round size frontier) reported
    have limit : bank.maxSize = maxSize := maxSize_after ctx maxSize rounds
    have size : bank.size = min rounds maxSize := reached
    exact ⟨by omega, counted⟩

def letterGrammar : Grammar where
  terminals := .ofList ["a", "b"]
  categories := .ofList ["letter"]
  productions := [⟨⟨0⟩, ⟨0⟩, []⟩, ⟨⟨0⟩, ⟨1⟩, []⟩]
  start := ⟨0⟩
  wellFormed := (Draft.fault?_eq_none _ _).mp (by decide)

def letters (wanted : String) : Context Unit String :=
  { grammar := letterGrammar
    examples := [⟨(), wanted⟩]
    semantics := Words.semantics letterGrammar }

theorem eq_leaf_of_letters (category : Category) (tree : Tree)
    (generated : letterGrammar.Generates category tree) :
    category = ⟨0⟩ ∧ (tree = .leaf ⟨0⟩ ∨ tree = .leaf ⟨1⟩) := by
  obtain ⟨production, member, _, rfl, rfl, supplied⟩ := generated.exists_production
  simp only [letterGrammar, List.mem_cons, List.not_mem_nil, or_false] at member
  rcases member with rfl | rfl
  · cases supplied
    exact ⟨rfl, Or.inl rfl⟩
  · cases supplied
    exact ⟨rfl, Or.inr rfl⟩

theorem letters_in_strata :
    (∀ earlier < 1, ∃ report,
      ((after (letters "c") 2 earlier).step (letters "c")).1 = .ok report) ∧
    ∃ frontier, ((after (letters "c") 2 1).step (letters "c")).1 = .ok (some (.round 2 frontier)) ∧
      (((after (letters "c") 2 1).advance (letters "c")).components letterGrammar).countP
        (·.2.size = 2) = frontier := by
  have passes (rounds : Nat) : ∃ report,
      ((after (letters "c") 2 rounds).step (letters "c")).1 = .ok report := by
    apply (consistent_after (letters "c") 2 rounds).exists_report
    intro category tree generated
    obtain ⟨rfl, rfl | rfl⟩ := eq_leaf_of_letters category tree generated
    · exact ⟨.primary [some "a"], rfl⟩
    · exact ⟨.primary [some "b"], rfl⟩
  obtain ⟨-, -, -, strata⟩ := grows_in_strata (letters "c") 2 1
  obtain ⟨empty, counted⟩ := strata fun earlier _ => passes earlier
  refine ⟨fun earlier _ => passes earlier, ?_⟩
  have reached := (frame_of_clean (letters "c") 2 1 fun earlier _ => passes earlier).2
  have limit := maxSize_after (letters "c") 2 1
  rcases step_cases (letters "c") (after (letters "c") 2 1) with
    ⟨full, _⟩ | ⟨_, ⟨error, _, failed⟩ | ⟨_, finished⟩⟩
  · omega
  · obtain ⟨report, passed⟩ := passes 1
    rw [failed] at passed
    cases passed
  · rcases (consistent_after (letters "c") 2 1).round.report_cases with
      ⟨program, _, solves, _⟩ | ⟨round, _⟩
    -- No word of the grammar is the wanted one.
    · obtain ⟨_, same | same⟩ := eq_leaf_of_letters _ _ solves.generated
      · cases same ▸ solves.checked
      · cases same ▸ solves.checked
    · rw [(round_frame _ _).2.1, reached] at round
      have reported : ((after (letters "c") 2 1).step (letters "c")).1 =
          .ok (some (.round 2 ((after (letters "c") 2 1).round (letters "c")).2.frontier.size)) := by
        rw [finished, round]
        rfl
      exact ⟨_, reported, (counted 2 _ reported).2⟩

end ByExample.Bank
