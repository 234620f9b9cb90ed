import ByExample.Proofs.Strata
import ByExample.Proofs.Arithmetic.Pruning

/-!
The order and the repetition of examples do not matter to the growing search. Signatures list values
in the order of the examples, so two such searches never remember the same classes; but trees that
the examples of the one search cannot tell apart are not told apart by the examples of the other
(`signature_of_subset`). So both keep the same components (`Alike`), step by step, up to the fault
that they report.
-/

namespace ByExample

variable {α β ε ι ο : Type}

/-- Both failed, whatever the error, or both came to the same. -/
def Agree : Except ε α → Except ε α → Prop
  | .ok left, .ok right => left = right
  | .error _, .error _ => True
  | _, _ => False

namespace Context

theorem Records.exists_of_subset {run : ι → Except EvalError α} {entries : List (Option α)}
    {examples others : List (Example ι ο)} (recorded : Records run entries examples)
    (fewer : others ⊆ examples) : ∃ rest, Records run rest others := by
  have entry (given : Example ι ο) (member : given ∈ others) :
      ∃ entry, Ending.ofEntry entry = Ending.ofResult (run given.input) := by
    obtain ⟨entry, _, same⟩ := exists_of_forall₂_of_mem recorded.flip given (fewer member)
    exact ⟨entry, same⟩
  obtain ⟨rest, kept⟩ := exists_forall₂ entry
  exact ⟨rest, kept.flip⟩

theorem Records.of_subset {run other : ι → Except EvalError α} {entries rest : List (Option α)}
    {examples others : List (Example ι ο)} (recorded : Records run entries examples)
    (alike : Records other entries examples) (fewer : others ⊆ examples)
    (kept : Records run rest others) : Records other rest others :=
  kept.congr_run fun given member => (recorded.ending_eq alike given (fewer member)).1

variable (ctx : Context ι ο) (others : List (Example ι ο))

def withExamples : Context ι ο :=
  { ctx with examples := others }

variable {ctx others}

theorem exists_signature_of_subset (fewer : others ⊆ ctx.examples) {category : Category}
    {tree : Tree} {signature : Signature ο} (signed : ctx.signature category tree = .ok signature) :
    ∃ rest, (ctx.withExamples others).signature category tree = .ok rest := by
  cases signature with
  | primary entries =>
    obtain ⟨kind, recorded⟩ := (ctx.signature_eq_primary_iff category tree entries).mp signed
    obtain ⟨rest, kept⟩ := recorded.exists_of_subset fewer
    exact ⟨.primary rest, (signature_eq_primary_iff _ category tree rest).mpr ⟨kind, kept⟩⟩
  | predicate entries =>
    obtain ⟨kind, recorded⟩ := (ctx.signature_eq_predicate_iff category tree entries).mp signed
    obtain ⟨rest, kept⟩ := recorded.exists_of_subset fewer
    exact ⟨.predicate rest, (signature_eq_predicate_iff _ category tree rest).mpr ⟨kind, kept⟩⟩

theorem signature_of_subset (fewer : others ⊆ ctx.examples) {category : Category}
    {left right : Tree} {signature rest : Signature ο}
    (leftSigned : ctx.signature category left = .ok signature)
    (rightSigned : ctx.signature category right = .ok signature)
    (kept : (ctx.withExamples others).signature category left = .ok rest) :
    (ctx.withExamples others).signature category right = .ok rest := by
  cases signature with
  | primary entries =>
    obtain ⟨kind, recorded⟩ := (ctx.signature_eq_primary_iff category left entries).mp leftSigned
    obtain ⟨_, alike⟩ := (ctx.signature_eq_primary_iff category right entries).mp rightSigned
    cases rest with
    | primary rest =>
      have restKept := ((signature_eq_primary_iff _ category left rest).mp kept).2
      exact (signature_eq_primary_iff _ category right rest).mpr
        ⟨kind, recorded.of_subset alike fewer restKept⟩
    | predicate rest =>
      have other := ((signature_eq_predicate_iff _ category left rest).mp kept).1
      cases kind.symm.trans other
  | predicate entries =>
    obtain ⟨kind, recorded⟩ := (ctx.signature_eq_predicate_iff category left entries).mp leftSigned
    obtain ⟨_, alike⟩ := (ctx.signature_eq_predicate_iff category right entries).mp rightSigned
    cases rest with
    | primary rest =>
      have other := ((signature_eq_primary_iff _ category left rest).mp kept).1
      cases kind.symm.trans other
    | predicate rest =>
      have restKept := ((signature_eq_predicate_iff _ category left rest).mp kept).2
      exact (signature_eq_predicate_iff _ category right rest).mpr
        ⟨kind, recorded.of_subset alike fewer restKept⟩

variable [DecidableEq ο] (others)

theorem check_eq_true_of_subset (fewer : others ⊆ ctx.examples) {tree : Tree}
    (checked : ctx.check tree = .ok true) : (ctx.withExamples others).check tree = .ok true := by
  rw [check_eq_true_iff] at checked ⊢
  exact fun given member => checked given (fewer member)

theorem agrees_of_subset (fewer : others ⊆ ctx.examples) {category : Category} {tree : Tree}
    {signature rest : Signature ο} (signed : ctx.signature category tree = .ok signature)
    (kept : (ctx.withExamples others).signature category tree = .ok rest)
    (agrees : signature.agrees ctx.expected = true) :
    rest.agrees (ctx.withExamples others).expected = true := by
  rw [agrees_iff] at agrees ⊢
  rw [agrees, signature_eq_expected_iff] at signed
  have expected := (signature_eq_expected_iff (ctx.withExamples others) category tree).mpr
    ⟨signed.1, check_eq_true_of_subset others fewer signed.2⟩
  exact Except.ok.inj (kept.symm.trans expected)

end Context

namespace Bank

variable [DecidableEq ο] [Hashable ο] {ctx : Context ι ο} {others : List (Example ι ο)}
  {left right : Bank ο}

theorem Consistent.mem_seen_iff {bank : Bank ο} (consistent : bank.Consistent ctx)
    (category : Category) (signature : Signature ο) :
    (category, signature) ∈ bank.classes.seen ↔
      ∃ component ∈ bank.kept, component.category = category ∧
        ctx.signature category component.tree = .ok signature := by
  constructor
  · exact consistent.exists_of_mem_seen category signature
  · rintro ⟨component, member, rfl, signed⟩
    have generated := (consistent.valid component member).generated
    exact (consistent.remembered _).mpr (List.mem_map.mpr
      ⟨component, member, (ctx.classOf_eq_ok_iff generated _ signature).mpr ⟨rfl, signed⟩⟩)

/-- Banks that differ at most in the classes that they remember. -/
structure Alike (left right : Bank ο) : Prop where
  maxSize : right.maxSize = left.maxSize
  size : right.size = left.size
  stored : right.stored = left.stored
  frontier : right.frontier = left.frontier

theorem Alike.symm (alike : Alike left right) : Alike right left :=
  ⟨alike.maxSize.symm, alike.size.symm, alike.stored.symm, alike.frontier.symm⟩

theorem Alike.kept (alike : Alike left right) : right.kept = left.kept := by
  rw [Bank.kept, Bank.kept, alike.stored, alike.frontier]

theorem Alike.offers (alike : Alike left right) (grammar : Grammar) (size : Nat) :
    right.offers grammar size = left.offers grammar size := by
  have columns : right.column = left.column := by
    funext argument
    cases argument with
    | terminal operator => rfl
    | category category => simp only [column, componentsOf, alike.stored]
  simp only [Bank.offers, combinations, columns]

theorem Alike.mem_seen (others : List (Example ι ο)) (alike : Alike left right)
    (consistent : left.Consistent ctx)
    (alsoConsistent : right.Consistent (ctx.withExamples others)) (fewer : others ⊆ ctx.examples)
    {category : Category} {tree : Tree} {signature rest : Signature ο}
    (signed : ctx.signature category tree = .ok signature)
    (kept : (ctx.withExamples others).signature category tree = .ok rest)
    (known : (category, signature) ∈ left.classes.seen) :
    (category, rest) ∈ right.classes.seen := by
  obtain ⟨component, member, named, same⟩ := (consistent.mem_seen_iff _ _).mp known
  refine (alsoConsistent.mem_seen_iff _ _).mpr ⟨component, alike.kept ▸ member, named, ?_⟩
  exact Context.signature_of_subset fewer signed same kept

section

variable (same : ∀ given, given ∈ others ↔ given ∈ ctx.examples)

include same

theorem Alike.offer (alike : Alike left right) (consistent : left.Consistent ctx)
    (alsoConsistent : right.Consistent (ctx.withExamples others)) {category : Category}
    {tree : Tree} {signature other : Signature ο}
    (signed : ctx.signature category tree = .ok signature)
    (otherSigned : (ctx.withExamples others).signature category tree = .ok other) :
    Alike (left.offer ctx category tree signature)
      (right.offer (ctx.withExamples others) category tree other) := by
  have fewer : others ⊆ ctx.examples := fun given => (same given).mp
  have more : ctx.examples ⊆ others := fun given => (same given).mpr
  have known : (category, other) ∈ right.classes.seen ↔
      (category, signature) ∈ left.classes.seen :=
    ⟨alike.symm.mem_seen ctx.examples alsoConsistent consistent more otherSigned signed,
      alike.mem_seen others consistent alsoConsistent fewer signed otherSigned⟩
  have solves : other.agrees (ctx.withExamples others).expected =
      signature.agrees ctx.expected :=
    Bool.eq_iff_iff.mpr
      ⟨Context.agrees_of_subset ctx.examples more otherSigned signed,
        Context.agrees_of_subset others fewer signed otherSigned⟩
  rw [offer_eq, offer_eq]
  refine ⟨alike.maxSize, alike.size, alike.stored, ?_⟩
  simp only [known, solves, alike.frontier]
  rfl

theorem Alike.offerAll (alike : Alike left right) (consistent : left.Consistent ctx)
    (alsoConsistent : right.Consistent (ctx.withExamples others))
    (offers : List (Category × Tree))
    (sound : ∀ offer ∈ offers,
      ctx.grammar.Generates offer.1 offer.2 ∧ offer.2.size ≤ left.size) :
    Agree (left.offerAll ctx offers).1 (right.offerAll (ctx.withExamples others) offers).1 ∧
      Alike (left.offerAll ctx offers).2 (right.offerAll (ctx.withExamples others) offers).2 := by
  induction offers generalizing left right with
  | nil => exact ⟨rfl, alike⟩
  | cons offer rest ih =>
    obtain ⟨generated, bounded⟩ := sound offer List.mem_cons_self
    simp only [Bank.offerAll]
    cases signed : ctx.signature offer.1 offer.2 with
    | error error =>
      cases otherSigned : (ctx.withExamples others).signature offer.1 offer.2 with
      | error other => exact ⟨trivial, alike⟩
      | ok signature =>
        obtain ⟨found, also⟩ := Context.exists_signature_of_subset
          (fun given => (same given).mpr) otherSigned
        cases signed.symm.trans also
    | ok signature =>
      obtain ⟨other, otherSigned⟩ :=
        Context.exists_signature_of_subset (fun given => (same given).mp) signed
      rw [otherSigned]
      refine ih (alike.offer same consistent alsoConsistent signed otherSigned)
        (consistent.offer offer.1 offer.2 signature generated bounded signed)
        (alsoConsistent.offer offer.1 offer.2 other generated (alike.size ▸ bounded) otherSigned) ?_
      intro later member
      have size : (left.offer ctx offer.1 offer.2 signature).size = left.size := by rw [offer_eq]
      exact size ▸ sound later (List.mem_cons_of_mem offer member)

theorem Alike.round (alike : Alike left right) (consistent : left.Consistent ctx)
    (alsoConsistent : right.Consistent (ctx.withExamples others)) :
    Agree (left.round ctx).1 (right.round (ctx.withExamples others)).1 ∧
      Alike (left.round ctx).2 (right.round (ctx.withExamples others)).2 := by
  have raised : Alike { left with size := left.size + 1 } { right with size := left.size + 1 } :=
    ⟨alike.maxSize, rfl, alike.stored, alike.frontier⟩
  have alsoRaised := alsoConsistent.raised
  rw [alike.size] at alsoRaised
  rw [Bank.round, Bank.round, alike.offers, alike.size]
  apply raised.offerAll same consistent.raised alsoRaised
  intro offer offered
  obtain ⟨generated, sized⟩ := consistent.of_offers offer.1 offer.2 offered
  exact ⟨generated, Nat.le_of_eq sized⟩

end

theorem Alike.store (alike : Alike left right) : Alike left.store right.store :=
  ⟨alike.maxSize, alike.size, by rw [Bank.store, Bank.store, alike.stored, alike.frontier], rfl⟩

theorem Alike.report (alike : Alike left right) : right.report = left.report := by
  rw [Bank.report, Bank.report, alike.frontier, alike.size]

theorem Alike.components (alike : Alike left right) (grammar : Grammar) :
    right.components grammar = left.components grammar := by
  simp only [Bank.components, componentsOf, alike.stored]

theorem Alike.step (same : ∀ given, given ∈ others ↔ given ∈ ctx.examples)
    (alike : Alike left right) (consistent : left.Consistent ctx)
    (alsoConsistent : right.Consistent (ctx.withExamples others)) :
    Agree (left.step ctx).1 (right.step (ctx.withExamples others)).1 ∧
      Alike (left.step ctx).2 (right.step (ctx.withExamples others)).2 := by
  obtain ⟨reported, built⟩ := alike.round same consistent alsoConsistent
  have bound := alike.maxSize
  have size := alike.size
  rcases step_cases ctx left with
    ⟨full, done⟩ | ⟨room, ⟨error, faulted, failed⟩ | ⟨clean, finished⟩⟩
  · rcases step_cases (ctx.withExamples others) right with ⟨_, also⟩ | ⟨room, _⟩
    · rw [done, also]
      exact ⟨rfl, alike⟩
    · omega
  · rcases step_cases (ctx.withExamples others) right with
      ⟨full, _⟩ | ⟨_, ⟨other, _, also⟩ | ⟨clean, _⟩⟩
    · omega
    · rw [failed, also]
      exact ⟨trivial, built⟩
    · rw [faulted, clean] at reported
      exact reported.elim
  · rcases step_cases (ctx.withExamples others) right with
      ⟨full, _⟩ | ⟨_, ⟨other, faulted, _⟩ | ⟨_, also⟩⟩
    · omega
    · rw [clean, faulted] at reported
      exact reported.elim
    · rw [finished, also]
      exact ⟨congrArg some built.report.symm, built.store⟩

theorem alike_after (same : ∀ given, given ∈ others ↔ given ∈ ctx.examples)
    (maxSize rounds : Nat) :
    Alike (after ctx maxSize rounds) (after (ctx.withExamples others) maxSize rounds) := by
  induction rounds with
  | zero => exact ⟨rfl, rfl, rfl, rfl⟩
  | succ rounds ih =>
    rw [after_succ, after_succ]
    exact (ih.step same (consistent_after ctx maxSize rounds)
      (consistent_after (ctx.withExamples others) maxSize rounds)).2

/-- Two fresh searches on the same examples, in whatever order and however often each is listed,
stay together step by step: both fail or both report the same, and both store the same components.
The checks of a tree agree where neither of them fails. -/
theorem depends_on_example_set (ctx : Context ι ο) (others : List (Example ι ο))
    (same : ∀ given, given ∈ others ↔ given ∈ ctx.examples) :
    (∀ maxSize rounds,
      Agree ((after ctx maxSize rounds).step ctx).1
        ((after (ctx.withExamples others) maxSize rounds).step (ctx.withExamples others)).1 ∧
      (after (ctx.withExamples others) maxSize rounds).components ctx.grammar =
        (after ctx maxSize rounds).components ctx.grammar) ∧
    ∀ tree correct other, ctx.check tree = .ok correct →
      (ctx.withExamples others).check tree = .ok other → other = correct := by
  constructor
  · intro maxSize rounds
    have alike := alike_after same maxSize rounds
    exact ⟨(alike.step same (consistent_after ctx maxSize rounds)
      (consistent_after (ctx.withExamples others) maxSize rounds)).1, alike.components ctx.grammar⟩
  · intro tree correct other checked otherChecked
    rw [Bool.eq_iff_iff]
    constructor
    · rintro rfl
      have also := Context.check_eq_true_of_subset ctx.examples
        (fun given => (same given).mpr) otherChecked
      exact Except.ok.inj (checked.symm.trans also)
    · rintro rfl
      have also := Context.check_eq_true_of_subset others (fun given => (same given).mp) checked
      exact Except.ok.inj (otherChecked.symm.trans also)

open Arithmetic in
theorem sums_reordered :
    let first : Example Environment Int64 := ⟨.ofList [("x", 3)], 4⟩
    let second : Example Environment Int64 := ⟨.ofList [("x", 5)], 6⟩
    let ctx := sumTable.context sumGrammar [first, second]
    let others := [second, first, second]
    (∀ given, given ∈ others ↔ given ∈ ctx.examples) ∧
    Agree ((after ctx 3 2).step ctx).1
      ((after (ctx.withExamples others) 3 2).step (ctx.withExamples others)).1 ∧
    (after (ctx.withExamples others) 3 3).components sumGrammar =
      (after ctx 3 3).components sumGrammar ∧
    (ctx.check (.node ⟨2⟩ [.leaf ⟨0⟩, .leaf ⟨1⟩]) = .ok true ∧
      ∀ other, (ctx.withExamples others).check (.node ⟨2⟩ [.leaf ⟨0⟩, .leaf ⟨1⟩]) = .ok other →
        other = true) := by
  intro first second ctx others
  have same : ∀ given, given ∈ others ↔ given ∈ ctx.examples := by
    intro given
    simp [others, ctx, Table.context, or_comm, or_left_comm]
  obtain ⟨searches, checks⟩ := depends_on_example_set ctx others same
  have checked : ctx.check (.node ⟨2⟩ [.leaf ⟨0⟩, .leaf ⟨1⟩]) = .ok true := by rfl
  exact ⟨same, (searches 3 2).1, (searches 3 3).2, checked,
    fun other also => checks _ true other checked also⟩

end Bank

end ByExample
