import ByExample.Proofs.Drafting
import ByExample.Proofs.Enumeration
import ByExample.Proofs.Reachability
import ByExample.Proofs.Round
import ByExample.Proofs.Running
import Mathlib.Data.List.Find

/-!
Dropping productions of categories that are not needed. A set of categories that contains the start
category and the arguments of its own productions makes a grammar by itself (`wellFormed_trim`), and
a search over the whole grammar does what a search over the part does, and more. The refining search
never meets any other category, so that the two go on alike (`Context.Trims.worklist_after`). The
growing search builds and keeps trees of the other categories as well, but as long as these have
signatures, what it keeps of the needed ones is what the search over the part keeps
(`Bank.thins_after`).
-/

namespace ByExample

namespace Draft

def trim (needed : Category → Bool) (draft : Draft) : Draft :=
  { draft with productions := draft.productions.filter (needed ·.category) }

def Call.concerns (needed : Category → Bool) : Call → Bool
  | .add production => needed production.category
  | _ => true

variable (needed : Category → Bool) (draft : Draft)

theorem trim_perform (call : Call) :
    (draft.perform call).trim needed =
      if call.concerns needed then (draft.trim needed).perform call else draft.trim needed := by
  cases call with
  | terminal name => rfl
  | category name => rfl
  | add production =>
    cases concerned : needed production.category <;>
      simp [perform, add, trim, Call.concerns, concerned]

theorem ofCalls_filter (calls : List Call) :
    ofCalls (calls.filter (Call.concerns needed)) = (ofCalls calls).trim needed := by
  induction calls using List.reverseRecOn with
  | nil => rfl
  | append_singleton calls last ih =>
    rw [ofCalls_concat, trim_perform, ← ih, List.filter_append]
    cases concerned : last.concerns needed with
    | true =>
      rw [if_pos rfl, List.filter_cons_of_pos concerned, List.filter_nil, ofCalls_concat]
    | false => simp [concerned]

theorem ofCategory_trim (category : Category) :
    (draft.trim needed).ofCategory category =
      if needed category then draft.ofCategory category else [] := by
  simp only [ofCategory, trim, List.filter_filter]
  cases required : needed category with
  | true =>
    refine List.filter_congr fun production _ => ?_
    by_cases same : production.category = category <;> simp [same, required]
  | false =>
    refine List.filter_eq_nil_iff.mpr fun production _ => ?_
    by_cases same : production.category = category <;> simp [same, required]

end Draft

namespace Grammar

variable {grammar : Grammar} {needed : Category → Bool}

/-- The start category is needed, and so is whatever a needed category asks for. -/
structure Closed (grammar : Grammar) (needed : Category → Bool) : Prop where
  start : needed grammar.start = true
  asks : ∀ category argument, needed category = true → grammar.Asks category argument →
    needed argument = true

theorem Closed.of_reaches (closed : grammar.Closed needed) {category : Category}
    (reached : grammar.Reaches grammar.start category) : needed category = true := by
  induction reached with
  | refl => exact closed.start
  | tail _ asks ih => exact closed.asks _ _ ih asks

theorem closed_of_reaches
    (reached : ∀ category, needed category = true ↔ grammar.Reaches grammar.start category) :
    grammar.Closed needed where
  start := (reached _).mpr .refl
  asks category argument required asks := by
    rw [reached] at required ⊢
    exact required.tail asks

theorem wellFormed_trim (closed : grammar.Closed needed) :
    (grammar.toDraft.trim needed).WellFormed grammar.start := by
  have valid := grammar.wellFormed
  have known (production : Production)
      (member : production ∈ (grammar.toDraft.trim needed).productions) :
      production ∈ grammar.productions := (List.mem_filter.mp member).1
  refine ⟨valid.start_issued, ?_, ?_, ?_, ?_, ?_⟩
  · exact fun production member => valid.symbols_issued production (known production member)
  · exact valid.operators_distinct.sublist (List.filter_sublist.map _)
  · rw [Draft.ofCategory_trim, if_pos closed.start]
    exact valid.start_inhabited
  · intro production member category among
    obtain ⟨old, required⟩ := List.mem_filter.mp member
    have asked := closed.asks _ category required
      (grammar.asks_of_production production old category among)
    rw [Draft.ofCategory_trim, if_pos asked]
    exact valid.arguments_inhabited production old category among
  · intro production member operator among owner owned
    exact valid.literals_bare production (known production member) operator among owner
      (known owner owned)

def trim (grammar : Grammar) (needed : Category → Bool) (closed : grammar.Closed needed) :
    Grammar where
  toDraft := grammar.toDraft.trim needed
  start := grammar.start
  wellFormed := wellFormed_trim closed

theorem productionsFor_trim (closed : grammar.Closed needed) (category : Category)
    (required : needed category = true) :
    (grammar.trim needed closed).productionsFor category = grammar.productionsFor category := by
  have listed := grammar.toDraft.ofCategory_trim needed category
  rw [if_pos required] at listed
  simp only [productionsFor, trim, listed]
  rfl

end Grammar

variable {ι ο : Type} {whole part : Context ι ο} {needed : Category → Bool}

/-- The second context has the needed categories of the first one's grammar and the examples of the
first, and takes all trees for what they are there. Whether a category that is not needed is a
predicate category does not matter. -/
structure Context.Trims (needed : Category → Bool) (whole part : Context ι ο) : Prop where
  closed : whole.grammar.Closed needed
  grammar : part.grammar = whole.grammar.trim needed closed
  examples : part.examples = whole.examples
  evaluate : part.semantics.evaluate = whole.semantics.evaluate
  evaluatePredicate : part.semantics.evaluatePredicate = whole.semantics.evaluatePredicate
  isPredicate : ∀ category, needed category = true →
    part.semantics.isPredicate category = whole.semantics.isPredicate category

namespace Context.Trims

variable (trims : Context.Trims needed whole part)

include trims

theorem start : part.grammar.start = whole.grammar.start := by
  rw [trims.grammar]
  rfl

theorem expected : part.expected = whole.expected := by
  rw [Context.expected, Context.expected, trims.examples]

theorem signature (category : Category) (required : needed category = true) (tree : Tree) :
    part.signature category tree = whole.signature category tree := by
  simp only [Context.signature, trims.isPredicate category required, trims.evaluate,
    trims.evaluatePredicate, trims.examples]

theorem productionsFor (category : Category) (required : needed category = true) :
    part.grammar.productionsFor category = whole.grammar.productionsFor category := by
  rw [trims.grammar]
  exact Grammar.productionsFor_trim trims.closed category required

variable [DecidableEq ο]

theorem check (tree : Tree) : part.check tree = whole.check tree :=
  Context.check_congr trims.examples (congrFun trims.evaluate tree)

theorem handle (worklist : Worklist) (tree : Tree)
    (admits : whole.grammar.Admits whole.grammar.start tree) :
    Worklist.handle part tree worklist = Worklist.handle whole tree worklist := by
  cases found : tree.firstHole? with
  | some hole =>
    have reached := (admits.holeAt (tree.get?_of_firstHole? hole.1 hole.2 found)).reaches
    rw [Worklist.handle_of_hole found, Worklist.handle_of_hole found,
      trims.productionsFor hole.2 (trims.closed.of_reaches reached)]
  | none =>
    have complete := tree.firstHole?_eq_none.mp found
    rw [Worklist.handle_of_complete complete, Worklist.handle_of_complete complete, trims.check]

theorem worklist_step (worklist : Worklist) (admitted : worklist.Admitted whole.grammar) :
    worklist.step part = worklist.step whole := by
  cases taken : worklist.dequeue? with
  | none => simp [Worklist.step, taken]
  | some next =>
    have waits := Worklist.toList_of_dequeue? worklist next.2 next.1 taken
    have admits := admitted next.1 (waits ▸ List.mem_cons_self)
    simp only [Worklist.step, taken, trims.handle next.2 next.1 admits]

theorem worklist_after (steps : Nat) : Worklist.after part steps = Worklist.after whole steps := by
  induction steps with
  | zero => simp [Worklist.after, Worklist.start, trims.start]
  | succ steps ih =>
    rw [Worklist.after_succ, Worklist.after_succ, ih,
      trims.worklist_step _ (Worklist.admitted_after whole steps)]

theorem worklist_report (steps : Nat) :
    Worklist.report part steps = Worklist.report whole steps := by
  rw [Worklist.report, Worklist.report, trims.worklist_after,
    trims.worklist_step _ (Worklist.admitted_after whole steps)]

end Context.Trims

namespace Bank

variable [DecidableEq ο] [Hashable ο] {large small : Bank ο}

/-- The second bank is the first one as far as the needed categories go. -/
structure Thins (needed : Category → Bool) (large small : Bank ο) : Prop where
  maxSize : small.maxSize = large.maxSize
  size : small.size = large.size
  stored : small.stored.toList = large.stored.toList.filter (needed ·.category)
  frontier : small.frontier.toList = large.frontier.toList.filter (needed ·.category)
  seen : ∀ category, needed category = true → ∀ signature,
    ((category, signature) ∈ small.classes.seen ↔ (category, signature) ∈ large.classes.seen)

theorem thins_start (needed : Category → Bool) (maxSize : Nat) :
    Thins needed (start maxSize : Bank ο) (start maxSize) where
  maxSize := rfl
  size := rfl
  stored := rfl
  frontier := rfl
  seen _ _ _ := Iff.rfl

theorem Thins.componentsOf (thins : Thins needed large small) (category : Category)
    (required : needed category = true) :
    small.componentsOf category = large.componentsOf category := by
  rw [Bank.componentsOf, Bank.componentsOf, thins.stored, List.filter_filter]
  congr 1
  refine List.filter_congr fun component _ => ?_
  by_cases same : component.category = category <;> simp [same, required]

theorem Thins.combinations (thins : Thins needed large small) (size : Nat)
    (production : Production)
    (asked : ∀ category, .category category ∈ production.arguments → needed category = true) :
    small.combinations size production = large.combinations size production := by
  have columns : production.arguments.map small.column = production.arguments.map large.column := by
    refine List.map_congr_left fun argument among => ?_
    cases argument with
    | terminal operator => rfl
    | category category =>
      simp only [column, thins.componentsOf category (asked category among)]
  rw [Bank.combinations, Bank.combinations, columns]

theorem Thins.offers (thins : Thins needed large small) (trims : Context.Trims needed whole part)
    (size : Nat) :
    small.offers part.grammar size =
      (large.offers whole.grammar size).filter (needed ·.1) := by
  have ofOne (category : Category) (production : Production)
      (member : production ∈ whole.grammar.ofCategory category) :
      needed production.category = needed category ∧
        (needed category = true →
          small.combinations size production = large.combinations size production) := by
    obtain ⟨known, rfl⟩ := (whole.grammar.mem_ofCategory_iff category production).mp member
    refine ⟨rfl, fun required => thins.combinations size production fun argument among => ?_⟩
    exact trims.closed.asks _ argument required
      (whole.grammar.asks_of_production production known argument among)
  have listed (category : Category) : part.grammar.ofCategory category =
      if needed category then whole.grammar.ofCategory category else [] := by
    rw [trims.grammar]
    exact whole.grammar.toDraft.ofCategory_trim needed category
  have categories : part.grammar.allCategories = whole.grammar.allCategories := by
    rw [trims.grammar]
    rfl
  simp only [Bank.offers, Draft.allProductions, List.flatMap_assoc, List.filter_flatMap,
    categories]
  refine List.flatMap_congr fun category _ => ?_
  rw [listed]
  cases required : needed category with
  | true =>
    refine List.flatMap_congr fun production member => ?_
    obtain ⟨same, combined⟩ := ofOne category production member
    rw [combined required, List.filter_eq_self.mpr]
    intro offer offered
    obtain ⟨tree, _, rfl⟩ := List.mem_map.mp offered
    exact same.trans required
  | false =>
    refine (List.flatMap_eq_nil_iff.mpr fun production member => ?_).symm
    rw [List.filter_eq_nil_iff]
    intro offer offered
    obtain ⟨tree, _, rfl⟩ := List.mem_map.mp offered
    simp [(ofOne category production member).1, required]

section

variable (trims : Context.Trims needed whole part)

include trims

theorem Thins.offer (thins : Thins needed large small) (category : Category)
    (required : needed category = true) (tree : Tree) (signature : Signature ο) :
    Thins needed (large.offer whole category tree signature)
      (small.offer part category tree signature) := by
  have known := thins.seen category required signature
  rw [offer_eq, offer_eq]
  refine ⟨thins.maxSize, thins.size, thins.stored, ?_, ?_⟩
  · simp only [known, trims.start, trims.expected]
    split
    · exact thins.frontier
    · simp [thins.frontier, required]
  · intro other otherRequired met
    simp only [Classes.mem_insert_snd, thins.seen other otherRequired met]

omit trims in
theorem Thins.offer_left (thins : Thins needed large small) (category : Category)
    (dropped : needed category = false) (tree : Tree) (signature : Signature ο) :
    Thins needed (large.offer whole category tree signature) small := by
  rw [offer_eq]
  refine ⟨thins.maxSize, thins.size, thins.stored, ?_, ?_⟩
  · simp only [thins.frontier]
    split
    · rfl
    · simp [dropped]
  · intro other required met
    rw [thins.seen other required met, Classes.mem_insert_snd]
    refine (or_iff_right ?_).symm
    rintro ⟨⟩
    cases required.symm.trans dropped

theorem Thins.offerAll (thins : Thins needed large small) (offers : List (Category × Tree))
    (finished : (large.offerAll whole offers).1 = .ok ()) :
    (small.offerAll part (offers.filter (needed ·.1))).1 = .ok () ∧
      Thins needed (large.offerAll whole offers).2
        (small.offerAll part (offers.filter (needed ·.1))).2 := by
  induction offers generalizing large small with
  | nil => exact ⟨rfl, thins⟩
  | cons offer rest ih =>
    obtain ⟨category, tree⟩ := offer
    cases signed : whole.signature category tree with
    | error error => simp [Bank.offerAll, signed] at finished
    | ok signature =>
      simp only [Bank.offerAll, signed] at finished ⊢
      cases required : needed category with
      | true =>
        have also := (trims.signature category required tree).trans signed
        simp only [List.filter_cons, required, ↓reduceIte, Bank.offerAll, also]
        exact ih (thins.offer trims category required tree signature) finished
      | false =>
        simp only [List.filter_cons, required, Bool.false_eq_true, ↓reduceIte]
        exact ih (thins.offer_left category required tree signature) finished

theorem Thins.round (thins : Thins needed large small)
    (finished : (large.round whole).1 = .ok ()) :
    (small.round part).1 = .ok () ∧ Thins needed (large.round whole).2 (small.round part).2 := by
  have raised : Thins needed { large with size := large.size + 1 }
      { small with size := large.size + 1 } :=
    ⟨thins.maxSize, rfl, thins.stored, thins.frontier, thins.seen⟩
  rw [Bank.round] at finished ⊢
  rw [Bank.round, thins.size, thins.offers trims]
  exact raised.offerAll trims _ finished

omit trims in
theorem Thins.store (thins : Thins needed large small) : Thins needed large.store small.store := by
  refine ⟨thins.maxSize, thins.size, ?_, rfl, thins.seen⟩
  simp only [Bank.store, Array.toList_append, thins.stored, thins.frontier, List.filter_append]

theorem Thins.find?_solves (thins : Thins needed large small)
    (consistent : large.Consistent whole) :
    small.frontier.find? (·.solves) = large.frontier.find? (·.solves) := by
  rw [← Array.find?_toList, ← Array.find?_toList, thins.frontier, List.find?_filter]
  refine List.find?_congr fun component member => ?_
  have valid := consistent.valid component
    (mem_kept_of_frontier (Array.mem_toList_iff.mp member))
  cases solving : component.solves with
  | false => simp
  | true =>
    have ofStart := (valid.solves_iff.mp solving).1
    simp [ofStart, trims.closed.start]

theorem Thins.verdict_report (thins : Thins needed large small)
    (consistent : large.Consistent whole) :
    Search.verdict (.ok (some small.report)) = Search.verdict (.ok (some large.report)) := by
  rw [report, report, thins.find?_solves trims consistent]
  split <;> rfl

theorem Thins.step (thins : Thins needed large small) (consistent : large.Consistent whole)
    (report : Option Step) (stepped : (large.step whole).1 = .ok report) :
    ∃ other, (small.step part).1 = .ok other ∧
      Search.verdict (.ok other) = Search.verdict (.ok report) ∧
      (other = none ↔ report = none) ∧
      Thins needed (large.advance whole) (small.advance part) := by
  have bound := thins.maxSize
  have size := thins.size
  simp only [advance]
  rcases step_cases whole large with
    ⟨full, done⟩ | ⟨room, ⟨error, _, failed⟩ | ⟨finished, next⟩⟩
  · rcases step_cases part small with ⟨_, also⟩ | ⟨room, _⟩
    · rw [done] at stepped ⊢
      cases stepped
      exact ⟨none, by rw [also], rfl, Iff.rfl, by rwa [also]⟩
    · omega
  · rw [failed] at stepped
    cases stepped
  · obtain ⟨clean, built⟩ := thins.round trims finished
    rcases step_cases part small with ⟨full, _⟩ | ⟨_, ⟨error, faulted, _⟩ | ⟨_, also⟩⟩
    · omega
    · cases clean.symm.trans faulted
    · rw [next] at stepped ⊢
      cases stepped
      refine ⟨_, by rw [also], built.verdict_report trims consistent.round, ?_, ?_⟩
      · simp
      · rw [also]
        exact built.store

theorem thins_after (maxSize rounds : Nat)
    (clean : ∀ earlier < rounds, ∃ report,
      ((after whole maxSize earlier).step whole).1 = .ok report) :
    (∀ earlier < rounds, ∃ report, ((after part maxSize earlier).step part).1 = .ok report) ∧
      Thins needed (after whole maxSize rounds) (after part maxSize rounds) := by
  induction rounds with
  | zero => exact ⟨nofun, thins_start needed maxSize⟩
  | succ rounds ih =>
    obtain ⟨quiet, thins⟩ := ih fun earlier before => clean earlier (Nat.lt_succ_of_lt before)
    obtain ⟨report, stepped⟩ := clean rounds (Nat.lt_succ_self rounds)
    obtain ⟨other, also, _, _, next⟩ :=
      thins.step trims (consistent_after whole maxSize rounds) report stepped
    refine ⟨Nat.forall_lt_succ_right.mpr ⟨quiet, other, also⟩, ?_⟩
    rw [after_succ, after_succ]
    exact next

end

end Bank

namespace Search

variable [DecidableEq ο] [Hashable ο] {first second : Search ο}

inductive Thins (needed : Category → Bool) (whole : Context ι ο) : Search ο → Search ο → Prop where
  | bottomUp (large small : Bank ο) (steps : Nat) (consistent : large.Consistent whole)
      (thins : Bank.Thins needed large small) :
      Thins needed whole ⟨.bottomUp large, steps⟩ ⟨.bottomUp small, steps⟩

theorem Thins.steps_eq (thins : Thins needed whole first second) : second.steps = first.steps := by
  cases thins
  rfl

theorem Thins.step (thins : Thins needed whole first second)
    (trims : Context.Trims needed whole part)
    (clean : ∀ error, verdict (first.step whole).1 ≠ some (.error error)) :
    verdict (second.step part).1 = verdict (first.step whole).1 ∧
      Thins needed whole (first.advance whole) (second.advance part) := by
  obtain ⟨large, small, steps, consistent, thins⟩ := thins
  cases stepped : (large.step whole).1 with
  | error error => simp [Search.step, stepProgress, stepped, verdict] at clean
  | ok report =>
    obtain ⟨other, also, same, alike, next⟩ := thins.step trims consistent report stepped
    have kept : (large.advance whole).Consistent whole := consistent.step
    simp only [advance, Search.step, stepProgress, stepped, also]
    -- The count goes up on both sides or on neither.
    cases report with
    | none =>
      cases alike.mpr rfl
      exact ⟨rfl, .bottomUp _ _ steps kept next⟩
    | some report =>
      obtain ⟨other, rfl⟩ :=
        Option.ne_none_iff_exists'.mp (mt alike.mp (Option.some_ne_none report))
      exact ⟨same, .bottomUp _ _ (steps + 1) kept next⟩

theorem Thins.run (trims : Context.Trims needed whole part) (limits : Limits) (turns : Nat)
    (thins : Thins needed whole first second)
    (clean : ∀ error, (first.run whole limits turns).1 ≠ some (.error error)) :
    (second.run part limits turns).1 = (first.run whole limits turns).1 := by
  induction turns generalizing first second with
  | zero => rfl
  | succ turns ih =>
    have counted := thins.steps_eq
    cases early : limits.expired 0 with
    | true => simp [Search.run, turn, early]
    | false =>
      cases room : limits.spent first.steps with
      | true => simp [Search.run, turn, early, room, counted]
      | false =>
        have turned := turn_of_room whole limits 0 first early room
        have alsoTurned := turn_of_room part limits 0 second early (counted ▸ room)
        simp only [Search.run, turned, alsoTurned] at clean ⊢
        cases settled : verdict (first.step whole).1 with
        | some result =>
          rw [settled] at clean
          rw [(thins.step trims (settled ▸ clean)).1, settled]
        | none =>
          rw [settled] at clean
          obtain ⟨same, next⟩ := thins.step trims (by simp [settled])
          rw [same, settled]
          exact ih next clean

end Search

theorem Context.Trims.synthesize_thins [DecidableEq ο] [Hashable ο]
    (trims : Context.Trims needed whole part) (limits : Limits) (turns : Nat)
    (clean : ∀ error, synthesize whole .bottomUp limits turns ≠ some (.error error)) :
    synthesize part .bottomUp limits turns = synthesize whole .bottomUp limits turns :=
  Search.Thins.run trims limits turns
    (.bottomUp _ _ 0 (Bank.consistent_start limits.maxSize)
      (Bank.thins_start needed limits.maxSize)) clean

end ByExample
