import ByExample.Proofs.Refinement
import ByExample.Proofs.Weight
import Mathlib.Logic.Function.Iterate

/-!
What a step of the refining search does (`step_of_cons`): the first tree leaves the worklist, its
successors come in at the end, and the report is on that tree. The successors share out what the
tree yields, and each is one production further. So what happens to the worklist depends on the
grammar alone (`invariant_after`).
-/

namespace ByExample.Worklist

section

variable {grammar : Grammar} {tree refined filled : Tree} {category : Category}

def successors (grammar : Grammar) (tree : Tree) : List Tree :=
  match tree.firstHole? with
  | some (path, category) => refinements tree path (grammar.ofCategory category)
  | none => []

theorem successors_of_isComplete (complete : tree.isComplete = true) :
    successors grammar tree = [] := by
  simp [successors, tree.firstHole?_eq_none.mpr complete]

theorem mem_successors_iff :
    refined ∈ successors grammar tree ↔
      ∃ path, ∃ production ∈ grammar.productions,
        tree.firstHole? = some (path, production.category) ∧
        Tree.Replacement (.hole production.category) (.expansion production) path tree refined := by
  cases found : tree.firstHole? with
  | none => simp [successors, found]
  | some hole =>
    obtain ⟨path, category⟩ := hole
    have there := tree.get?_of_firstHole? path category found
    simp only [successors, found, refinements, Draft.ofCategory, List.mem_filterMap,
      List.mem_filter, decide_eq_true_eq, Option.some.injEq, Prod.mk.injEq]
    constructor
    · rintro ⟨production, ⟨member, rfl⟩, replaced⟩
      exact ⟨path, production, member, ⟨rfl, rfl⟩, Tree.replacement_iff.mpr ⟨there, replaced⟩⟩
    · rintro ⟨_, production, member, ⟨rfl, rfl⟩, replacement⟩
      exact ⟨production, ⟨member, rfl⟩, replacement.replace?_eq⟩

theorem pairwise_successors (grammar : Grammar) (tree : Tree) :
    (successors grammar tree).Pairwise Tree.Apart := by
  cases found : tree.firstHole? with
  | none => simp [successors, found]
  | some hole =>
    obtain ⟨path, category⟩ := hole
    have there := tree.get?_of_firstHole? path category found
    -- The successors differ in the operator that they have in the place of the hole.
    have operators : (grammar.ofCategory category).Pairwise fun left right =>
        left.operator ≠ right.operator :=
      (List.pairwise_map.mp grammar.wellFormed.operators_distinct).filter _
    simp only [successors, found, refinements, List.pairwise_filterMap]
    refine operators.imp fun {left right} different leftChanged first rightChanged second => ?_
    exact Tree.apart_of_operator_ne left right different
      (Tree.replacement_iff.mpr ⟨there, first⟩) (Tree.replacement_iff.mpr ⟨there, second⟩)

theorem yields_of_mem_successors (member : refined ∈ successors grammar tree)
    (yields : refined.Yields filled) : tree.Yields filled := by
  obtain ⟨_, _, _, _, replacement⟩ := mem_successors_iff.mp member
  exact replacement.yields_of_yields yields

theorem not_yields_of_mem_successors (member : refined ∈ successors grammar tree) :
    ¬refined.Yields tree := by
  obtain ⟨_, _, _, _, replacement⟩ := mem_successors_iff.mp member
  intro yields
  -- An operator has come in the place of a hole, and an operator yields no hole.
  obtain ⟨_, there, below⟩ := yields.exists_get? replacement.symm.get?_eq
  cases there.symm.trans replacement.get?_eq
  cases below

theorem exists_mem_successors (admits : grammar.Admits category tree)
    (incomplete : tree.isComplete = false) (generated : grammar.Generates category filled)
    (yields : tree.Yields filled) : ∃ refined ∈ successors grammar tree, refined.Yields filled := by
  cases found : tree.firstHole? with
  | none => simp [tree.firstHole?_eq_none.mp found] at incomplete
  | some hole =>
    obtain ⟨path, category⟩ := hole
    have there := tree.get?_of_firstHole? path category found
    obtain ⟨production, member, rfl, refined, replacement, kept⟩ :=
      admits.exists_refinement there generated yields
    exact ⟨refined, mem_successors_iff.mpr ⟨path, production, member, found, replacement⟩, kept⟩

theorem weight_of_mem_successors (admits : grammar.Admits category tree)
    (member : refined ∈ successors grammar tree) :
    grammar.weight refined = grammar.weight tree + 1 := by
  obtain ⟨path, production, known, _, replacement⟩ := mem_successors_iff.mp member
  rw [(admits.holeAt replacement.get?_eq).weight_replacement replacement,
    Grammar.weight_expansion production known]

end

variable {ι ο : Type} [DecidableEq ο] {ctx : Context ι ο} {tree : Tree}

inductive Reported (ctx : Context ι ο) (tree : Tree) : Except SearchError (Option Step) → Prop where
  | expanded (incomplete : tree.isComplete = false) (count : Nat) :
      Reported ctx tree (.ok (some (.expanded tree count)))
  | failed (complete : tree.isComplete = true) (error : SearchError)
      (checked : ctx.check tree = .error error) : Reported ctx tree (.error error)
  | correct (complete : tree.isComplete = true) (checked : ctx.check tree = .ok true) :
      Reported ctx tree (.ok (some (.correct ⟨tree, complete⟩)))
  | incorrect (complete : tree.isComplete = true) (checked : ctx.check tree = .ok false) :
      Reported ctx tree (.ok (some (.incorrect tree)))

theorem step_of_nil (worklist : Worklist) (empty : worklist.toList = []) :
    worklist.step ctx = (.ok none, worklist) := by
  simp [step, (dequeue?_eq_none worklist).mpr empty]

theorem step_of_cons (worklist : Worklist) (admitted : worklist.Admitted ctx.grammar) (tree : Tree)
    (rest : List Tree) (first : worklist.toList = tree :: rest) :
    Reported ctx tree (worklist.step ctx).1 ∧
      (worklist.step ctx).2.toList = rest ++ successors ctx.grammar tree := by
  cases taken : worklist.dequeue? with
  | none => simp [(dequeue?_eq_none worklist).mp taken] at first
  | some next =>
    obtain ⟨other, remaining⟩ := next
    have whole := toList_of_dequeue? worklist remaining other taken
    obtain ⟨rfl, rfl⟩ := List.cons.inj (first.symm.trans whole)
    have admits := admitted tree (first ▸ List.mem_cons_self)
    simp only [step, taken]
    rcases handle_cases ctx tree remaining with
      ⟨path, category, found, handled⟩ |
      ⟨complete, ⟨error, checked, failed⟩ | ⟨checked, correct⟩ | ⟨checked, incorrect⟩⟩
    · have there := tree.get?_of_firstHole? path category found
      have incomplete : tree.isComplete = false := by
        cases complete : tree.isComplete with
        | true => simp [tree.firstHole?_eq_none.mpr complete] at found
        | false => rfl
      have listed := admits.productionsFor there
      rcases handled with ⟨error, missing, _⟩ | ⟨productions, known, expanded⟩
      · cases listed.symm.trans missing
      · cases listed.symm.trans known
        rw [expanded]
        exact ⟨.expanded incomplete _, by simp [successors, found]⟩
    · rw [failed]
      exact ⟨.failed complete error checked, by simp [successors_of_isComplete complete]⟩
    · rw [correct]
      exact ⟨.correct complete checked, by simp [successors_of_isComplete complete]⟩
    · rw [incorrect]
      exact ⟨.incorrect complete checked, by simp [successors_of_isComplete complete]⟩

def after (ctx : Context ι ο) (steps : Nat) : Worklist :=
  (fun worklist => (worklist.step ctx).2)^[steps] (start ctx.grammar)

def report (ctx : Context ι ο) (steps : Nat) : Except SearchError (Option Step) :=
  ((after ctx steps).step ctx).1

/-- The trees that these steps have taken off, in order. -/
def dequeued (ctx : Context ι ο) (steps : Nat) : List Tree :=
  (List.range steps).filterMap fun earlier => (after ctx earlier).dequeue?.map Prod.fst

theorem after_succ (ctx : Context ι ο) (steps : Nat) :
    after ctx (steps + 1) = ((after ctx steps).step ctx).2 :=
  Function.iterate_succ_apply' _ steps (start ctx.grammar)

theorem admitted_after (ctx : Context ι ο) (steps : Nat) :
    (after ctx steps).Admitted ctx.grammar := by
  induction steps with
  | zero => exact admitted_start ctx.grammar
  | succ steps ih =>
    rw [after_succ]
    exact (ih.step 0).1

theorem step_after (ctx : Context ι ο) (steps : Nat) (tree : Tree) (rest : List Tree)
    (first : (after ctx steps).toList = tree :: rest) :
    Reported ctx tree (report ctx steps) ∧
      (after ctx (steps + 1)).toList = rest ++ successors ctx.grammar tree := by
  rw [report, after_succ]
  exact step_of_cons _ (admitted_after ctx steps) tree rest first

theorem dequeue?_map_fst (worklist : Worklist) :
    worklist.dequeue?.map Prod.fst = worklist.toList.head? := by
  cases taken : worklist.dequeue? with
  | none => simp [(dequeue?_eq_none worklist).mp taken]
  | some next => simp [toList_of_dequeue? worklist next.2 next.1 taken]

theorem dequeued_succ (ctx : Context ι ο) (steps : Nat) :
    dequeued ctx (steps + 1) = dequeued ctx steps ++ (after ctx steps).toList.head?.toList := by
  simp only [dequeued, List.range_succ, List.filterMap_append, dequeue?_map_fst]
  cases waiting : (after ctx steps).toList <;> simp [waiting]

theorem mem_dequeued_iff (ctx : Context ι ο) (steps : Nat) (tree : Tree) :
    tree ∈ dequeued ctx steps ↔
      ∃ earlier < steps, ∃ rest, (after ctx earlier).toList = tree :: rest := by
  simp only [dequeued, List.mem_filterMap, List.mem_range, dequeue?_map_fst, List.head?_eq_some_iff]

theorem reported_of_dequeued {steps : Nat} (member : tree ∈ dequeued ctx steps) :
    ∃ earlier < steps, Reported ctx tree (report ctx earlier) := by
  obtain ⟨earlier, before, rest, first⟩ := (mem_dequeued_iff ctx steps tree).mp member
  exact ⟨earlier, before, (step_after ctx earlier tree rest first).1⟩

/-- What holds of a lone hole of the start category and is kept when the first tree is exchanged for
its successors at the end holds of every search. -/
theorem invariant_after {motive : List Tree → List Tree → Prop} (ctx : Context ι ο)
    (start : motive [] [.hole ctx.grammar.start])
    (step : ∀ taken tree rest, ctx.grammar.Admits ctx.grammar.start tree →
      motive taken (tree :: rest) →
      motive (taken ++ [tree]) (rest ++ successors ctx.grammar tree)) (steps : Nat) :
    motive (dequeued ctx steps) (after ctx steps).toList := by
  induction steps with
  | zero => simpa [dequeued, after, Worklist.start] using start
  | succ steps ih =>
    rw [dequeued_succ]
    cases waiting : (after ctx steps).toList with
    | nil =>
      rw [waiting] at ih
      rw [after_succ, step_of_nil _ waiting, waiting]
      simpa using ih
    | cons tree rest =>
      rw [waiting] at ih
      have admits := admitted_after ctx steps tree (waiting ▸ List.mem_cons_self)
      rw [(step_after ctx steps tree rest waiting).2]
      exact step _ tree rest admits ih

end ByExample.Worklist
