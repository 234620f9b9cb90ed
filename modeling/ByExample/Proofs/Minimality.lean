import ByExample.Proofs.Coverage
import ByExample.Proofs.Running

/-!
A run of the growing search without limits finds a smallest program that solves the examples, if
there is one of at most the largest size (`settles_run`). As long as no stored tree is a solution, no
program of the sizes done so far is one, since a stored tree stands for it.
-/

namespace ByExample

variable {ι ο : Type} [DecidableEq ο] {ctx : Context ι ο}

namespace Context

/-- Nothing that solves the examples is of a predicate category, where the bank marks no tree. -/
def Posed (ctx : Context ι ο) : Prop :=
  ∀ tree, ctx.Solves tree → ctx.semantics.isPredicate ctx.grammar.start = false

/-- What the result of a run up to this size says of all programs. -/
def Settles (ctx : Context ι ο) (maxSize : Nat) : Result → Prop
  | .program program => ctx.Solves program.tree ∧ program.size ≤ maxSize ∧
    ∀ tree, ctx.Solves tree → program.size ≤ tree.size
  | .notFound => ∀ tree, ctx.Solves tree → maxSize < tree.size
  | .timeout => False

end Context

variable [Hashable ο] {bank : Bank ο}

namespace Bank

/-- A bank of a search that has not found anything so far. -/
structure Unsolved (ctx : Context ι ο) (bank : Bank ο) : Prop where
  consistent : bank.Consistent ctx
  represents : bank.Represents ctx bank.size
  unmarked : ∀ component ∈ bank.stored, component.solves = false

theorem unsolved_start (maxSize : Nat) : (start maxSize : Bank ο).Unsolved ctx where
  consistent := consistent_start maxSize
  represents := represents_zero ctx _
  unmarked := by simp [start]

theorem Unsolved.size_lt (unsolved : bank.Unsolved ctx) (posed : ctx.Posed) (tree : Tree)
    (solves : ctx.Solves tree) : bank.size < tree.size := by
  by_contra within
  obtain ⟨signature, signed, stored, member, same, _⟩ :=
    unsolved.represents ctx.grammar.start tree solves.generated (Nat.le_of_not_lt within)
  have expected := (ctx.signature_eq_expected_iff ctx.grammar.start tree).mpr
    ⟨posed tree solves, solves.checked⟩
  have checked : ctx.semantics.isPredicate ctx.grammar.start = false ∧
      ctx.check stored = .ok true := by
    apply (ctx.signature_eq_expected_iff ctx.grammar.start stored).mp
    rw [same, ← signed, expected]
  obtain ⟨component, among, ofStart, rfl⟩ := (bank.mem_componentsOf_iff _ stored).mp member
  have valid := unsolved.consistent.valid component (mem_kept_of_stored among)
  -- Then it is marked, which no stored tree is.
  have marked := valid.solves_iff.mpr ⟨ofStart, checked⟩
  rw [unsolved.unmarked component among] at marked
  cases marked

theorem Unsolved.step (unsolved : bank.Unsolved ctx) (posed : ctx.Posed)
    (compositional : ctx.Compositional) :
    (∃ error, Search.verdict (bank.step ctx).1 = some (.error error)) ∨
    (∃ result, Search.verdict (bank.step ctx).1 = some (.ok result) ∧
      ctx.Settles bank.maxSize result) ∨
    (Search.verdict (bank.step ctx).1 = none ∧ (bank.advance ctx).Unsolved ctx) := by
  rw [advance]
  rcases step_cases ctx bank with ⟨full, done⟩ | ⟨room, ⟨error, _, failed⟩ | ⟨finished, stepped⟩⟩
  · rw [done]
    refine Or.inr (Or.inl ⟨.notFound, rfl, ?_⟩)
    intro tree solves
    exact Nat.lt_of_le_of_lt full (unsolved.size_lt posed tree solves)
  · rw [failed]
    exact Or.inl ⟨error, rfl⟩
  · rw [stepped]
    have raised := (round_frame ctx bank).2.1
    rcases unsolved.consistent.round.report_cases with
      ⟨program, correct, solves, bounded⟩ | ⟨unmarked, none⟩
    · rw [correct]
      -- Smaller programs would have been found in an earlier round.
      refine Or.inr (Or.inl ⟨.program program, rfl, solves, by omega, ?_⟩)
      intro tree others
      have larger := unsolved.size_lt posed tree others
      omega
    · rw [unmarked]
      refine Or.inr (Or.inr ⟨rfl, unsolved.consistent.round.store, ?_, ?_⟩)
      · have size : (bank.round ctx).2.store.size = bank.size + 1 := raised
        rw [size]
        exact unsolved.represents.round compositional unsolved.consistent finished
      · intro component member
        rcases Array.mem_append.mp member with old | new
        · rw [(round_frame ctx bank).2.2] at old
          exact unsolved.unmarked component old
        · exact none component new

theorem Unsolved.exists_signature (unsolved : bank.Unsolved ctx)
    (compositional : ctx.Compositional) (program : Program)
    (reported : (bank.step ctx).1 = .ok (some (.correct program))) (category : Category)
    (tree : Tree) (generated : ctx.grammar.Generates category tree)
    (bounded : tree.size ≤ program.size) :
    ∃ signature, ctx.signature category tree = .ok signature := by
  rcases step_cases ctx bank with ⟨_, done⟩ | ⟨_, ⟨error, _, failed⟩ | ⟨finished, stepped⟩⟩
  · rw [done] at reported
    cases reported
  · rw [failed] at reported
    cases reported
  · rw [stepped] at reported
    have represents := unsolved.represents.round compositional unsolved.consistent finished
    rcases unsolved.consistent.round.report_cases with ⟨found, correct, _, within⟩ | ⟨unmarked, _⟩
    · rw [correct] at reported
      cases reported
      rw [(round_frame ctx bank).2.1] at within
      obtain ⟨signature, signed, _⟩ :=
        represents category tree generated (Nat.le_trans bounded within)
      exact ⟨signature, signed⟩
    · rw [unmarked] at reported
      cases reported

end Bank

namespace Search

theorem isSome_run (ctx : Context ι ο) (limit turns : Nat) (search : Search ο) (bank : Bank ο)
    (growing : search.progress = .bottomUp bank) (enough : bank.maxSize - bank.size < turns) :
    (search.run ctx { maxSize := limit } turns).1.isSome = true := by
  induction turns generalizing search bank with
  | zero => omega
  | succ turns ih =>
    obtain ⟨report, progress⟩ := step_progress ctx search
    rw [growing] at report progress
    rw [run_succ, report, Option.isSome_or, Bool.or_eq_true]
    rcases Bank.step_cases ctx bank with ⟨_, done⟩ | ⟨room, ⟨error, _, failed⟩ | ⟨_, stepped⟩⟩
    · exact Or.inl (by simp [stepProgress, done, verdict])
    · exact Or.inl (by simp [stepProgress, failed, verdict])
    · refine Or.inr (ih (search.advance ctx) (bank.advance ctx) progress ?_)
      have limited := Bank.maxSize_advance ctx bank
      have raised : (bank.advance ctx).size = bank.size + 1 := by
        rw [Bank.advance, stepped]
        exact (Bank.round_frame ctx bank).2.1
      omega

theorem isSome_of_lt (ctx : Context ι ο) (maxSize turns : Nat) (enough : maxSize < turns) :
    (synthesize ctx .bottomUp { maxSize } turns).isSome = true :=
  isSome_run ctx maxSize turns _ (.start maxSize) rfl enough

theorem progress_iterate (ctx : Context ι ο) (limits : Limits) (steps : Nat) :
    ((advance ctx)^[steps] (start ctx.grammar .bottomUp limits)).progress =
      .bottomUp (Bank.after ctx limits.maxSize steps) := by
  induction steps with
  | zero => rfl
  | succ steps ih =>
    rw [Function.iterate_succ_apply', (step_progress ctx _).2, ih, Bank.after_succ]
    rfl

theorem report_bottomUp (ctx : Context ι ο) (limits : Limits) (steps : Nat) :
    (((advance ctx)^[steps] (start ctx.grammar .bottomUp limits)).step ctx).1 =
      ((Bank.after ctx limits.maxSize steps).step ctx).1 := by
  rw [(step_progress ctx _).1, progress_iterate]
  rfl

theorem exists_ok_of_synthesize
    (total : ∀ category tree, ctx.grammar.Generates category tree →
      ∃ signature, ctx.signature category tree = .ok signature)
    (limits : Limits) (turns : Nat) (result : Except SearchError Result)
    (ended : synthesize ctx .bottomUp limits turns = some result) : ∃ ok, result = .ok ok := by
  cases result with
  | ok result => exact ⟨result, rfl⟩
  | error error =>
    obtain ⟨steps, failed⟩ := exists_report_of_error ctx limits turns _ error ended
    rw [report_bottomUp] at failed
    obtain ⟨report, passed⟩ := (Bank.consistent_after ctx limits.maxSize steps).exists_report total
    cases failed.symm.trans passed

theorem unsolved_iterate (posed : ctx.Posed) (compositional : ctx.Compositional)
    (search : Search ο) (bank : Bank ο) (growing : search.progress = .bottomUp bank)
    (unsolved : bank.Unsolved ctx) (steps : Nat)
    (quiet : ∀ earlier < steps, verdict (((advance ctx)^[earlier] search).step ctx).1 = none) :
    ∃ later : Bank ο, ((advance ctx)^[steps] search).progress = .bottomUp later ∧
      later.Unsolved ctx ∧ later.maxSize = bank.maxSize := by
  induction steps with
  | zero => exact ⟨bank, growing, unsolved, rfl⟩
  | succ steps ih =>
    obtain ⟨later, progress, others, limited⟩ :=
      ih fun earlier below => quiet earlier (Nat.lt_succ_of_lt below)
    have silent := quiet steps (Nat.lt_succ_self steps)
    obtain ⟨report, next⟩ := step_progress ctx ((advance ctx)^[steps] search)
    rw [progress] at report next
    rw [report] at silent
    rw [Function.iterate_succ_apply']
    rcases others.step posed compositional with ⟨_, failed⟩ | ⟨_, settled, _⟩ | ⟨_, further⟩
    · cases silent.symm.trans failed
    · cases silent.symm.trans settled
    · exact ⟨later.advance ctx, next, further, (Bank.maxSize_advance ctx later).trans limited⟩

theorem exists_signature_of_synthesize (posed : ctx.Posed) (compositional : ctx.Compositional)
    (limits : Limits) (turns : Nat) (program : Program)
    (found : synthesize ctx .bottomUp limits turns = some (.ok (.program program)))
    (category : Category) (tree : Tree) (generated : ctx.grammar.Generates category tree)
    (bounded : tree.size ≤ program.size) :
    ∃ signature, ctx.signature category tree = .ok signature := by
  obtain ⟨steps, quiet, reported⟩ := exists_report_of_program ctx limits turns _ program found
  obtain ⟨later, progress, unsolved, _⟩ := unsolved_iterate posed compositional _
    (.start limits.maxSize) rfl (Bank.unsolved_start limits.maxSize) steps quiet
  rw [(step_progress ctx _).1, progress] at reported
  exact unsolved.exists_signature compositional program reported category tree generated bounded

theorem settles_run (posed : ctx.Posed) (compositional : ctx.Compositional) (limit turns : Nat)
    (search : Search ο) (bank : Bank ο) (growing : search.progress = .bottomUp bank)
    (unsolved : bank.Unsolved ctx) (result : Result)
    (ended : (search.run ctx { maxSize := limit } turns).1 = some (.ok result)) :
    ctx.Settles bank.maxSize result := by
  rcases run_cases ctx limit turns search with ⟨none, _⟩ | ⟨steps, _, same, quiet, reported⟩
  · cases none.symm.trans ended
  · cases same.symm.trans ended
    obtain ⟨later, progress, others, limited⟩ :=
      unsolved_iterate posed compositional search bank growing unsolved steps quiet
    rw [(step_progress ctx _).1, progress] at reported
    rcases others.step posed compositional with ⟨_, failed⟩ | ⟨_, settled, settles⟩ | ⟨none, _⟩
    · cases reported.symm.trans failed
    · cases reported.symm.trans settled
      exact limited ▸ settles
    · cases reported.symm.trans none

theorem settles_of_synthesize (posed : ctx.Posed) (compositional : ctx.Compositional)
    (maxSize turns : Nat) (result : Result)
    (ended : synthesize ctx .bottomUp { maxSize } turns = some (.ok result)) :
    ctx.Settles maxSize result :=
  settles_run posed compositional maxSize turns _ (.start maxSize) rfl
    (Bank.unsolved_start maxSize) result ended

end Search

end ByExample
