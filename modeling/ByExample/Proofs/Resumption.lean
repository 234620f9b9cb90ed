import ByExample.Proofs.Running
import ByExample.Proofs.Strata

/-!
Runs without a time limit. Their limits decide nothing but where a run stops: wider limits let the
same run go on (`Ends.widen`), and a run that was cut short goes on from where it stopped as if it
had not been (`Ends.resume`). Both come from one account of a run, step by step (`Ends`).
-/

namespace ByExample

variable {ι ο : Type} [DecidableEq ο] {ctx : Context ι ο}

def Limits.StepsWithin (limits wider : Limits) : Prop :=
  ∀ bound ∈ wider.maxSteps, ∃ smaller ∈ limits.maxSteps, smaller ≤ bound

theorem Limits.spent_iff (limits : Limits) (steps : Nat) :
    limits.spent steps = true ↔ ∃ bound ∈ limits.maxSteps, bound ≤ steps := by
  cases bound : limits.maxSteps <;> simp [spent, bound]

theorem Limits.StepsWithin.room {limits wider : Limits} (within : limits.StepsWithin wider)
    {steps : Nat} (room : limits.spent steps = false) : wider.spent steps = false := by
  rw [← Bool.not_eq_true, spent_iff] at room ⊢
  rintro ⟨bound, limited, reached⟩
  obtain ⟨smaller, also, le⟩ := within bound limited
  exact room ⟨smaller, also, Nat.le_trans le reached⟩

theorem Worklist.eq_of_step_eq_none {worklist : Worklist}
    (exhausted : (worklist.step ctx).1 = .ok none) : (worklist.step ctx).2 = worklist := by
  cases taken : worklist.dequeue? with
  | none => simp [step, taken]
  | some next =>
    simp only [step, taken] at exhausted
    cases handled : (handle ctx next.1 next.2).1 <;> simp [handled, Except.map] at exhausted

variable [Hashable ο]

namespace Bank

theorem eq_of_step_eq_none {bank : Bank ο} (exhausted : (bank.step ctx).1 = .ok none) :
    (bank.step ctx).2 = bank := by
  rcases step_cases ctx bank with ⟨_, done⟩ | ⟨_, ⟨error, _, failed⟩ | ⟨_, finished⟩⟩
  · rw [done]
  · rw [failed] at exhausted
    cases exhausted
  · rw [finished] at exhausted
    cases exhausted

def resize (bank : Bank ο) (maxSize : Nat) : Bank ο :=
  { bank with maxSize }

variable (ctx) (bank : Bank ο) (maxSize : Nat)

theorem offer_resize (category : Category) (tree : Tree) (signature : Signature ο) :
    (bank.resize maxSize).offer ctx category tree signature =
      (bank.offer ctx category tree signature).resize maxSize := by
  simp only [offer_eq, resize]

theorem offerAll_resize (offers : List (Category × Tree)) :
    (bank.resize maxSize).offerAll ctx offers =
      ((bank.offerAll ctx offers).1, (bank.offerAll ctx offers).2.resize maxSize) := by
  induction offers generalizing bank with
  | nil => rfl
  | cons offer rest ih =>
    simp only [offerAll]
    cases ctx.signature offer.1 offer.2 with
    | error error => rfl
    | ok signature => simp only [offer_resize, ih]

theorem round_resize :
    (bank.resize maxSize).round ctx =
      ((bank.round ctx).1, (bank.round ctx).2.resize maxSize) :=
  offerAll_resize ctx { bank with size := bank.size + 1 } maxSize
    (bank.offers ctx.grammar (bank.size + 1))

theorem step_resize (wider : bank.maxSize ≤ maxSize)
    (room : bank.size < bank.maxSize) :
    (bank.resize maxSize).step ctx = ((bank.step ctx).1, (bank.step ctx).2.resize maxSize) := by
  have same := round_resize ctx bank maxSize
  have enough : (bank.resize maxSize).size < (bank.resize maxSize).maxSize :=
    Nat.lt_of_lt_of_le room wider
  rcases step_cases ctx bank with ⟨full, _⟩ | ⟨_, ⟨error, faulted, failed⟩ | ⟨built, finished⟩⟩
  · omega
  · rcases step_cases ctx (bank.resize maxSize) with
      ⟨full, _⟩ | ⟨_, ⟨other, alike, stepped⟩ | ⟨clean, _⟩⟩
    · omega
    · rw [same, faulted] at alike
      cases alike
      rw [stepped, failed, same]
    · rw [same, faulted] at clean
      cases clean
  · rcases step_cases ctx (bank.resize maxSize) with
      ⟨full, _⟩ | ⟨_, ⟨other, alike, _⟩ | ⟨_, stepped⟩⟩
    · omega
    · rw [same, built] at alike
      cases alike
    · rw [stepped, finished, same]
      rfl

end Bank

namespace Search

variable {limits wider : Limits} {search last : Search ο} {result : Except SearchError Result}

theorem verdict_eq_notFound_iff (report : Except SearchError (Option Step)) :
    verdict report = some (.ok .notFound) ↔ report = .ok none := by
  rcases report with _ | _ | _ | _ | _ | _ <;> simp [verdict]

theorem advance_of_exhausted (exhausted : (search.step ctx).1 = .ok none) :
    search.advance ctx = search := by
  obtain ⟨progress, steps⟩ := search
  have unchanged : (stepProgress ctx progress).2 = progress := by
    have none := (step_progress ctx ⟨progress, steps⟩).1.symm.trans exhausted
    cases progress with
    | topDown worklist => exact congrArg Progress.topDown (Worklist.eq_of_step_eq_none none)
    | bottomUp bank => exact congrArg Progress.bottomUp (Bank.eq_of_step_eq_none none)
  simp only [advance, step] at exhausted ⊢
  rcases stepped : stepProgress ctx progress with ⟨_ | _ | _, next⟩
  · simp [stepped] at exhausted
  · rw [stepped] at unchanged
    rw [← unchanged]
  · simp [stepped] at exhausted

/-- The run ends with the result, after some number of turns, and leaves the last search. -/
def Returns (ctx : Context ι ο) (limits : Limits) (search : Search ο)
    (result : Except SearchError Result) (last : Search ο) : Prop :=
  ∃ turns, search.run ctx limits turns = (some result, last)

/-- A run step by step: it looks at the limit on its steps, and then makes one. -/
inductive Ends (ctx : Context ι ο) (limits : Limits) :
    Search ο → Except SearchError Result → Search ο → Prop where
  | spent {search : Search ο} (reached : limits.spent search.steps = true) :
      Ends ctx limits search (.ok .notFound) search
  | settled {search : Search ο} {result : Except SearchError Result}
      (room : limits.spent search.steps = false)
      (reported : verdict (search.step ctx).1 = some result) :
      Ends ctx limits search result (search.advance ctx)
  | quiet {search last : Search ο} {result : Except SearchError Result}
      (room : limits.spent search.steps = false)
      (reported : verdict (search.step ctx).1 = none)
      (rest : Ends ctx limits (search.advance ctx) result last) :
      Ends ctx limits search result last

theorem run_of_spent (unhurried : limits.timeLimit = none)
    (reached : limits.spent search.steps = true) (turns : Nat) :
    search.run ctx limits (turns + 1) = (some (.ok .notFound), search) := by
  simp [run, turn, Limits.expired, unhurried, reached]

theorem run_of_room (unhurried : limits.timeLimit = none)
    (room : limits.spent search.steps = false) (turns : Nat) :
    search.run ctx limits (turns + 1) =
      match verdict (search.step ctx).1 with
      | some result => (some result, search.advance ctx)
      | none => (search.advance ctx).run ctx limits turns := by
  have early : limits.expired 0 = false := by simp [Limits.expired, unhurried]
  rw [run, turn_of_room ctx limits 0 search early room]
  cases verdict (search.step ctx).1 <;> rfl

theorem returns_iff (unhurried : limits.timeLimit = none) :
    Returns ctx limits search result last ↔ Ends ctx limits search result last := by
  constructor
  · rintro ⟨turns, returned⟩
    induction turns generalizing search with
    | zero => cases returned
    | succ turns ih =>
      cases checked : limits.spent search.steps with
      | true =>
        rw [run_of_spent unhurried checked] at returned
        cases returned
        exact .spent checked
      | false =>
        rw [run_of_room unhurried checked] at returned
        cases reported : verdict (search.step ctx).1 with
        | some outcome =>
          rw [reported] at returned
          cases returned
          exact .settled checked reported
        | none =>
          rw [reported] at returned
          exact .quiet checked reported (ih returned)
  · intro ends
    induction ends with
    | spent reached => exact ⟨1, run_of_spent unhurried reached 0⟩
    | settled room reported => exact ⟨1, by rw [run_of_room unhurried room, reported]⟩
    | quiet room reported _ ih =>
      obtain ⟨turns, returned⟩ := ih
      exact ⟨turns + 1, by rw [run_of_room unhurried room, reported]; exact returned⟩

theorem ends_advance_iff (room : limits.spent search.steps = false)
    (reported : verdict (search.step ctx).1 = none) :
    Ends ctx limits (search.advance ctx) result last ↔ Ends ctx limits search result last := by
  constructor
  · exact .quiet room reported
  · intro ends
    cases ends with
    | spent reached => simp [room] at reached
    | settled _ verdict => simp [reported] at verdict
    | quiet _ _ rest => exact rest

/-- The search that a run leaves without a result stands for the one that it was given. -/
theorem Ends.resume (within : limits.StepsWithin wider)
    (ends : Ends ctx limits search result last) (missed : result = .ok .notFound)
    (outcome : Except SearchError Result) (final : Search ο) :
    Ends ctx wider last outcome final ↔ Ends ctx wider search outcome final := by
  induction ends with
  | spent _ => rfl
  | settled _ reported =>
    rw [missed, verdict_eq_notFound_iff] at reported
    rw [advance_of_exhausted reported]
  | quiet room reported _ ih =>
    exact (ih missed).trans (ends_advance_iff (within.room room) reported)

/-- Searches paired so that the second does what the first does, until the first has nothing left to
try. -/
structure Follows (ctx : Context ι ο) (paired : Search ο → Search ο → Prop) : Prop where
  steps : ∀ first second, paired first second → second.steps = first.steps
  step : ∀ first second, paired first second → (first.step ctx).1 ≠ .ok none →
    (second.step ctx).1 = (first.step ctx).1 ∧
      paired (first.advance ctx) (second.advance ctx)

theorem follows_eq (ctx : Context ι ο) : Follows ctx Eq where
  steps _ _ same := congrArg Search.steps same.symm
  step _ _ same _ := same ▸ ⟨rfl, rfl⟩

theorem Ends.widen {paired : Search ο → Search ο → Prop} (follows : Follows ctx paired)
    (within : limits.StepsWithin wider) (ends : Ends ctx limits search result last)
    (found : result ≠ .ok .notFound) (other : Search ο) (pair : paired search other) :
    ∃ final, paired last final ∧ Ends ctx wider other result final := by
  induction ends generalizing other with
  | spent _ => exact absurd rfl found
  | @settled search result room reported =>
    have moved : (search.step ctx).1 ≠ .ok none := by
      intro exhausted
      rw [(verdict_eq_notFound_iff _).mpr exhausted] at reported
      exact found (Option.some.inj reported).symm
    obtain ⟨alike, next⟩ := follows.step search other pair moved
    have free := within.room room
    rw [← follows.steps search other pair] at free
    exact ⟨other.advance ctx, next, .settled free (by rw [alike, reported])⟩
  | @quiet search _ result room reported _ ih =>
    have moved : (search.step ctx).1 ≠ .ok none := by
      intro exhausted
      rw [(verdict_eq_notFound_iff _).mpr exhausted] at reported
      cases reported
    obtain ⟨alike, next⟩ := follows.step search other pair moved
    obtain ⟨final, ended, rest⟩ := ih found (other.advance ctx) next
    have free := within.room room
    rw [← follows.steps search other pair] at free
    exact ⟨final, ended, .quiet free (by rw [alike, reported]) rest⟩

theorem exists_steps_of_run (unhurried : limits.timeLimit = none) (turns : Nat)
    (search : Search ο) :
    ∃ calls ≤ turns, (search.run ctx limits turns).2 = (advance ctx)^[calls] search ∧
      ∀ earlier < calls, limits.spent ((advance ctx)^[earlier] search).steps = false := by
  induction turns generalizing search with
  | zero => exact ⟨0, Nat.le_refl 0, rfl, nofun⟩
  | succ turns ih =>
    cases checked : limits.spent search.steps with
    | true => exact ⟨0, Nat.zero_le _, by rw [run_of_spent unhurried checked]; rfl, nofun⟩
    | false =>
      rw [run_of_room unhurried checked]
      cases verdict (search.step ctx).1 with
      | some outcome =>
        exact ⟨1, by omega, rfl, Nat.forall_lt_succ_left.mpr ⟨checked, nofun⟩⟩
      | none =>
        obtain ⟨calls, few, reached, free⟩ := ih (search.advance ctx)
        exact ⟨calls + 1, by omega, reached, Nat.forall_lt_succ_left.mpr ⟨checked, free⟩⟩

inductive Enlarges : Search ο → Search ο → Prop where
  | topDown (worklist : Worklist) (steps : Nat) :
      Enlarges ⟨.topDown worklist, steps⟩ ⟨.topDown worklist, steps⟩
  | bottomUp (bank : Bank ο) (maxSize steps : Nat) (larger : bank.maxSize ≤ maxSize) :
      Enlarges ⟨.bottomUp bank, steps⟩ ⟨.bottomUp (bank.resize maxSize), steps⟩

theorem follows_enlarges (ctx : Context ι ο) :
    Follows ctx (Enlarges : Search ο → Search ο → Prop) where
  steps _ _ pair := by cases pair <;> rfl
  step first second pair moved := by
    cases pair with
    | topDown worklist steps =>
      refine ⟨rfl, ?_⟩
      simp only [advance, step, stepProgress]
      rcases (worklist.step ctx).1 with _ | _ | _ <;> exact .topDown _ _
    | bottomUp bank maxSize steps larger =>
      have room : bank.size < bank.maxSize := by
        rcases Bank.step_cases ctx bank with ⟨_, done⟩ | ⟨room, _⟩
        · simp [step, stepProgress, done] at moved
        · exact room
      have kept : (bank.step ctx).2.maxSize ≤ maxSize :=
        Nat.le_trans (Nat.le_of_eq (Bank.maxSize_advance ctx bank)) larger
      have stepped := Bank.step_resize ctx bank maxSize larger room
      simp only [advance, step, stepProgress, stepped]
      rcases (bank.step ctx).1 with _ | _ | _
      · exact ⟨rfl, .bottomUp _ _ _ kept⟩
      · exact ⟨rfl, .bottomUp _ _ _ kept⟩
      · exact ⟨rfl, .bottomUp _ _ _ kept⟩

theorem enlarges_start (grammar : Grammar) (strategy : Strategy)
    (larger : limits.maxSize ≤ wider.maxSize) :
    Enlarges (start grammar strategy limits : Search ο) (start grammar strategy wider) := by
  cases strategy with
  | topDown => exact .topDown _ _
  | bottomUp => exact .bottomUp (.start limits.maxSize) wider.maxSize 0 larger

theorem exists_returns_of_synthesize {strategy : Strategy} {turns : Nat}
    (returned : synthesize ctx strategy limits turns = some result) :
    ∃ last, Returns ctx limits (start ctx.grammar strategy limits) result last :=
  ⟨_, turns, Prod.ext returned rfl⟩

/-- Of two step limits the wider one returns what the narrower one returns, unless that is nothing;
and then it goes on from what the narrower one has left as if it had started before. No step is made
once the limit is met. So a program that is found is found under all wider limits. -/
theorem limits_cut_short (ctx : Context ι ο) (limits wider : Limits)
    (unhurried : limits.timeLimit = none) (alsoUnhurried : wider.timeLimit = none)
    (within : limits.StepsWithin wider) :
    (∀ (search last : Search ο) result, Returns ctx limits search result last →
      result ≠ .ok .notFound → Returns ctx wider search result last) ∧
    (∀ search last : Search ο, Returns ctx limits search (.ok .notFound) last →
      ∀ result final, Returns ctx wider last result final ↔
        Returns ctx wider search result final) ∧
    (∀ (search : Search ο) turns,
      (limits.spent search.steps = true →
        search.run ctx limits (turns + 1) = (some (.ok .notFound), search)) ∧
      ∃ calls ≤ turns, (search.run ctx limits turns).2 = (advance ctx)^[calls] search ∧
        ∀ earlier < calls, limits.spent ((advance ctx)^[earlier] search).steps = false) ∧
    (limits.maxSize ≤ wider.maxSize → ∀ strategy turns program,
      synthesize ctx strategy limits turns = some (.ok (.program program)) →
      ∃ more, synthesize ctx strategy wider more = some (.ok (.program program))) := by
  refine ⟨?_, ?_, ?_, ?_⟩
  · intro search last result returned found
    have ends := (returns_iff unhurried).mp returned
    obtain ⟨_, rfl, widened⟩ := ends.widen (follows_eq ctx) within found search rfl
    exact (returns_iff alsoUnhurried).mpr widened
  · intro search last returned result final
    rw [returns_iff alsoUnhurried, returns_iff alsoUnhurried]
    exact ((returns_iff unhurried).mp returned).resume within rfl result final
  · intro search turns
    exact ⟨fun reached => run_of_spent unhurried reached turns,
      exists_steps_of_run unhurried turns search⟩
  · intro larger strategy turns program returned
    obtain ⟨last, reached⟩ := exists_returns_of_synthesize returned
    have ends := (returns_iff unhurried).mp reached
    obtain ⟨final, _, widened⟩ := ends.widen (follows_enlarges ctx) within nofun _
      (enlarges_start ctx.grammar strategy larger)
    obtain ⟨more, found⟩ := (returns_iff alsoUnhurried).mpr widened
    exact ⟨more, congrArg Prod.fst found⟩

theorem letters_resumed :
    let narrow : Limits := { maxSteps := some 2 }
    let fresh : Search String := start Bank.letterGrammar .topDown narrow
    let first : Program := ⟨.leaf ⟨0⟩, rfl⟩
    let second : Program := ⟨.leaf ⟨1⟩, rfl⟩
    (Returns (Bank.letters "a") narrow fresh (.ok (.program first))
        ((advance (Bank.letters "a"))^[2] fresh) ∧
      Returns (Bank.letters "a") {} fresh (.ok (.program first))
        ((advance (Bank.letters "a"))^[2] fresh)) ∧
    (Returns (Bank.letters "b") narrow fresh (.ok .notFound)
        ((advance (Bank.letters "b"))^[2] fresh) ∧
      Returns (Bank.letters "b") {} ((advance (Bank.letters "b"))^[2] fresh)
        (.ok (.program second)) ((advance (Bank.letters "b"))^[3] fresh)) ∧
    ∃ more, synthesize (Bank.letters "a") .topDown {} more = some (.ok (.program first)) := by
  intro narrow fresh first second
  have within : narrow.StepsWithin {} := nofun
  obtain ⟨widened, -, -, found⟩ := limits_cut_short (Bank.letters "a") narrow {} rfl rfl within
  obtain ⟨-, resumed, -, -⟩ := limits_cut_short (Bank.letters "b") narrow {} rfl rfl within
  have returned : Returns (Bank.letters "a") narrow fresh (.ok (.program first))
      ((advance (Bank.letters "a"))^[2] fresh) := ⟨2, rfl⟩
  have missed : Returns (Bank.letters "b") narrow fresh (.ok .notFound)
      ((advance (Bank.letters "b"))^[2] fresh) := ⟨3, rfl⟩
  have whole : Returns (Bank.letters "b") {} fresh (.ok (.program second))
      ((advance (Bank.letters "b"))^[3] fresh) := ⟨3, rfl⟩
  exact ⟨⟨returned, widened _ _ _ returned nofun⟩,
    ⟨missed, (resumed _ _ missed _ _).mpr whole⟩, found (Nat.le_refl _) .topDown 2 first rfl⟩

end Search

end ByExample
