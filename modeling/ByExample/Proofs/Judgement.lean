import ByExample.Proofs.Arithmetic.Pruning

/-!
The check and the signature of a tree, compared. The check stops at the first example on which the
tree misses the wanted output (`check_eq_false_iff`), the signature at the first one on which it
faults (`outcomes_eq_error_iff`). So they disagree only where a miss comes before the first fault
(`check_agrees_with_signature`).
-/

namespace ByExample

variable {α ι ο : Type}

/-- Compares the values with the expected outputs pair by pair, up to the first pair that differs or
up to where one of the two has no more. -/
def agreesInStep [DecidableEq ο] : List (Option ο) → List ο → Bool
  | [], expected => expected.isEmpty
  | some value :: values, output :: expected => value = output && agreesInStep values expected
  | _ :: _, _ => false

theorem agreesInStep_iff [DecidableEq ο] (values : List (Option ο)) (expected : List ο) :
    agreesInStep values expected = true ↔ values = expected.map some := by
  induction values generalizing expected with
  | nil => cases expected <;> simp [agreesInStep]
  | cons value values ih => cases value <;> cases expected <;> simp [agreesInStep, ih]

namespace Context

def Faultless (run : ι → Except EvalError α) (examples : List (Example ι ο)) : Prop :=
  ∀ given ∈ examples, ∀ reason, run given.input ≠ .error (.fault reason)

theorem faultless_nil (run : ι → Except EvalError α) :
    Faultless run ([] : List (Example ι ο)) := by
  simp [Faultless]

@[simp] theorem faultless_cons_iff (run : ι → Except EvalError α) (first : Example ι ο)
    (rest : List (Example ι ο)) :
    Faultless run (first :: rest) ↔
      (∀ reason, run first.input ≠ .error (.fault reason)) ∧ Faultless run rest := by
  simp [Faultless]

theorem outcomes_of_faultless (run : ι → Except EvalError α) (before after : List (Example ι ο))
    (error : SearchError) (faultless : Faultless run before)
    (failed : outcomes run after = .error error) :
    outcomes run (before ++ after) = .error error := by
  induction before with
  | nil => exact failed
  | cons first before ih =>
    obtain ⟨fine, others⟩ := (faultless_cons_iff run first before).mp faultless
    rcases result : run first.input with (reason | reason) | value
    · simp only [List.cons_append, outcomes, result, ih others, Except.map]
    · exact absurd result (fine reason)
    · simp only [List.cons_append, outcomes, result, ih others, Except.map]

theorem outcomes_eq_error_iff (run : ι → Except EvalError α) (examples : List (Example ι ο))
    (error : SearchError) :
    outcomes run examples = .error error ↔
      ∃ before faulty after reason, examples = before ++ faulty :: after ∧ Faultless run before ∧
        run faulty.input = .error (.fault reason) ∧ error = .evaluation (.fault reason) := by
  constructor
  · intro failed
    induction examples with
    | nil => cases failed
    | cons first rest ih =>
      by_cases fault : ∃ reason, run first.input = .error (.fault reason)
      · obtain ⟨reason, result⟩ := fault
        simp only [outcomes, result, Except.error.injEq] at failed
        exact ⟨[], first, rest, reason, rfl, faultless_nil run, result, failed.symm⟩
      · have fine (reason : String) : run first.input ≠ .error (.fault reason) :=
          fun result => fault ⟨reason, result⟩
        have rejoined : outcomes run rest = .error error := by
          rcases result : run first.input with (reason | reason) | value
          · simpa only [outcomes, result, map_eq_error_iff] using failed
          · exact absurd result (fine reason)
          · simpa only [outcomes, result, map_eq_error_iff] using failed
        obtain ⟨before, faulty, after, reason, rfl, faultless, found⟩ := ih rejoined
        exact ⟨first :: before, faulty, after, reason, rfl,
          (faultless_cons_iff run first before).mpr ⟨fine, faultless⟩, found⟩
  · rintro ⟨before, faulty, after, reason, rfl, faultless, fault, rfl⟩
    exact outcomes_of_faultless run before _ _ faultless (by simp [outcomes, fault])

variable (ctx : Context ι ο)

/-- The tree is rejected on the example, or it has another output than the wanted one. -/
inductive Misses (tree : Tree) (given : Example ι ο) : Prop where
  | rejected (reason : String)
      (rejected : ctx.semantics.evaluate tree given.input = .error (.rejected reason))
  | mismatched (output : ο) (evaluated : ctx.semantics.evaluate tree given.input = .ok output)
      (different : output ≠ given.output)

variable {ctx}

theorem Misses.not_fault {tree : Tree} {given : Example ι ο} (misses : ctx.Misses tree given)
    (reason : String) : ctx.semantics.evaluate tree given.input ≠ .error (.fault reason) := by
  intro fault
  cases misses with
  | rejected _ rejected => cases rejected.symm.trans fault
  | mismatched _ evaluated _ => cases evaluated.symm.trans fault

variable [DecidableEq ο] (ctx) (tree : Tree)

theorem outcomes_of_check_error (error : SearchError) (failed : ctx.check tree = .error error) :
    outcomes (ctx.semantics.evaluate tree) ctx.examples = .error error := by
  have faulted (examples : List (Example ι ο))
      (failed : reproduces ctx.semantics tree examples = .error error) :
      outcomes (ctx.semantics.evaluate tree) examples = .error error := by
    induction examples with
    | nil => cases failed
    | cons first rest ih =>
      rcases result : ctx.semantics.evaluate tree first.input with (reason | reason) | value
      · simp [reproduces, result] at failed
      · simp only [reproduces, result, Except.error.injEq] at failed
        simp only [outcomes, result, failed]
      · by_cases same : value = first.output
        · simp only [reproduces, result, same, ↓reduceIte] at failed
          simp only [outcomes, result, ih failed, Except.map]
        · simp [reproduces, result, same] at failed
  exact faulted ctx.examples failed

theorem reproduces_of_misses (before after : List (Example ι ο)) (given : Example ι ο)
    (faultless : Faultless (ctx.semantics.evaluate tree) before) (misses : ctx.Misses tree given) :
    reproduces ctx.semantics tree (before ++ given :: after) = .ok false := by
  induction before with
  | nil =>
    cases misses with
    | rejected reason rejected => simp [reproduces, rejected]
    | mismatched output evaluated different => simp [reproduces, evaluated, different]
  | cons first before ih =>
    obtain ⟨fine, others⟩ := (faultless_cons_iff _ first before).mp faultless
    rcases result : ctx.semantics.evaluate tree first.input with (reason | reason) | value
    · simp [reproduces, result]
    · exact absurd result (fine reason)
    · by_cases same : value = first.output <;> simp [reproduces, result, same, ih others]

theorem check_eq_false_iff :
    ctx.check tree = .ok false ↔
      ∃ before given after, ctx.examples = before ++ given :: after ∧
        Faultless (ctx.semantics.evaluate tree) before ∧ ctx.Misses tree given := by
  constructor
  · have missed (examples : List (Example ι ο))
        (refuted : reproduces ctx.semantics tree examples = .ok false) :
        ∃ before given after, examples = before ++ given :: after ∧
          Faultless (ctx.semantics.evaluate tree) before ∧ ctx.Misses tree given := by
      induction examples with
      | nil => cases refuted
      | cons first rest ih =>
        rcases result : ctx.semantics.evaluate tree first.input with (reason | reason) | value
        · exact ⟨[], first, rest, rfl, faultless_nil _, .rejected reason result⟩
        · simp [reproduces, result] at refuted
        · by_cases same : value = first.output
          · simp only [reproduces, result, same, ↓reduceIte] at refuted
            obtain ⟨before, given, after, rfl, faultless, misses⟩ := ih refuted
            exact ⟨first :: before, given, after, rfl, by simp [result, faultless], misses⟩
          · exact ⟨[], first, rest, rfl, faultless_nil _, .mismatched value result same⟩
    exact missed ctx.examples
  · rintro ⟨before, given, after, split, faultless, misses⟩
    rw [check, split]
    exact ctx.reproduces_of_misses tree before after given faultless misses

theorem check_eq_false_and_fault_iff :
    (ctx.check tree = .ok false ∧
      ∃ error, outcomes (ctx.semantics.evaluate tree) ctx.examples = .error error) ↔
    ∃ before given between faulty after reason,
      ctx.examples = before ++ given :: (between ++ faulty :: after) ∧ ctx.Misses tree given ∧
      Faultless (ctx.semantics.evaluate tree) (before ++ given :: between) ∧
      ctx.semantics.evaluate tree faulty.input = .error (.fault reason) := by
  simp only [check_eq_false_iff, outcomes_eq_error_iff]
  constructor
  · rintro ⟨⟨before, given, after, split, faultless, misses⟩,
      _, sound, faulty, rest, reason, alsoSplit, noneBefore, fault, _⟩
    -- Either of the two examples may come first in the list, but no fault comes before the miss.
    rcases List.append_eq_append_iff.mp (split.symm.trans alsoSplit) with
      ⟨between, rfl, joined⟩ | ⟨between, rfl, joined⟩
    · rcases between with _ | ⟨first, between⟩
      · cases joined
        exact absurd fault (misses.not_fault reason)
      · cases joined
        exact ⟨before, given, between, faulty, rest, reason, split, misses, noneBefore, fault⟩
    · rcases between with _ | ⟨first, between⟩
      · cases joined
        exact absurd fault (misses.not_fault reason)
      · cases joined
        exact absurd fault (faultless faulty (by simp) reason)
  · rintro ⟨before, given, between, faulty, after, reason, split, misses, faultless, fault⟩
    have early : Faultless (ctx.semantics.evaluate tree) before :=
      fun earlier member => faultless earlier (List.mem_append_left _ member)
    exact ⟨⟨before, given, _, split, early, misses⟩,
      _, before ++ given :: between, faulty, after, reason, by simp [split], faultless, fault, rfl⟩

variable (category : Category)

/-- The check and the signature of a tree in a category that is no predicate category. Where there
is a signature, the check says whether it is the list of the expected outputs, as a comparison in
step would; an error of the check is the error of the signature; and a tree checked as correct has a
signature that agrees. So if they disagree, the check says no where there is no signature, and that
happens exactly where a miss comes before the first fault. -/
theorem check_agrees_with_signature (primary : ctx.semantics.isPredicate category = false) :
    (∀ signature, ctx.signature category tree = .ok signature →
      ctx.check tree = .ok (signature.agrees ctx.expected)) ∧
    (∀ signature : Signature ο,
      signature.agrees ctx.expected = true ↔ signature = .primary (ctx.expected.map some)) ∧
    (∀ values, (Signature.primary values).agrees ctx.expected = agreesInStep values ctx.expected) ∧
    (∀ error, ctx.check tree = .error error → ctx.signature category tree = .error error) ∧
    (∀ error, ctx.signature category tree = .error error →
      ctx.check tree = .error error ∨ ctx.check tree = .ok false) ∧
    (ctx.check tree = .ok true → ∃ signature, ctx.signature category tree = .ok signature ∧
      signature.agrees ctx.expected = true) ∧
    ((ctx.check tree = .ok false ∧ ∃ error, ctx.signature category tree = .error error) ↔
      ∃ before given between faulty after reason,
        ctx.examples = before ++ given :: (between ++ faulty :: after) ∧ ctx.Misses tree given ∧
        Faultless (ctx.semantics.evaluate tree) (before ++ given :: between) ∧
        ctx.semantics.evaluate tree faulty.input = .error (.fault reason)) := by
  have accepted := ctx.signature_eq_expected_iff category tree
  have failing (error : SearchError) (failed : ctx.check tree = .error error) :
      ctx.signature category tree = .error error := by
    simp [signature, primary, map_eq_error_iff, ctx.outcomes_of_check_error tree error failed]
  refine ⟨?_, ctx.agrees_iff, ?_, failing, ?_, ?_, ?_⟩
  · intro signature signed
    cases checked : ctx.check tree with
    | error error =>
      exact absurd checked
        (ctx.check_ne_error_of_signature category tree signature primary signed error)
    | ok correct =>
      rw [Except.ok.injEq, Bool.eq_iff_iff, agrees_iff]
      rw [signed, Except.ok.injEq, checked, Except.ok.injEq] at accepted
      simp [accepted, primary]
  · intro values
    rw [Bool.eq_iff_iff, agrees_iff, Signature.primary.injEq, agreesInStep_iff]
  · intro error unsigned
    rcases checked : ctx.check tree with other | _ | _
    · cases unsigned.symm.trans (failing other checked)
      exact Or.inl rfl
    · exact Or.inr rfl
    · cases unsigned.symm.trans (accepted.mpr ⟨primary, checked⟩)
  · intro checked
    exact ⟨_, accepted.mpr ⟨primary, checked⟩, (ctx.agrees_iff _).mpr rfl⟩
  · simp only [signature, primary, Bool.false_eq_true, ↓reduceIte, map_eq_error_iff]
    exact ctx.check_eq_false_and_fault_iff tree

end Context

open Arithmetic in
/-- The variable has the wrong value on the first example and none on the second. -/
theorem check_passes_over_unbound :
    let ctx := sumTable.context sumGrammar [⟨.ofList [("x", 3)], 4⟩, ⟨.empty, 4⟩]
    ctx.semantics.isPredicate ⟨0⟩ = false ∧ ctx.check (.leaf ⟨0⟩) = .ok false ∧
      ∃ error, ctx.signature ⟨0⟩ (.leaf ⟨0⟩) = .error error := by
  intro ctx
  have primary : ctx.semantics.isPredicate ⟨0⟩ = false := by rfl
  obtain ⟨-, -, -, -, -, -, disagreement⟩ :=
    ctx.check_agrees_with_signature (.leaf ⟨0⟩) ⟨0⟩ primary
  refine ⟨primary, disagreement.mpr ⟨[], _, [], _, [], "unbound variable `x`", rfl, ?_, ?_, rfl⟩⟩
  · exact .mismatched 3 rfl (by decide)
  · intro earlier member reason
    rw [List.mem_singleton.mp member]
    nofun

end ByExample
