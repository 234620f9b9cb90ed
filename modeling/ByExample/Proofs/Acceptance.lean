import ByExample.Equivalence.Classes
import ByExample.Proofs.Language
import ByExample.Proofs.Outcome

/-!
Two tests of a tree against the examples: the check, which stops at the first mismatch, and the
signature. Off the predicate categories they accept the same trees (`signature_eq_expected_iff`),
and nothing but a fault of the evaluation makes either of them fail (`Faults`). A signature depends
on nothing but the outcomes of its tree (`signature_congr`).
-/

namespace ByExample

variable {α β ε ι ο : Type}

theorem map_eq_ok_iff (f : α → β) (result : Except ε α) (value : β) :
    result.map f = .ok value ↔ ∃ inner, result = .ok inner ∧ f inner = value := by
  cases result <;> simp [Except.map]

theorem map_eq_error_iff (f : α → β) (result : Except ε α) (error : ε) :
    result.map f = .error error ↔ result = .error error := by
  cases result <;> simp [Except.map]

namespace Ending

def ofEntry : Option α → Ending α
  | some result => .value result
  | none => .rejected

@[simp] theorem ofEntry_eq_value_iff (entry : Option α) (value : α) :
    ofEntry entry = .value value ↔ entry = some value := by
  cases entry <;> simp [ofEntry]

@[simp] theorem ofEntry_eq_rejected_iff (entry : Option α) :
    ofEntry entry = .rejected ↔ entry = none := by
  cases entry <;> simp [ofEntry]

@[simp] theorem ofEntry_ne_fault (entry : Option α) : ofEntry entry ≠ .fault := by
  cases entry <;> nofun

@[simp] theorem ofResult_eq_value_iff (result : Except EvalError α) (value : α) :
    ofResult result = .value value ↔ result = .ok value := by
  rcases result with (_ | _) | _ <;> simp [ofResult]

end Ending

namespace Context

variable (ctx : Context ι ο)

/-- The entries record how the run ended on each of the examples. -/
def Records (run : ι → Except EvalError α) (entries : List (Option α))
    (examples : List (Example ι ο)) : Prop :=
  List.Forall₂ (fun entry given => Ending.ofEntry entry = Ending.ofResult (run given.input))
    entries examples

theorem Records.congr_run {run other : ι → Except EvalError α} {entries : List (Option α)}
    {examples : List (Example ι ο)} (recorded : Records run entries examples)
    (same : ∀ given ∈ examples,
      Ending.ofResult (run given.input) = Ending.ofResult (other given.input)) :
    Records other entries examples := by
  refine (forall₂_congr_of_mem fun given member entry => ?_).mp recorded
  rw [same given member]

theorem Records.ending_eq {run other : ι → Except EvalError α} {entries : List (Option α)}
    {examples : List (Example ι ο)} (recorded : Records run entries examples)
    (otherRecorded : Records other entries examples) (given : Example ι ο)
    (member : given ∈ examples) :
    Ending.ofResult (run given.input) = Ending.ofResult (other given.input) ∧
      Ending.ofResult (run given.input) ≠ .fault := by
  induction recorded with
  | nil => cases member
  | @cons entry first _ _ same _ ih =>
    obtain _ | ⟨otherSame, otherRest⟩ := otherRecorded
    rcases List.mem_cons.mp member with rfl | later
    · exact ⟨same.symm.trans otherSame, same ▸ Ending.ofEntry_ne_fault entry⟩
    · exact ih otherRest later

theorem outcomes_eq_ok_iff (run : ι → Except EvalError α) (examples : List (Example ι ο))
    (entries : List (Option α)) :
    outcomes run examples = .ok entries ↔ Records run entries examples := by
  induction examples generalizing entries with
  | nil => simp [outcomes, Records, eq_comm]
  | cons first rest ih =>
    simp only [Records, List.forall₂_cons_right_iff] at ih ⊢
    rcases result : run first.input with (reason | reason) | value
    · simp [outcomes, result, map_eq_ok_iff, ih, @eq_comm _ entries]
    · simp [outcomes, result]
    · simp [outcomes, result, map_eq_ok_iff, ih, @eq_comm _ entries]

theorem exists_fault_of_outcomes (run : ι → Except EvalError α) (examples : List (Example ι ο))
    (error : SearchError) (failed : outcomes run examples = .error error) :
    ∃ given ∈ examples, ∃ reason, run given.input = .error (.fault reason) ∧
      error = .evaluation (.fault reason) := by
  induction examples with
  | nil => cases failed
  | cons first rest ih =>
    have later (rejoined : outcomes run rest = .error error) :
        ∃ given ∈ first :: rest, ∃ reason, run given.input = .error (.fault reason) ∧
          error = .evaluation (.fault reason) := by
      obtain ⟨given, member, fault⟩ := ih rejoined
      exact ⟨given, List.mem_cons_of_mem first member, fault⟩
    rcases result : run first.input with (reason | reason) | value
    · simp only [outcomes, result, map_eq_error_iff] at failed
      exact later failed
    · simp only [outcomes, result, Except.error.injEq] at failed
      exact ⟨first, List.mem_cons_self, reason, result, failed.symm⟩
    · simp only [outcomes, result, map_eq_error_iff] at failed
      exact later failed

/-- The errors that the language brings about: a program faults on an example, in an evaluation that
a search makes of the programs of its category. -/
inductive Faults : SearchError → Prop where
  | primary {category : Category} {tree : Tree} {given : Example ι ο} {reason : String}
      (generated : ctx.grammar.Generates category tree) (member : given ∈ ctx.examples)
      (kind : ctx.semantics.isPredicate category = false ∨ category = ctx.grammar.start)
      (fault : ctx.semantics.evaluate tree given.input = .error (.fault reason)) :
      Faults (.evaluation (.fault reason))
  | predicate {category : Category} {tree : Tree} {given : Example ι ο} {reason : String}
      (generated : ctx.grammar.Generates category tree) (member : given ∈ ctx.examples)
      (kind : ctx.semantics.isPredicate category = true)
      (fault : ctx.semantics.evaluatePredicate tree given.input = .error (.fault reason)) :
      Faults (.evaluation (.fault reason))

theorem faults_of_signature {category : Category} {tree : Tree}
    (generated : ctx.grammar.Generates category tree) (error : SearchError)
    (failed : ctx.signature category tree = .error error) : ctx.Faults error := by
  cases kind : ctx.semantics.isPredicate category with
  | true =>
    simp only [signature, kind, ↓reduceIte, map_eq_error_iff] at failed
    obtain ⟨given, member, reason, fault, rfl⟩ := exists_fault_of_outcomes _ _ error failed
    exact .predicate generated member kind fault
  | false =>
    simp only [signature, kind, Bool.false_eq_true, ↓reduceIte, map_eq_error_iff] at failed
    obtain ⟨given, member, reason, fault, rfl⟩ := exists_fault_of_outcomes _ _ error failed
    exact .primary generated member (Or.inl kind) fault

theorem signature_eq_primary_iff (category : Category) (tree : Tree) (entries : List (Option ο)) :
    ctx.signature category tree = .ok (.primary entries) ↔
      ctx.semantics.isPredicate category = false ∧
        Records (ctx.semantics.evaluate tree) entries ctx.examples := by
  cases kind : ctx.semantics.isPredicate category <;>
    simp [signature, kind, map_eq_ok_iff, outcomes_eq_ok_iff]

theorem signature_eq_predicate_iff (category : Category) (tree : Tree)
    (entries : List (Option Bool)) :
    ctx.signature category tree = .ok (.predicate entries) ↔
      ctx.semantics.isPredicate category = true ∧
        Records (ctx.semantics.evaluatePredicate tree) entries ctx.examples := by
  cases kind : ctx.semantics.isPredicate category <;>
    simp [signature, kind, map_eq_ok_iff, outcomes_eq_ok_iff]

theorem classOf_eq_ok_iff {category : Category} {tree : Tree}
    (generated : ctx.grammar.Generates category tree) (other : Category)
    (signature : Signature ο) :
    ctx.classOf tree = .ok (other, signature) ↔
      category = other ∧ ctx.signature category tree = .ok signature := by
  simp [classOf, generated.typed, map_eq_ok_iff, and_comm]

theorem signature_congr (category : Category) (left right : Tree) (signature : Signature ο)
    (same : ∀ given ∈ ctx.examples,
      ctx.semantics.outcome left given.input = ctx.semantics.outcome right given.input)
    (signed : ctx.signature category left = .ok signature) :
    ctx.signature category right = .ok signature := by
  cases signature with
  | primary entries =>
    obtain ⟨kind, recorded⟩ := (ctx.signature_eq_primary_iff category left entries).mp signed
    have kept := recorded.congr_run fun given member => congrArg Prod.fst (same given member)
    exact (ctx.signature_eq_primary_iff category right entries).mpr ⟨kind, kept⟩
  | predicate entries =>
    obtain ⟨kind, recorded⟩ := (ctx.signature_eq_predicate_iff category left entries).mp signed
    have kept := recorded.congr_run fun given member => congrArg Prod.snd (same given member)
    exact (ctx.signature_eq_predicate_iff category right entries).mpr ⟨kind, kept⟩

theorem outcome_agrees_of_signature (category : Category) (left right : Tree)
    (signature : Signature ο) (leftSigned : ctx.signature category left = .ok signature)
    (rightSigned : ctx.signature category right = .ok signature) (given : Example ι ο)
    (member : given ∈ ctx.examples) :
    let leftOutcome := ctx.semantics.outcome left given.input
    let rightOutcome := ctx.semantics.outcome right given.input
    leftOutcome.1 = rightOutcome.1 ∧ leftOutcome.1 ≠ .fault ∨
      leftOutcome.2 = rightOutcome.2 ∧ leftOutcome.2 ≠ .fault := by
  cases signature with
  | primary entries =>
    obtain ⟨_, recorded⟩ := (ctx.signature_eq_primary_iff category left entries).mp leftSigned
    obtain ⟨_, alike⟩ := (ctx.signature_eq_primary_iff category right entries).mp rightSigned
    exact Or.inl (recorded.ending_eq alike given member)
  | predicate entries =>
    obtain ⟨_, recorded⟩ := (ctx.signature_eq_predicate_iff category left entries).mp leftSigned
    obtain ⟨_, alike⟩ := (ctx.signature_eq_predicate_iff category right entries).mp rightSigned
    exact Or.inr (recorded.ending_eq alike given member)

variable [DecidableEq ο]

theorem check_congr {ctx other : Context ι ο} {tree image : Tree}
    (examples : other.examples = ctx.examples)
    (evaluate : other.semantics.evaluate image = ctx.semantics.evaluate tree) :
    other.check image = ctx.check tree := by
  have judged (examples : List (Example ι ο)) :
      reproduces other.semantics image examples = reproduces ctx.semantics tree examples := by
    induction examples with
    | nil => rfl
    | cons first rest ih => simp only [reproduces, evaluate, ih]
  rw [check, check, examples, judged]

theorem check_eq_true_iff (tree : Tree) :
    ctx.check tree = .ok true ↔
      ∀ given ∈ ctx.examples, ctx.semantics.evaluate tree given.input = .ok given.output := by
  have settled (examples : List (Example ι ο)) :
      reproduces ctx.semantics tree examples = .ok true ↔
        ∀ given ∈ examples, ctx.semantics.evaluate tree given.input = .ok given.output := by
    induction examples with
    | nil => simp [reproduces]
    | cons first rest ih =>
      rcases result : ctx.semantics.evaluate tree first.input with (reason | reason) | value
      · simp [reproduces, result]
      · simp [reproduces, result]
      · by_cases same : value = first.output <;> simp [reproduces, result, same, ih]
  exact settled ctx.examples

theorem exists_fault_of_check (tree : Tree) (error : SearchError)
    (checked : ctx.check tree = .error error) :
    ∃ given ∈ ctx.examples, ∃ reason,
      ctx.semantics.evaluate tree given.input = .error (.fault reason) ∧
        error = .evaluation (.fault reason) := by
  have faulted (examples : List (Example ι ο))
      (failed : reproduces ctx.semantics tree examples = .error error) :
      ∃ given ∈ examples, ∃ reason,
        ctx.semantics.evaluate tree given.input = .error (.fault reason) ∧
          error = .evaluation (.fault reason) := by
    induction examples with
    | nil => cases failed
    | cons first rest ih =>
      rcases result : ctx.semantics.evaluate tree first.input with (reason | reason) | value
      · simp [reproduces, result] at failed
      · simp only [reproduces, result, Except.error.injEq] at failed
        exact ⟨first, List.mem_cons_self, reason, result, failed.symm⟩
      · by_cases same : value = first.output
        · obtain ⟨given, member, fault⟩ :=
            ih (by simpa [reproduces, result, same] using failed)
          exact ⟨given, List.mem_cons_of_mem first member, fault⟩
        · simp [reproduces, result, same] at failed
  exact faulted ctx.examples checked

theorem faults_of_check {tree : Tree} (generated : ctx.grammar.Generates ctx.grammar.start tree)
    (error : SearchError) (checked : ctx.check tree = .error error) : ctx.Faults error := by
  obtain ⟨given, member, reason, fault, rfl⟩ := ctx.exists_fault_of_check tree error checked
  exact .primary generated member (Or.inr rfl) fault

theorem check_ne_error_of_signature (category : Category) (tree : Tree) (signature : Signature ο)
    (primary : ctx.semantics.isPredicate category = false)
    (signed : ctx.signature category tree = .ok signature) (error : SearchError) :
    ctx.check tree ≠ .error error := by
  intro checked
  obtain ⟨given, member, reason, fault, _⟩ := ctx.exists_fault_of_check tree error checked
  cases signature with
  | primary entries =>
    obtain ⟨_, recorded⟩ := (ctx.signature_eq_primary_iff category tree entries).mp signed
    apply (recorded.ending_eq recorded given member).2
    rw [fault, Ending.ofResult_fault]
  | predicate entries =>
    have kind := ((ctx.signature_eq_predicate_iff category tree entries).mp signed).1
    cases primary.symm.trans kind

theorem agrees_iff (signature : Signature ο) :
    signature.agrees ctx.expected = true ↔ signature = .primary (ctx.expected.map some) := by
  cases signature <;> simp [Signature.agrees]

theorem signature_eq_expected_iff (category : Category) (tree : Tree) :
    ctx.signature category tree = .ok (.primary (ctx.expected.map some)) ↔
      ctx.semantics.isPredicate category = false ∧ ctx.check tree = .ok true := by
  rw [signature_eq_primary_iff, check_eq_true_iff]
  apply and_congr_right
  intro _
  rw [Records, expected, List.map_map, List.forall₂_map_left_iff, List.forall₂_same]
  simp [Ending.ofEntry, @eq_comm _ (Ending.value _)]

/-- A program that reproduces every example. -/
structure Solves (tree : Tree) : Prop where
  generated : ctx.grammar.Generates ctx.grammar.start tree
  checked : ctx.check tree = .ok true

end Context

end ByExample
