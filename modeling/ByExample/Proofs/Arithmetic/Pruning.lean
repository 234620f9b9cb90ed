import ByExample.Proofs.Arithmetic.Congruence
import ByExample.Proofs.Arithmetic.Reading
import ByExample.Proofs.Coverage

/-!
The growing search over arithmetic may prune: exchanging the arguments of an operator for trees of
their classes changes no signature (`compositional`). So the bank stands for the whole language
(`bank_represents_language`).
-/

namespace ByExample.Arithmetic

namespace Table

variable (table : Table) (environment : Environment)

def context (grammar : Grammar) (examples : List (Example Environment Int64)) :
    Context Environment Int64 :=
  { grammar, examples, semantics := table.semantics }

theorem eq_of_views_agree (left right : Ending Value)
    (agree : (views left).1 = (views right).1 ∧ (views left).1 ≠ .fault ∨
      (views left).2 = (views right).2 ∧ (views left).2 ≠ .fault) : left = right := by
  rcases left with (_ | _) | _ | _ <;> rcases right with (_ | _) | _ | _ <;>
    simp_all [views, ending, Ending.bind, Value.toInt, Value.toBool, Except.mapError,
      Failure.toEvalError]

variable (grammar : Grammar) (examples : List (Example Environment Int64))

theorem ending_eq_of_alike (left right : Tree) (argument : Symbol)
    (alike : (table.context grammar examples).Alike left right argument)
    (given : Example Environment Int64) (member : given ∈ examples) :
    ending (table.value given.input left) = ending (table.value given.input right) := by
  cases argument with
  | terminal operator =>
    have same : left = right := alike
    rw [same]
  | category category =>
    obtain ⟨signature, leftSigned, rightSigned⟩ := alike
    have agree := (table.context grammar examples).outcome_agrees_of_signature category left right
      signature leftSigned rightSigned given member
    apply eq_of_views_agree
    rw [← table.outcome_eq_views, ← table.outcome_eq_views]
    exact agree

theorem compositional : (table.context grammar examples).Compositional := by
  intro production _ pairs signature alike signed
  refine (table.context grammar examples).signature_congr _ _ _ signature ?_ signed
  intro given member
  apply (table.outcome_eq_iff given.input _ _).mpr
  apply ending_value_congr
  rw [List.forall₂_map_left_iff, List.forall₂_map_right_iff, List.forall₂_same]
  intro pair among
  obtain ⟨argument, _, same⟩ := exists_of_forall₂_of_mem alike pair among
  exact table.ending_eq_of_alike grammar examples pair.1 pair.2 argument same given member

/-- After `rounds` rounds without a fault, no program of at most `rounds` nodes faults on an example.
Of its category and signature the bank has exactly one tree, which is no larger; and the bank has no
other trees than such programs. -/
theorem bank_represents_language (maxSize rounds : Nat) (within : rounds ≤ maxSize)
    (clean : ∀ earlier < rounds, ∃ report,
      ((Bank.after (table.context grammar examples) maxSize earlier).step
        (table.context grammar examples)).1 = .ok report)
    (category : Category) :
    let ctx := table.context grammar examples
    let bank := Bank.after ctx maxSize rounds
    (∀ tree, grammar.Generates category tree → tree.size ≤ rounds →
      ∃ signature, ctx.signature category tree = .ok signature ∧
        ∃ kept ∈ bank.componentsOf category,
          ctx.signature category kept = .ok signature ∧ kept.size ≤ tree.size ∧
          ∀ other ∈ bank.componentsOf category,
            ctx.signature category other = .ok signature → other = kept) ∧
    (bank.componentsOf category).Nodup ∧
    ∀ kept ∈ bank.componentsOf category,
      grammar.Generates category kept ∧ kept.size ≤ rounds := by
  intro ctx bank
  have consistent : bank.Consistent ctx := Bank.consistent_after ctx maxSize rounds
  obtain ⟨size, represents⟩ := Bank.represents_after
    (table.compositional grammar examples) maxSize rounds within clean
  refine ⟨?_, consistent.nodup_componentsOf category, ?_⟩
  · intro tree generated bounded
    obtain ⟨signature, signed, kept, member, same, smaller⟩ :=
      represents category tree generated bounded
    refine ⟨signature, signed, kept, member, same, smaller, ?_⟩
    intro other among otherSigned
    exact consistent.eq_of_signature_eq category other kept signature among member otherSigned same
  · intro kept member
    obtain ⟨generated, bounded⟩ := consistent.of_mem_componentsOf category kept member
    exact ⟨generated, size ▸ bounded⟩

end Table

def sumGrammar : Grammar where
  terminals := .ofList ["x", "1", "add"]
  categories := .ofList ["E"]
  productions :=
    [⟨⟨0⟩, ⟨0⟩, []⟩, ⟨⟨0⟩, ⟨1⟩, []⟩, ⟨⟨0⟩, ⟨2⟩, [.category ⟨0⟩, .category ⟨0⟩]⟩]
  start := ⟨0⟩
  wellFormed := (Draft.fault?_eq_none _ _).mp (by decide)

def sumTable : Table where
  operators := #[("x", .parameter), ("1", .literal 1), ("add", .calculate .add)]
  predicates := #[false]

def sumContext (input output : Int64) : Context Environment Int64 :=
  sumTable.context sumGrammar [⟨.ofList [("x", input)], output⟩]

theorem exists_int_of_sum (environment : Environment) (x : Int64)
    (bound : environment.get? "x" = some x) (category : Category) (tree : Tree)
    (generated : sumGrammar.Generates category tree) :
    ∃ value, sumTable.value environment tree = .ok (.int value) := by
  induction tree using Tree.induction generalizing category with
  | hole other => cases generated.complete
  | node operator children ih =>
    obtain ⟨production, member, _, rfl, ⟨⟩, supplied⟩ := generated.exists_production
    simp only [sumGrammar, List.mem_cons, List.not_mem_nil, or_false] at member
    rcases member with rfl | rfl | rfl
    · cases supplied
      refine ⟨x, ?_⟩
      simp [Table.value, Table.values, sumTable, Operator.combine, Operator.ofNone, bound]
    · cases supplied
      exact ⟨1, rfl⟩
    · obtain _ | ⟨left, _ | ⟨right, _ | _⟩⟩ := supplied
      obtain ⟨first, leftValue⟩ := ih _ (by simp) _ left
      obtain ⟨second, rightValue⟩ := ih _ (by simp) _ right
      refine ⟨first + second, ?_⟩
      rw [Table.value, Table.values_eq_map]
      simp only [List.map_cons, List.map_nil, leftValue, rightValue]
      rfl

theorem exists_signature_of_sum (input output : Int64) (category : Category) (tree : Tree)
    (generated : sumGrammar.Generates category tree) :
    ∃ signature, (sumContext input output).signature category tree = .ok signature := by
  obtain ⟨value, evaluated⟩ := exists_int_of_sum (.ofList [("x", input)]) input
    (by simp [Environment.ofList]) category tree generated
  refine ⟨.primary [some value], ?_⟩
  apply (Context.signature_eq_primary_iff _ _ _ _).mpr
  refine ⟨?_, .cons ?_ .nil⟩
  · rcases category with ⟨_ | _⟩ <;> rfl
  · exact congrArg Ending.ofResult ((sumTable.evaluate_eq_ok_iff tree _ value).mpr evaluated).symm

theorem sums_represented :
    (∀ earlier < 3, ∃ report,
      ((Bank.after (sumContext 3 4) 3 earlier).step (sumContext 3 4)).1 = .ok report) ∧
    ∃ kept ∈ (Bank.after (sumContext 3 4) 3 3).componentsOf ⟨0⟩,
      (sumContext 3 4).signature ⟨0⟩ kept = .ok (.primary [some 4]) ∧ kept.size ≤ 3 := by
  have clean : ∀ earlier < 3, ∃ report,
      ((Bank.after (sumContext 3 4) 3 earlier).step (sumContext 3 4)).1 = .ok report := by
    intro earlier _
    exact (Bank.consistent_after (sumContext 3 4) 3 earlier).exists_report
      (exists_signature_of_sum 3 4)
  obtain ⟨represented, _, _⟩ :=
    sumTable.bank_represents_language sumGrammar _ 3 3 (by decide) clean ⟨0⟩
  obtain ⟨signature, signed, kept, member, same, smaller, _⟩ :=
    represented (.node ⟨2⟩ [.leaf ⟨0⟩, .leaf ⟨1⟩]) ⟨⟨rfl, rfl⟩, rfl⟩ (by decide)
  have value : (sumContext 3 4).signature ⟨0⟩ (.node ⟨2⟩ [.leaf ⟨0⟩, .leaf ⟨1⟩]) =
      .ok (.primary [some 4]) := by rfl
  cases signed.symm.trans value
  exact ⟨clean, kept, member, same, smaller⟩

end ByExample.Arithmetic
