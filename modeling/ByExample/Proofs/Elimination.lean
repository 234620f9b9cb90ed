import ByExample.Proofs.Arithmetic.Pruning
import Mathlib.Data.List.Induction
import Mathlib.Data.List.Nodup

/-!
One tree per class. Of a list of trees exactly those are kept of which no earlier one is of the same
class (`eliminateEquivalents_eq`), unless some tree has no class. What is kept stands for the whole
list in every later elimination (`eliminateEquivalents_keeps_firsts`).
-/

namespace ByExample

section

variable {α κ : Type} [DecidableEq κ] (key : α → κ)

/-- The elements of which no earlier one has the same key. -/
def firstsBy (xs : List α) : List α :=
  (xs.zipIdx.filter fun entry => key entry.1 ∉ (xs.take entry.2).map key).map Prod.fst

theorem firstsBy_concat (xs : List α) (last : α) :
    firstsBy key (xs ++ [last]) =
      firstsBy key xs ++ if key last ∈ xs.map key then [] else [last] := by
  have before : (xs.zipIdx.filter fun entry =>
        key entry.1 ∉ ((xs ++ [last]).take entry.2).map key) =
      xs.zipIdx.filter fun entry => key entry.1 ∉ (xs.take entry.2).map key := by
    refine List.filter_congr fun entry member => ?_
    have inside := List.snd_lt_of_mem_zipIdx member
    rw [List.take_append_of_le_length (by omega)]
  rw [firstsBy, List.zipIdx_append, List.filter_append, List.map_append, before, ← firstsBy]
  congr 1
  by_cases old : key last ∈ xs.map key <;> simp [old]

theorem sublist_firstsBy (xs : List α) : (firstsBy key xs).Sublist xs := by
  have sub := (List.filter_sublist (l := xs.zipIdx)
    (p := fun entry => key entry.1 ∉ (xs.take entry.2).map key)).map Prod.fst
  rwa [List.zipIdx_map_fst] at sub

@[simp] theorem mem_map_firstsBy (xs : List α) (k : κ) :
    k ∈ (firstsBy key xs).map key ↔ k ∈ xs.map key := by
  induction xs using List.reverseRecOn with
  | nil => rfl
  | append_singleton xs last ih =>
    rw [firstsBy_concat, List.map_append, List.map_append, List.mem_append, List.mem_append, ih]
    by_cases old : key last ∈ xs.map key
    · simp only [old, ↓reduceIte, List.map_nil, List.not_mem_nil, or_false, List.map_cons,
        List.mem_singleton]
      exact (or_iff_left_of_imp fun same => same ▸ old).symm
    · simp [old]

theorem nodup_map_firstsBy (xs : List α) : ((firstsBy key xs).map key).Nodup := by
  induction xs using List.reverseRecOn with
  | nil => exact List.nodup_nil
  | append_singleton xs last ih =>
    rw [firstsBy_concat]
    by_cases old : key last ∈ xs.map key
    · simpa [old] using ih
    · rw [if_neg old, List.map_append, List.nodup_append]
      refine ⟨ih, List.nodup_singleton _, ?_⟩
      intro k member other single same
      rw [List.map_singleton, List.mem_singleton] at single
      rw [mem_map_firstsBy] at member
      exact old (single ▸ same ▸ member)

theorem firstsBy_of_nodup (xs : List α) (distinct : (xs.map key).Nodup) : firstsBy key xs = xs := by
  induction xs using List.reverseRecOn with
  | nil => rfl
  | append_singleton xs last ih =>
    rw [List.map_append, List.nodup_append] at distinct
    obtain ⟨before, _, apart⟩ := distinct
    have new : key last ∉ xs.map key := fun old => apart _ old _ (by simp) rfl
    rw [firstsBy_concat, ih before, if_neg new]

theorem firstsBy_append (xs ys : List α) :
    firstsBy key (firstsBy key xs ++ ys) = firstsBy key (xs ++ ys) := by
  induction ys using List.reverseRecOn with
  | nil =>
    rw [List.append_nil, List.append_nil]
    exact firstsBy_of_nodup key _ (nodup_map_firstsBy key xs)
  | append_singleton ys last ih =>
    have known : key last ∈ (firstsBy key xs ++ ys).map key ↔ key last ∈ (xs ++ ys).map key := by
      rw [List.map_append, List.map_append, List.mem_append, List.mem_append, mem_map_firstsBy]
    simp only [← List.append_assoc, firstsBy_concat, ih, known]

theorem existsUnique_firstsBy (xs : List α) (x : α) (member : x ∈ xs) :
    ∃! first, first ∈ firstsBy key xs ∧ key first = key x := by
  have known : key x ∈ (firstsBy key xs).map key :=
    (mem_map_firstsBy key xs _).mpr (List.mem_map_of_mem member)
  obtain ⟨first, kept, same⟩ := List.mem_map.mp known
  refine ⟨first, ⟨kept, same⟩, ?_⟩
  rintro other ⟨alsoKept, alsoSame⟩
  exact List.inj_on_of_nodup_map (nodup_map_firstsBy key xs) alsoKept kept
    (alsoSame.trans same.symm)

end

namespace Context

variable {ι ο : Type} (ctx : Context ι ο)

/-- The tree has no class: it has no type, or else no signature for its type. -/
inductive Unclassed (tree : Tree) : SearchError → Prop where
  | untyped {cause : GrammarError} (failed : ctx.grammar.typeOf tree = .error cause) :
      Unclassed tree (.grammar cause)
  | unsigned {category : Category} {error : SearchError}
      (typed : ctx.grammar.typeOf tree = .ok category)
      (failed : ctx.signature category tree = .error error) : Unclassed tree error

theorem unclassed_iff (tree : Tree) (error : SearchError) :
    ctx.Unclassed tree error ↔ ctx.classOf tree = .error error := by
  constructor
  · rintro (failed | ⟨typed, failed⟩)
    · simp [classOf, failed]
    · simp [classOf, typed, failed, Except.map]
  · intro failed
    cases typed : ctx.grammar.typeOf tree with
    | error cause =>
      simp only [classOf, typed, Except.error.injEq] at failed
      exact failed ▸ .untyped typed
    | ok category =>
      cases signed : ctx.signature category tree with
      | error cause =>
        simp only [classOf, typed, signed, Except.map, Except.error.injEq] at failed
        exact failed ▸ .unsigned typed signed
      | ok signature => simp [classOf, typed, signed, Except.map] at failed

def classFault? (tree : Tree) : Option SearchError :=
  match ctx.classOf tree with
  | .error error => some error
  | .ok _ => none

theorem classFault?_eq_some_iff (tree : Tree) (error : SearchError) :
    ctx.classFault? tree = some error ↔ ctx.Unclassed tree error := by
  rw [unclassed_iff]
  cases found : ctx.classOf tree <;> simp [classFault?, found]

theorem classFault?_eq_none_iff (tree : Tree) :
    ctx.classFault? tree = none ↔ ∃ key, ctx.classOf tree = .ok key := by
  cases found : ctx.classOf tree <;> simp [classFault?, found]

variable [DecidableEq ο] [Hashable ο]

/-- The classes met are those of the trees dealt with. From there on the first tree without a class
ends the elimination, and if there is none, the rest keeps what is first in the whole. -/
theorem keepNew_cases (classes : Classes ο) (earlier trees : List Tree)
    (met : ∀ key, key ∈ classes.seen ↔ .ok key ∈ earlier.map ctx.classOf) :
    (∃ error, trees.findSome? ctx.classFault? = some error ∧
      ctx.keepNew classes trees = .error error) ∨
    trees.findSome? ctx.classFault? = none ∧
      ∃ kept, ctx.keepNew classes trees = .ok kept ∧
        firstsBy ctx.classOf (earlier ++ trees) = firstsBy ctx.classOf earlier ++ kept := by
  induction trees generalizing classes earlier with
  | nil => exact Or.inr ⟨rfl, [], rfl, by simp⟩
  | cons tree rest ih =>
    cases found : ctx.classOf tree with
    | error error =>
      exact Or.inl ⟨error, by simp [classFault?, found], by simp [keepNew, found]⟩
    | ok key =>
      obtain ⟨category, signature⟩ := key
      have new := classes.insert_fst category signature
      have next : ∀ key, key ∈ (classes.insert category signature).2.seen ↔
          .ok key ∈ (earlier ++ [tree]).map ctx.classOf := by
        intro key
        simp only [Classes.mem_insert_snd, met key, List.map_append, List.mem_append,
          List.map_singleton, List.mem_singleton, found, Except.ok.injEq]
        exact or_comm
      have classed : ctx.classFault? tree = none := by simp [classFault?, found]
      have first := firstsBy_concat ctx.classOf earlier tree
      rw [met, ← found] at new
      have later := ih (classes.insert category signature).2 (earlier ++ [tree]) next
      rw [List.append_assoc, List.singleton_append] at later
      simp only [List.findSome?_cons, classed, keepNew, found]
      cases opened : classes.insert category signature with
      | mk isNew others =>
        rw [opened] at new later
        cases isNew with
        | true =>
          rw [if_neg (new.mp rfl)] at first
          rcases later with ⟨error, fault, failed⟩ | ⟨clear, kept, finished, firsts⟩
          · exact Or.inl ⟨error, fault, by simp [failed, Except.map]⟩
          · refine Or.inr ⟨clear, tree :: kept, by simp [finished, Except.map], ?_⟩
            rw [firsts, first, List.append_assoc, List.singleton_append]
        | false =>
          have old : ctx.classOf tree ∈ earlier.map ctx.classOf :=
            not_not.mp fun fresh => Bool.false_ne_true (new.mpr fresh)
          rw [if_pos old, List.append_nil] at first
          rw [first] at later
          exact later

theorem eliminateEquivalents_eq (trees : List Tree) :
    ctx.eliminateEquivalents trees =
      match trees.findSome? ctx.classFault? with
      | some error => .error error
      | none => .ok (firstsBy ctx.classOf trees) := by
  rcases ctx.keepNew_cases .empty [] trees (by simp [Classes.empty]) with
    ⟨error, fault, failed⟩ | ⟨clear, kept, finished, firsts⟩
  · rw [fault]
    exact failed
  · rw [clear]
    rw [List.nil_append] at firsts
    exact finished.trans (congrArg Except.ok firsts.symm)

theorem eliminateEquivalents_eq_error_iff (trees : List Tree) (error : SearchError) :
    ctx.eliminateEquivalents trees = .error error ↔
      ∃ before tree after, trees = before ++ tree :: after ∧
        (∀ earlier ∈ before, ∃ key, ctx.classOf earlier = .ok key) ∧ ctx.Unclassed tree error := by
  have fault : ctx.eliminateEquivalents trees = .error error ↔
      trees.findSome? ctx.classFault? = some error := by
    rw [eliminateEquivalents_eq]
    cases trees.findSome? ctx.classFault? <;> simp
  rw [fault, List.findSome?_eq_some_iff]
  refine exists_congr fun before => exists_congr fun tree => exists_congr fun after =>
    and_congr_right fun _ => ?_
  simp only [classFault?_eq_some_iff, classFault?_eq_none_iff]
  exact and_comm

theorem eliminateEquivalents_eq_ok_iff (trees kept : List Tree) :
    ctx.eliminateEquivalents trees = .ok kept ↔
      trees.findSome? ctx.classFault? = none ∧ kept = firstsBy ctx.classOf trees := by
  rw [eliminateEquivalents_eq]
  cases trees.findSome? ctx.classFault? <;> simp [eq_comm]

theorem eliminateEquivalents_append (trees kept others : List Tree)
    (finished : ctx.eliminateEquivalents trees = .ok kept) :
    ctx.eliminateEquivalents (trees ++ others) = ctx.eliminateEquivalents (kept ++ others) := by
  obtain ⟨clear, rfl⟩ := (ctx.eliminateEquivalents_eq_ok_iff trees kept).mp finished
  have alsoClear : (firstsBy ctx.classOf trees).findSome? ctx.classFault? = none := by
    rw [List.findSome?_eq_none_iff] at clear ⊢
    exact fun tree member => clear tree ((sublist_firstsBy _ trees).subset member)
  rw [eliminateEquivalents_eq, eliminateEquivalents_eq, List.findSome?_append,
    List.findSome?_append, clear, alsoClear, firstsBy_append]

/-- An elimination fails exactly if some tree has no class, and then for the reason of the first such
tree. Otherwise it keeps the trees of which no earlier one is of the same class: no two of them are of
one class, each tree has exactly one of its class among them, and to eliminate again, by themselves
or with more trees to come, is to eliminate from the whole list. -/
theorem eliminateEquivalents_keeps_firsts (trees : List Tree) :
    (∀ error, ctx.eliminateEquivalents trees = .error error ↔
      ∃ before tree after, trees = before ++ tree :: after ∧
        (∀ earlier ∈ before, ∃ key, ctx.classOf earlier = .ok key) ∧ ctx.Unclassed tree error) ∧
    ∀ kept, ctx.eliminateEquivalents trees = .ok kept →
      kept = firstsBy ctx.classOf trees ∧
      kept.Sublist trees ∧
      kept.Pairwise (fun earlier later => ctx.classOf earlier ≠ ctx.classOf later) ∧
      (∀ tree ∈ trees, (∃ key, ctx.classOf tree = .ok key) ∧
        ∃! first, first ∈ kept ∧ ctx.classOf first = ctx.classOf tree) ∧
      ctx.eliminateEquivalents kept = .ok kept ∧
      ∀ others, ctx.eliminateEquivalents (trees ++ others) =
        ctx.eliminateEquivalents (kept ++ others) := by
  refine ⟨ctx.eliminateEquivalents_eq_error_iff trees, fun kept finished => ?_⟩
  have onward := fun others => ctx.eliminateEquivalents_append trees kept others finished
  have again : ctx.eliminateEquivalents kept = .ok kept := by
    have none := onward []
    rwa [List.append_nil, List.append_nil, finished, eq_comm] at none
  obtain ⟨clear, rfl⟩ := (ctx.eliminateEquivalents_eq_ok_iff trees kept).mp finished
  refine ⟨rfl, sublist_firstsBy _ trees, ?_, ?_, again, onward⟩
  · exact List.pairwise_map.mp (nodup_map_firstsBy ctx.classOf trees)
  · intro tree member
    have classed := List.findSome?_eq_none_iff.mp clear tree member
    exact ⟨(ctx.classFault?_eq_none_iff tree).mp classed,
      existsUnique_firstsBy ctx.classOf trees tree member⟩

open Arithmetic in
theorem sums_eliminated :
    let sum := Tree.node ⟨2⟩ [.leaf ⟨0⟩, .leaf ⟨1⟩]
    let swapped := Tree.node ⟨2⟩ [.leaf ⟨1⟩, .leaf ⟨0⟩]
    let ctx := sumContext 1 2
    ctx.eliminateEquivalents [.leaf ⟨0⟩, .leaf ⟨1⟩, sum, swapped] = .ok [.leaf ⟨0⟩, sum] ∧
      ctx.eliminateEquivalents [.leaf ⟨0⟩, sum, .leaf ⟨3⟩, .hole ⟨0⟩] =
        .error (.grammar (.unknownOperator ⟨3⟩)) ∧
      ctx.eliminateEquivalents [.leaf ⟨0⟩, .leaf ⟨1⟩, sum, swapped, swapped] =
        ctx.eliminateEquivalents [.leaf ⟨0⟩, sum, swapped] := by
  intro sum swapped ctx
  have finished : ctx.eliminateEquivalents [.leaf ⟨0⟩, .leaf ⟨1⟩, sum, swapped] =
      .ok [.leaf ⟨0⟩, sum] := (ctx.eliminateEquivalents_eq_ok_iff _ _).mpr ⟨rfl, rfl⟩
  refine ⟨finished, ?_, ?_⟩
  · obtain ⟨failing, _⟩ :=
      ctx.eliminateEquivalents_keeps_firsts [.leaf ⟨0⟩, sum, .leaf ⟨3⟩, .hole ⟨0⟩]
    refine (failing _).mpr ⟨[.leaf ⟨0⟩, sum], .leaf ⟨3⟩, [.hole ⟨0⟩], rfl, ?_, .untyped rfl⟩
    intro earlier member
    rcases List.mem_pair.mp member with rfl | rfl
    · exact ⟨_, rfl⟩
    · exact ⟨_, rfl⟩
  · obtain ⟨_, keeping⟩ :=
      ctx.eliminateEquivalents_keeps_firsts [.leaf ⟨0⟩, .leaf ⟨1⟩, sum, swapped]
    obtain ⟨_, _, _, _, _, onward⟩ := keeping _ finished
    exact onward [swapped]

end Context

end ByExample
