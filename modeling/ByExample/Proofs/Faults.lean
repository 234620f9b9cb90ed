import ByExample.Proofs.Counting
import ByExample.Proofs.Soundness
import ByExample.Proofs.Successors

/-!
What can go wrong in a search. Whatever either strategy looks up is there: the holes, productions and
replacements of the refining search (`Refinable`), the lists and digits of the growing one
(`Indexed`). So nothing but a fault of the evaluation ends a step with an error
(`fails_by_faults`).
-/

namespace ByExample

theorem filterMap_eq_of_forall₂ {α β γ : Type} {f : α → Option γ} {g : β → Option γ} {xs : List α}
    {ys : List β} (related : List.Forall₂ (fun x y => f x = g y) xs ys) :
    xs.filterMap f = ys.filterMap g := by
  induction related with
  | nil => rfl
  | cons same _ ih => simp only [List.filterMap_cons, same, ih]

namespace Grammar

/-- The first hole of the tree can be expanded by every production of its category, and a tree
without a first hole is a program. -/
structure Refinable (grammar : Grammar) (tree : Tree) : Prop where
  expandable : ∀ path category, tree.firstHole? = some (path, category) →
    tree.get? path = some (.hole category) ∧
    grammar.productionsFor category = .ok (grammar.ofCategory category) ∧
    ∀ production ∈ grammar.ofCategory category,
      ∃ refined, tree.replace? path (.expansion production) = some refined
  finished : tree.firstHole? = none → ∃ program, Program.ofTree? tree = some program

theorem Admits.refinable {grammar : Grammar} {tree : Tree}
    (admits : grammar.Admits grammar.start tree) : grammar.Refinable tree where
  expandable path category found := by
    have there := tree.get?_of_firstHole? path category found
    refine ⟨there, admits.productionsFor there, fun production _ => ?_⟩
    obtain ⟨refined, replacement⟩ := Tree.exists_replacement (.expansion production) there
    exact ⟨refined, replacement.replace?_eq⟩
  finished found := by
    have complete := tree.firstHole?_eq_none.mp found
    exact ⟨⟨tree, complete⟩, by simp [Program.ofTree?, complete]⟩

end Grammar

namespace Bank

variable {ι ο : Type} [DecidableEq ο] [Hashable ο] {ctx : Context ι ο} (bank : Bank ο)

def shelve (grammar : Grammar) (components : List Component) : List (List Tree) :=
  grammar.allCategories.map fun category =>
    (components.filter (·.category = category)).map Component.tree

def column? (grammar : Grammar) : Symbol → Option (List Tree)
  | .category category => (shelve grammar bank.stored.toList)[category.index]?
  | .terminal operator =>
    (grammar.allTerminals.map Tree.leaf)[operator.index]?.map fun leaf => [leaf]

def build? (operator : Terminal) (columns : List (List Tree)) (size : Nat) (digits : List Nat) :
    Option Tree := do
  let sizes ← pick? (columns.map fun column => column.map Tree.size) digits
  let children ← pick? columns digits
  if sizes.foldr (· + ·) 0 = size - 1 then some (.node operator children) else none

theorem getElem?_shelve (grammar : Grammar) (components : List Component) (category : Category)
    (issued : grammar.Issued (.category category)) :
    (shelve grammar components)[category.index]? =
      some ((components.filter (·.category = category)).map Component.tree) := by
  have below : category.index < grammar.categories.size := issued
  simp [shelve, Draft.allCategories, List.getElem?_range below]

theorem exists_column_of_issued (grammar : Grammar) (argument : Symbol)
    (issued : grammar.Issued argument) :
    ∃ column, bank.column? grammar argument = some column ∧
      bank.column argument = column.map fun tree => (tree.size, tree) := by
  cases argument with
  | category category =>
    exact ⟨bank.componentsOf category, getElem?_shelve grammar _ category issued, rfl⟩
  | terminal operator =>
    have below : operator.index < grammar.terminals.size := issued
    refine ⟨[.leaf operator], ?_, rfl⟩
    simp [column?, Draft.allTerminals, List.getElem?_range below]

theorem shelve_append (grammar : Grammar) (components : List Component) (component : Component) :
    shelve grammar (components ++ [component]) =
      (shelve grammar components).modify component.category.index (· ++ [component.tree]) := by
  apply List.ext_getElem?
  intro index
  rw [List.getElem?_modify]
  rcases Nat.lt_or_ge index grammar.categories.size with below | past
  · rw [getElem?_shelve grammar (components ++ [component]) ⟨index⟩ below,
      getElem?_shelve grammar components ⟨index⟩ below, List.filter_append, List.map_append]
    by_cases same : component.category = ⟨index⟩
    · simp [same]
    · have other : component.category.index ≠ index :=
        fun equal => same (congrArg Category.mk equal)
      simp [same, other]
  · simp [shelve, Draft.allCategories, past]

theorem shelve_foldl (grammar : Grammar) (components added : List Component) :
    shelve grammar (components ++ added) =
      added.foldl (fun shelves component =>
          shelves.modify component.category.index (· ++ [component.tree]))
        (shelve grammar components) := by
  induction added generalizing components with
  | nil => simp
  | cons component added ih =>
    rw [List.foldl_cons, ← shelve_append, ← ih, List.append_assoc, List.singleton_append]

/-- The columns of a production's arguments, found by number, and the digits that count off the
trees in them. -/
structure Counted (grammar : Grammar) (production : Production) (columns : List (List Tree)) :
    Prop where
  looked : List.Forall₂ (fun argument column => bank.column? grammar argument = some column)
    production.arguments columns
  shown : ∀ turns, (Odometer.increment^[turns] (.start (columns.map List.length))).current? =
    (digitTuples (columns.map List.length))[turns]?
  picked : ∀ digits ∈ digitTuples (columns.map List.length),
    Within (columns.map List.length) digits ∧
    (∃ sizes, pick? (columns.map fun column => column.map Tree.size) digits = some sizes) ∧
    ∃ children, pick? columns digits = some children
  built : ∀ size, bank.combinations size production =
    (digitTuples (columns.map List.length)).filterMap (build? production.operator columns size)

theorem exists_counted (grammar : Grammar) (production : Production)
    (member : production ∈ grammar.productions) :
    ∃ columns, bank.Counted grammar production columns := by
  obtain ⟨columns, found⟩ := exists_forall₂ fun argument among =>
    bank.exists_column_of_issued grammar argument
      (grammar.argument_issued production member argument among)
  have picks := picks_tuples Tree.size columns
  refine ⟨columns, found.imp fun _ _ => And.left, Odometer.current?_iterate _, ?_, ?_⟩
  · intro digits among
    obtain ⟨tuple, _, picked, sizes, weighed, _⟩ := exists_of_forall₂_of_mem picks digits among
    exact ⟨(mem_digitTuples_iff _ digits).mp among, ⟨sizes, weighed⟩, tuple.2, picked⟩
  · intro size
    have same : production.arguments.map bank.column =
        columns.map fun column => column.map fun tree => (tree.size, tree) := by
      rw [← List.forall₂_eq_eq_eq, List.forall₂_map_left_iff, List.forall₂_map_right_iff]
      exact found.imp fun _ _ => And.right
    rw [combinations, same, tuplesOfWeight_eq, List.map_filterMap]
    symm
    apply filterMap_eq_of_forall₂
    refine picks.imp fun digits tuple picked => ?_
    obtain ⟨children, sizes, weighed, total⟩ := picked
    by_cases wanted : tuple.1 = size - 1 <;> simp [build?, children, weighed, total, wanted]

/-- Whatever a round looks up by number is there: the productions of operators, the trees for their
arguments, and the shelves for what it stores. -/
structure Indexed (ctx : Context ι ο) (bank : Bank ο) : Prop where
  owned : ∀ production ∈ ctx.grammar.productions,
    ctx.grammar.productionOf production.operator = .ok production
  counted : ∀ production ∈ ctx.grammar.productions,
    ∃ columns, bank.Counted ctx.grammar production columns
  placed : ∀ component ∈ (bank.round ctx).2.frontier,
    component.category.index < (shelve ctx.grammar bank.stored.toList).length
  shelved : shelve ctx.grammar (bank.round ctx).2.store.stored.toList =
    (bank.round ctx).2.frontier.toList.foldl (fun shelves component =>
        shelves.modify component.category.index (· ++ [component.tree]))
      (shelve ctx.grammar bank.stored.toList)

variable {bank}

theorem Consistent.indexed (consistent : bank.Consistent ctx) : bank.Indexed ctx where
  owned := ctx.grammar.productionOf_operator
  counted := bank.exists_counted ctx.grammar
  placed component member := by
    have valid := consistent.round.valid component (mem_kept_of_frontier member)
    have below : component.category.index < ctx.grammar.categories.size := valid.generated.issued
    simpa [shelve, Draft.allCategories] using below
  shelved := by
    rw [Bank.store, Array.toList_append, (round_frame ctx bank).2.2, shelve_foldl]

end Bank

namespace Worklist

variable {ι ο : Type} [DecidableEq ο] {ctx : Context ι ο} {worklist : Worklist}

theorem Admitted.faults_of_step (admitted : worklist.Admitted ctx.grammar) (error : SearchError)
    (failed : (worklist.step ctx).1 = .error error) : ctx.Faults error := by
  cases waiting : worklist.toList with
  | nil =>
    rw [step_of_nil worklist waiting] at failed
    cases failed
  | cons tree rest =>
    have reported := (step_of_cons worklist admitted tree rest waiting).1
    rw [failed] at reported
    obtain _ | ⟨complete, _, checked⟩ := reported
    have admits := admitted tree (waiting ▸ List.mem_cons_self)
    exact ctx.faults_of_check ⟨admits, complete⟩ error checked

end Worklist

def Progress.Guarded {ι ο : Type} [DecidableEq ο] [Hashable ο] (ctx : Context ι ο) :
    Progress ο → Prop
  | .topDown worklist => ∀ tree ∈ worklist.toList, ctx.grammar.Refinable tree
  | .bottomUp bank => bank.Indexed ctx

theorem Progress.Sound.guarded {ι ο : Type} [DecidableEq ο] [Hashable ο] {ctx : Context ι ο}
    {strategy : Strategy} {maxSize : Nat} {progress : Progress ο}
    (sound : progress.Sound ctx strategy maxSize) : progress.Guarded ctx := by
  cases progress with
  | topDown worklist => exact fun tree member => (sound.2 tree member).refinable
  | bottomUp bank => exact sound.1.indexed

namespace Search

variable {ι ο : Type} [DecidableEq ο] [Hashable ο]

section

variable {ctx : Context ι ο} {strategy : Strategy} {maxSize : Nat} (search : Search ο)
  (sound : search.progress.Sound ctx strategy maxSize)

include sound

theorem faults_of_step (error : SearchError) (failed : (search.step ctx).1 = .error error) :
    ctx.Faults error := by
  rw [(step_progress ctx search).1] at failed
  cases state : search.progress with
  | topDown worklist =>
    rw [state] at sound failed
    exact sound.2.faults_of_step error failed
  | bottomUp bank =>
    rw [state] at sound failed
    exact sound.1.faults_of_step error failed

theorem faults_of_turn (limits : Limits) (elapsed : Nat) (error : SearchError)
    (failed : (search.turn ctx limits elapsed).1 = some (.error error)) : ctx.Faults error := by
  rcases result_of_turn ctx limits elapsed search _ failed with late | missed | reported
  · cases late
  · cases missed
  · exact faults_of_step search sound error ((verdict_eq_error_iff _ error).mp reported)

theorem faults_of_run (limits : Limits) (turns : Nat) (error : SearchError)
    (failed : (search.run ctx limits turns).1 = some (.error error)) : ctx.Faults error := by
  obtain ⟨steps, reported⟩ := exists_report_of_error ctx limits turns search error failed
  exact faults_of_step _ (sound_iterate steps search sound) error reported

end

/-- However a fresh search is driven, past errors too, whatever its next step looks up is there. No
step fails for the grammar's sake: nothing but a fault of the evaluation of some program on some
example is ever reported or returned as an error. -/
theorem fails_by_faults (ctx : Context ι ο) (strategy : Strategy) (limits : Limits) (steps : Nat) :
    let search : Search ο := (advance ctx)^[steps] (start ctx.grammar strategy limits)
    search.progress.Guarded ctx ∧
    (∀ error, (search.step ctx).1 ≠ .error (.grammar error)) ∧
    (∀ error, (search.step ctx).1 = .error error → ctx.Faults error) ∧
    (∀ others elapsed error, (search.turn ctx others elapsed).1 = some (.error error) →
      ctx.Faults error) ∧
    ∀ others turns error, (search.run ctx others turns).1 = some (.error error) →
      ctx.Faults error := by
  intro search
  have sound : search.progress.Sound ctx strategy limits.maxSize :=
    sound_iterate steps _ (sound_start ctx strategy limits)
  refine ⟨sound.guarded, ?_, faults_of_step search sound, faults_of_turn search sound,
    faults_of_run search sound⟩
  intro error failed
  cases faults_of_step search sound (.grammar error) failed

end Search

end ByExample
