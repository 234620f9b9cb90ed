import ByExample.Proofs.Fairness

/-!
The refining search works by weight. The trees that wait are of two weights at most, the lighter
ones in front (`Layers`), so the trees are taken off in the order of their weights, and the first
program found is one of the lightest (`dequeues_by_weight`).
-/

namespace ByExample.Worklist

section

variable {grammar : Grammar} {level : Nat} {tree : Tree} {pending rest : List Tree}

/-- First come trees of the one weight, then trees of the next. -/
def Layers (grammar : Grammar) (level : Nat) (pending : List Tree) : Prop :=
  ∃ front back, pending = front ++ back ∧ (∀ tree ∈ front, grammar.weight tree = level) ∧
    ∀ tree ∈ back, grammar.weight tree = level + 1

theorem Layers.tail (layers : Layers grammar level (tree :: rest)) :
    level ≤ grammar.weight tree ∧ Layers grammar (grammar.weight tree) rest := by
  obtain ⟨front, back, split, lower, upper⟩ := layers
  cases front with
  | nil =>
    -- The lower layer has been used up, and the tree is the first of the upper one.
    rw [List.nil_append] at split
    subst split
    have raised := upper tree List.mem_cons_self
    refine ⟨by omega, rest, [], (List.append_nil rest).symm, ?_, nofun⟩
    intro other member
    rw [upper other (List.mem_cons_of_mem tree member), raised]
  | cons first front =>
    obtain ⟨rfl, rfl⟩ := List.cons.inj split
    have same := lower tree List.mem_cons_self
    refine ⟨by omega, front, back, rfl, ?_, ?_⟩
    · intro other member
      rw [lower other (List.mem_cons_of_mem tree member), same]
    · intro other member
      rw [upper other member, same]

theorem Layers.append (layers : Layers grammar level pending) (added : List Tree)
    (heavier : ∀ tree ∈ added, grammar.weight tree = level + 1) :
    Layers grammar level (pending ++ added) := by
  obtain ⟨front, back, rfl, lower, upper⟩ := layers
  refine ⟨front, back ++ added, List.append_assoc front back added, lower, ?_⟩
  intro tree member
  rcases List.mem_append.mp member with old | new
  · exact upper tree old
  · exact heavier tree new

theorem Layers.le_weight (layers : Layers grammar level pending) (member : tree ∈ pending) :
    level ≤ grammar.weight tree := by
  obtain ⟨front, back, rfl, lower, upper⟩ := layers
  rcases List.mem_append.mp member with near | far
  · exact Nat.le_of_eq (lower tree near).symm
  · rw [upper tree far]
    exact Nat.le_succ level

theorem Layers.head_le (layers : Layers grammar level (tree :: rest)) (other : Tree)
    (member : other ∈ tree :: rest) : grammar.weight tree ≤ grammar.weight other := by
  rcases List.mem_cons.mp member with rfl | later
  · exact Nat.le_refl _
  · exact layers.tail.2.le_weight later

def Ordered (grammar : Grammar) (taken pending : List Tree) : Prop :=
  (taken.Pairwise fun earlier later => grammar.weight earlier ≤ grammar.weight later) ∧
    ∃ level, (∀ tree ∈ taken, grammar.weight tree ≤ level) ∧ Layers grammar level pending

theorem ordered_start (grammar : Grammar) : Ordered grammar [] [.hole grammar.start] := by
  refine ⟨.nil, 0, nofun, [.hole grammar.start], [], rfl, ?_, nofun⟩
  intro tree member
  rw [List.mem_singleton.mp member, Grammar.weight]

theorem Ordered.step {taken : List Tree} (ordered : Ordered grammar taken (tree :: rest))
    (admits : grammar.Admits grammar.start tree) :
    Ordered grammar (taken ++ [tree]) (rest ++ successors grammar tree) := by
  obtain ⟨sorted, level, lighter, layers⟩ := ordered
  obtain ⟨reached, others⟩ := layers.tail
  have below (earlier : Tree) (member : earlier ∈ taken) :
      grammar.weight earlier ≤ grammar.weight tree :=
    Nat.le_trans (lighter earlier member) reached
  refine ⟨?_, grammar.weight tree, ?_, ?_⟩
  · apply List.pairwise_append.mpr
    refine ⟨sorted, List.pairwise_singleton _ tree, ?_⟩
    intro earlier member last single
    rw [List.mem_singleton.mp single]
    exact below earlier member
  · intro earlier member
    rcases List.mem_append.mp member with before | last
    · exact below earlier before
    · exact Nat.le_of_eq (congrArg _ (List.mem_singleton.mp last))
  · exact others.append _ fun refined among => weight_of_mem_successors admits among

end

variable {ι ο : Type} [DecidableEq ο] {ctx : Context ι ο}

theorem ordered_after (ctx : Context ι ο) (steps : Nat) :
    Ordered ctx.grammar (dequeued ctx steps) (after ctx steps).toList :=
  invariant_after ctx (ordered_start ctx.grammar) (fun _ _ _ admits ordered =>
    ordered.step admits) steps

theorem Quiet.weight_le {program tree : Tree} {rest : List Tree} {steps : Nat}
    (quiet : Quiet ctx steps) (solves : ctx.Solves program)
    (first : (after ctx steps).toList = tree :: rest) :
    ctx.grammar.weight tree ≤ ctx.grammar.weight program := by
  obtain ⟨origin, waits, yields⟩ := quiet.exists_origin solves
  obtain ⟨_, level, _, layers⟩ := ordered_after ctx steps
  rw [first] at layers waits
  have lightest := layers.head_le origin waits
  exact Nat.le_trans lightest (ctx.grammar.weight_le_of_yields origin program yields)

variable [Hashable ο]

theorem weight_le_of_synthesize (limits : Limits) (turns : Nat) (program : Program)
    (found : synthesize ctx .topDown limits turns = some (.ok (.program program))) (tree : Tree)
    (solves : ctx.Solves tree) : ctx.grammar.weight program.tree ≤ ctx.grammar.weight tree := by
  obtain ⟨steps, quiet, correct⟩ := quiet_of_synthesize limits turns program found
  obtain ⟨lightest, rest, first, reported⟩ := quiet.exists_first solves
  rw [correct] at reported
  cases reported
  exact quiet.weight_le solves first

/-- The weights of the trees taken off never decrease, and those that wait are of one weight and, in
the back, of the next. So no program that reproduces the examples is lighter than the first that a
run finds. -/
theorem dequeues_by_weight (ctx : Context ι ο) :
    (∀ steps,
      ((dequeued ctx steps).Pairwise fun earlier later =>
        ctx.grammar.weight earlier ≤ ctx.grammar.weight later) ∧
      ∃ level, Layers ctx.grammar level (after ctx steps).toList) ∧
    ∀ limits turns program,
      synthesize ctx .topDown limits turns = some (.ok (.program program)) →
      ∀ tree, ctx.Solves tree → ctx.grammar.weight program.tree ≤ ctx.grammar.weight tree := by
  constructor
  · intro steps
    obtain ⟨sorted, level, _, layers⟩ := ordered_after ctx steps
    exact ⟨sorted, level, layers⟩
  · exact weight_le_of_synthesize

/-- The tree found has three nodes, but the last of them belongs to the production of the first. -/
theorem lightest_tower :
    let tower : Program := ⟨.node ⟨1⟩ [.leaf ⟨0⟩, .leaf ⟨2⟩], rfl⟩
    synthesize (towers "ab") .topDown { } 10 = some (.ok (.program tower)) ∧
      ∀ tree, (towers "ab").Solves tree → 2 ≤ towerGrammar.weight tree := by
  intro tower
  have found : synthesize (towers "ab") .topDown { } 10 = some (.ok (.program tower)) := by rfl
  exact ⟨found, (dequeues_by_weight (towers "ab")).2 { } 10 tower found⟩

end ByExample.Worklist
