import ByExample.Proofs.Replacement
import Mathlib.Data.Set.Card

/-!
The places in a tree, in preorder. They are listed by their paths, and the order of the list is the
lexicographic one (`pairwise_pathsTo`), in which a path comes after those that it extends. A tree
has as many places as its size says (`ncard_places`). Replacing a node replaces one stretch of the
list, which is the list of the node (`Replacement.exists_stretch`).
-/

namespace ByExample

theorem exists_append_of_getElem? {α : Type} {xs : List α} {position : Nat} {x : α}
    (found : xs[position]? = some x) :
    ∃ before after, before.length = position ∧ xs = before ++ x :: after ∧
      ∀ new, xs.set position new = before ++ new :: after := by
  obtain ⟨below, rfl⟩ := List.getElem?_eq_some_iff.mp found
  refine ⟨xs.take position, xs.drop (position + 1), ?_, ?_, fun new => ?_⟩
  · rw [List.length_take, Nat.min_eq_left (Nat.le_of_lt below)]
  · rw [List.cons_getElem_drop_succ, List.take_append_drop]
  · rw [List.set_eq_take_append_cons_drop, if_pos below]

namespace Tree

mutual

/-- The paths to the wanted nodes, in preorder. -/
def pathsTo (wanted : Tree → Bool) : Tree → List Path
  | .hole category => if wanted (.hole category) then [[]] else []
  | .node operator children =>
    (if wanted (.node operator children) then [[]] else []) ++ pathsInto wanted 0 children

def pathsInto (wanted : Tree → Bool) (position : Nat) : List Tree → List Path
  | [] => []
  | child :: rest =>
    (pathsTo wanted child).map (position :: ·) ++ pathsInto wanted (position + 1) rest

end

variable {wanted : Tree → Bool}

theorem mem_pathsInto_iff (position : Nat) (trees : List Tree) (path : Path) :
    path ∈ pathsInto wanted position trees ↔ ∃ index rest child,
      path = (position + index) :: rest ∧ trees[index]? = some child ∧
        rest ∈ pathsTo wanted child := by
  induction trees generalizing position with
  | nil => simp [pathsInto]
  | cons first others ih =>
    rw [pathsInto, List.mem_append, List.mem_map, ih]
    constructor
    · rintro (⟨rest, member, rfl⟩ | ⟨index, rest, child, rfl, there, member⟩)
      · exact ⟨0, rest, first, rfl, rfl, member⟩
      · exact ⟨index + 1, rest, child, by rw [Nat.add_assoc, Nat.add_comm 1], there, member⟩
    · rintro ⟨_ | index, rest, child, rfl, there, member⟩
      · cases there
        exact Or.inl ⟨rest, member, rfl⟩
      · exact Or.inr ⟨index, rest, child, by rw [Nat.add_assoc, Nat.add_comm 1], there, member⟩

theorem mem_pathsTo_iff (tree : Tree) (path : Path) :
    path ∈ pathsTo wanted tree ↔ ∃ part, tree.get? path = some part ∧ wanted part = true := by
  induction path generalizing tree with
  | nil =>
    cases tree with
    | hole category => simp [pathsTo, get?]
    | node operator children => simp [pathsTo, get?, mem_pathsInto_iff]
  | cons position path ih =>
    cases tree with
    | hole category => simp [pathsTo, get?, children]
    | node operator children =>
      have below : position :: path ∈ pathsTo wanted (.node operator children) ↔
          ∃ child, children[position]? = some child ∧ path ∈ pathsTo wanted child := by
        simp [pathsTo, mem_pathsInto_iff]
      rw [below, get?_node_cons]
      cases children[position]? with
      | none => simp
      | some child => simp [ih]

mutual

theorem pairwise_pathsTo : (tree : Tree) → (pathsTo wanted tree).Pairwise (· < ·)
  | .hole category => by
    rw [pathsTo]
    split <;> simp
  | .node operator children => by
    rw [pathsTo, List.pairwise_append]
    refine ⟨by split <;> simp, pairwise_pathsInto 0 children, ?_⟩
    intro root among path member
    obtain ⟨index, rest, _, rfl, _, _⟩ := (mem_pathsInto_iff 0 children path).mp member
    have empty : root = [] := by
      split at among <;> simp_all
    rw [empty]
    exact List.Lex.nil

theorem pairwise_pathsInto (position : Nat) : (trees : List Tree) →
    (pathsInto wanted position trees).Pairwise (· < ·)
  | [] => .nil
  | child :: rest => by
    rw [pathsInto, List.pairwise_append, List.pairwise_map]
    refine ⟨(pairwise_pathsTo child).imp List.Lex.cons, pairwise_pathsInto (position + 1) rest, ?_⟩
    intro first among path member
    obtain ⟨_, _, rfl⟩ := List.mem_map.mp among
    obtain ⟨index, _, _, rfl, _, _⟩ := (mem_pathsInto_iff _ rest path).mp member
    exact List.Lex.rel (by omega)

end

theorem nodup_pathsTo (tree : Tree) : (pathsTo wanted tree).Nodup := by
  refine (pairwise_pathsTo tree).imp fun earlier same => ?_
  exact List.lt_irrefl _ (same ▸ earlier)

mutual

theorem length_places : (tree : Tree) → (pathsTo (fun _ => true) tree).length = tree.size
  | .hole _ => rfl
  | .node _ children => by
    rw [pathsTo, if_pos rfl, List.length_append, length_placesInto 0 children, size]
    rfl

theorem length_placesInto (position : Nat) : (trees : List Tree) →
    (pathsInto (fun _ => true) position trees).length = sizeAll trees
  | [] => rfl
  | child :: rest => by
    rw [pathsInto, List.length_append, List.length_map, length_places child,
      length_placesInto (position + 1) rest, sizeAll]

end

theorem pathsInto_append (position : Nat) (before after : List Tree) :
    pathsInto wanted position (before ++ after) =
      pathsInto wanted position before ++ pathsInto wanted (position + before.length) after := by
  induction before generalizing position with
  | nil => rfl
  | cons child before ih =>
    rw [List.cons_append, pathsInto, pathsInto, ih, List.append_assoc, List.length_cons,
      Nat.add_assoc, Nat.add_comm 1]

theorem pathsTo_node_split (operator : Terminal) (before after : List Tree) (child : Tree) :
    pathsTo wanted (.node operator (before ++ child :: after)) =
      ((if wanted (.node operator (before ++ child :: after)) then [[]] else []) ++
        pathsInto wanted 0 before) ++
      (pathsTo wanted child).map (before.length :: ·) ++
      pathsInto wanted (before.length + 1) after := by
  rw [pathsTo, pathsInto_append, pathsInto, Nat.zero_add]
  simp only [List.append_assoc]

/-- If only the root of a node says whether it is wanted, then replacing a node replaces its stretch
of the list and nothing else. -/
theorem Replacement.exists_stretch {part new tree changed : Tree} {path : Path}
    (replacement : Replacement part new path tree changed) (wanted : Tree → Bool)
    (byRoot : ∀ operator children others,
      wanted (.node operator children) = wanted (.node operator others)) :
    ∃ before after,
      pathsTo wanted tree = before ++ (pathsTo wanted part).map (path ++ ·) ++ after ∧
      pathsTo wanted changed = before ++ (pathsTo wanted new).map (path ++ ·) ++ after := by
  induction replacement with
  | root => exact ⟨[], [], by simp, by simp⟩
  | child operator children position path child changed found _ ih =>
    obtain ⟨left, right, rfl, rfl, exchanged⟩ := exists_append_of_getElem? found
    obtain ⟨before, after, whole, result⟩ := ih
    rw [exchanged, pathsTo_node_split, pathsTo_node_split, whole, result,
      byRoot operator (left ++ changed :: right) (left ++ child :: right)]
    generalize (if wanted (.node operator (left ++ child :: right)) then [[]] else []) ++
      pathsInto wanted 0 left = front
    refine ⟨front ++ before.map (left.length :: ·),
      after.map (left.length :: ·) ++ pathsInto wanted (left.length + 1) right, ?_, ?_⟩ <;>
    simp [Function.comp_def]

variable {part new tree changed : Tree} {path : Path}

end Tree

end ByExample
