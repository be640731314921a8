import TermForest.Proofs.Forest.Kept
import TermForest.State

/-!
# Well-formed states

The areas of a well-formed state list the roots of its forest, and its definitions are locked. Moves
keep a slightly weaker property, in which nodes are only formed.
-/

namespace TermForest

namespace State

/-- The roots of all areas. -/
def roots (s : State) : List NodeId := s.board ++ s.toolbox ++ s.defs ++ s.goal

/-- The forest is linked, its ids lie from 1 up to but not including `next`, the areas together list
each node without a parent once, every definition is a `define` node, the nodes below definitions
and no others are locked, and every node has the fields and slots of its kind. -/
def WellFormed (next : Nat) (s : State) : Prop :=
  s.nodes.Kept Node.WellFormed s.roots s.defs next

/-- The same, but the nodes are only formed. -/
def Kept (next : Nat) (s : State) : Prop :=
  s.nodes.Kept (Node.Formed next) s.roots s.defs next

variable {s : State} {next next' : Nat} {r x : NodeId}

theorem WellFormed.kept (h : s.WellFormed next) : s.Kept next :=
  h.imp (Nat.le_refl _) fun _ hn => hn.formed next

theorem Kept.wellFormed (h : s.Kept next) (hn : next ≤ UInt64.size) : s.WellFormed next :=
  h.imp (Nat.le_refl _) fun _ hf => hf.wellFormed hn

namespace Kept

theorem mono (h : s.Kept next) (hn : next ≤ next') : s.Kept next' := Forest.Kept.mono h hn

theorem stocked (h : s.Kept next) : s.nodes.Stocked next := Forest.Kept.stocked h

theorem mem_roots_iff : r ∈ s.roots ↔ r ∈ s.board ∨ r ∈ s.toolbox ∨ r ∈ s.defs ∨ r ∈ s.goal := by
  simp [roots]

theorem mem_roots_of_board (hr : r ∈ s.board) : r ∈ s.roots := mem_roots_iff.2 (.inl hr)

theorem nodup_roots_iff {board toolbox defs goal : List NodeId} :
    (board ++ toolbox ++ defs ++ goal).Nodup ↔
      (board.Nodup ∧ toolbox.Nodup ∧ defs.Nodup ∧ goal.Nodup) ∧
      (∀ x ∈ board, x ∉ toolbox ∧ x ∉ defs ∧ x ∉ goal) ∧
      (∀ x ∈ toolbox, x ∉ defs ∧ x ∉ goal) ∧ ∀ x ∈ defs, x ∉ goal := by
  simp only [List.nodup_append, List.mem_append]
  grind

/-- The areas are free of repetitions and have no root in common. -/
theorem nodup_areas (h : s.Kept next) :
    (s.board.Nodup ∧ s.toolbox.Nodup ∧ s.defs.Nodup ∧ s.goal.Nodup) ∧
    (∀ x ∈ s.board, x ∉ s.toolbox ∧ x ∉ s.defs ∧ x ∉ s.goal) ∧
    (∀ x ∈ s.toolbox, x ∉ s.defs ∧ x ∉ s.goal) ∧ ∀ x ∈ s.defs, x ∉ s.goal :=
  nodup_roots_iff.1 h.nodup

theorem exists_board (h : s.Kept next) (hr : r ∈ s.board) :
    ∃ n, s.nodes.get? r = some n ∧ n.parent = none ∧ n.parentSlot = none :=
  h.exists_root (mem_roots_of_board hr)

theorem board_notMem_defs (h : s.Kept next) (hr : r ∈ s.board) : r ∉ s.defs :=
  (h.nodup_areas.2.1 r hr).2.1

theorem toolbox_notMem_defs (h : s.Kept next) (hr : r ∈ s.toolbox) : r ∉ s.defs :=
  (h.nodup_areas.2.2.1 r hr).1

end Kept

end State

end TermForest
