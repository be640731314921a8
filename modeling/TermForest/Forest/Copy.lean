import TermForest.Forest.Tree
import TermForest.Supply

/-!
# Copies of subtrees

A copy of a subtree under new ids. A node gets its new id before its children do, and is listed
after them. The copy hangs loose: its root has no parent.
-/

namespace TermForest

/-- Computations that make clones and keep them, the latest first. -/
abbrev Cloning : Type → Type := StateT (List Node) (Supply Fault)

/-- Clones a tree under new ids, to be held by the given parent and slot, and gives the clone of its
root. The clones of the nodes below the root are kept, children before parents. -/
def Tree.clone (locked : Bool) (holder : Option (NodeId × String)) : Tree → Cloning Node
  | .absent id => throw (.dangling id)
  | .endless id => throw (.broken (.endlessSlots id))
  | .node root below => do
    let id ← (StateT.lift Supply.take : Cloning NodeId)
    let children ← root.slots.entries.mapM fun e => do
      let child ← (below e.2).clone locked (some (id, e.1))
      modify (child :: ·)
      return child.id
    return {
      root with
      id
      parent := holder.map Prod.fst
      parentSlot := holder.map Prod.snd
      locked
      slots := root.slots.withChildren children }

/-- A copy of a subtree beside everything that was there. -/
structure Copy where
  /-- The root of the copy. -/
  root : Node
  /-- The nodes of the copy below its root, children before parents. -/
  below : List Node
  /-- The forest with the copy. -/
  forest : Forest

/-- Copies the subtree at an id under new ids; every node of the copy gets the given lock. -/
def Forest.copy (F : Forest) (id : NodeId) (locked : Bool) : Supply Fault Copy := do
  let (root, clones) ← ((F.tree id).clone locked none).run []
  let below := clones.reverse
  return ⟨root, below, (F.insertAll below).insert root⟩

end TermForest
