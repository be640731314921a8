import TermForest.Forest.Editing

/-!
# Revision of subtrees

A revision edits the nodes of a subtree, children before parents, and puts the links between an
edited node and its children right. The editing of one node may add other nodes to the forest.
-/

namespace TermForest

/-- How a subtree is revised. -/
structure Revision where
  /-- Nodes that are not entered stay as they are, with all that hangs below them. -/
  entered : Node → Bool
  /-- The new node in place of one whose children are done. -/
  edit : Node → Editing Node

/-- The outcome of a revision, beside the new forest. -/
structure Revised where
  /-- The id at which the revised subtree now stands. -/
  root : NodeId
  /-- The ids of the nodes that were edited, in order, as they were before. -/
  edited : List NodeId

/-- Revises the subtree at an id, to the given depth, and gives the id at which it now stands. The
ids of the edited nodes are kept, the latest first. -/
def Revision.runTo (r : Revision) : Nat → NodeId → StateT (List NodeId) Editing NodeId
  | 0, id => throw (.broken (.endlessSlots id))
  | depth + 1, id => do
    let n ← Editing.find id
    if r.entered n then
      let children ← n.slots.children.mapM fun child => r.runTo depth child
      let n' ← r.edit { n with slots := n.slots.withChildren children }
      n'.slots.entries.forM fun e => Editing.attach e.2 n'.id e.1
      Editing.insert n'
      modify (n.id :: ·)
      return n'.id
    else return id

/-- Revises the subtree at an id. The depth leaves room for nodes that are added on the way. -/
def Revision.run (r : Revision) (id : NodeId) : Editing Revised := do
  let F ← get
  let (root, edited) ← (r.runTo ((F.size + 1) * (F.size + 1)) id).run []
  return ⟨root, edited.reverse⟩

end TermForest
