import TermForest.Forest.Basic

/-!
# Unfolded trees

What hangs below an id of a forest, as a tree that is unfolded on demand. Reading walks over a
subtree (searching, listing, comparing, displaying) are recursions on this tree and look no further
than their answer needs; where the forest lacks a node, or its slots run in a circle, the tree ends
in a leaf that says so.
-/

namespace TermForest

/-- A subtree of a forest. -/
inductive Tree where
  /-- A node, and what hangs below the ids of its children. -/
  | node (root : Node) (below : NodeId → Tree)
  /-- An id without a node. -/
  | absent (id : NodeId)
  /-- An id at which the walk was given up. -/
  | endless (id : NodeId)

namespace Tree

instance : Inhabited Tree := ⟨.absent 0⟩

/-- The root of a tree, if it is there. -/
def root? : Tree → Option Node
  | .node root _ => some root
  | .absent _ | .endless _ => none

end Tree

/-! ### Unfolding -/

/-- What hangs below an id, to the given depth. -/
def Forest.unfold (F : Forest) : Nat → NodeId → Tree
  | 0, id => .endless id
  | depth + 1, id =>
    match F.get? id with
    | none => .absent id
    | some n => .node n (F.unfold depth)

/-- What hangs below an id. A path that meets no node twice ends within this depth. -/
def Forest.tree (F : Forest) (id : NodeId) : Tree := F.unfold (F.size + 1) id

/-! ### Searching -/

/-- Puts the wanted nodes of a tree in front of those that were found before: children before
parents, so that the root comes to stand first. Nodes that are not entered are left out with all
that hangs below them. -/
def Tree.selectOnto (wanted entered : Node → Bool) : Tree → List Node → Except Fault (List Node)
  | .absent id, _ => .error (.dangling id)
  | .endless id, _ => .error (.broken (.endlessSlots id))
  | .node root below, found =>
    if entered root then do
      let found ← root.slots.children.foldlM
        (fun found child => (below child).selectOnto wanted entered found)
        found
      return if wanted root then root :: found else found
    else .ok found

/-- The wanted nodes of a tree that are entered, children before parents. -/
def Tree.select (wanted entered : Node → Bool) (t : Tree) : Except Fault (List Node) := do
  return (← t.selectOnto wanted entered []).reverse

/-- The nodes below an id that are wanted, children before parents. -/
def Forest.findAll (F : Forest) (id : NodeId) (wanted : Node → Bool) : Except Fault (List Node) :=
  (F.tree id).select wanted fun _ => true

/-- The ids of the subtree at an id, children before parents. -/
def Forest.idsUnder (F : Forest) (id : NodeId) : Except Fault (List NodeId) := do
  let nodes ← F.findAll id fun _ => true
  return nodes.map Node.id

/-! ### Comparing -/

/-- Whether two trees agree in kinds, fields and slots throughout; ids, parents and locks do not
count. Slots are compared from first to last, and the left tree is looked at first. -/
def Tree.sameShape : Tree → Tree → Except Fault Bool
  | .absent id, _ => .error (.dangling id)
  | .endless id, _ => .error (.broken (.endlessSlots id))
  | .node _ _, .absent id => .error (.dangling id)
  | .node _ _, .endless id => .error (.broken (.endlessSlots id))
  | .node m left, .node n right =>
    if m.kind ≠ n.kind ∨ m.fields ≠ n.fields ∨ m.slots.size ≠ n.slots.size then .ok false
    else (m.slots.entries.zip n.slots.entries).allM fun (a, b) =>
      if a.1 ≠ b.1 then .ok false else (left a.2).sameShape (right b.2)

/-- Whether the subtrees at two ids, each in its own forest, have the same shape. -/
def sameShape (F : Forest) (left : NodeId) (G : Forest) (right : NodeId) : Except Fault Bool :=
  (F.tree left).sameShape (G.tree right)

end TermForest
