import TermForest.Forest.Basic

/-!
# Roots

The root of the tree that holds a node, found along the parent links. A chain that ends visits no
node twice, so more moves than there are nodes mean that the links run in a circle.
-/

namespace TermForest

namespace Forest

/-- Moves up from a node along the parent links, at most the given number of times; `start` is
named when they do not suffice. -/
def climb (F : Forest) (start : NodeId) : Nat → Node → Except Fault NodeId
  | moves, n =>
    match n.parent with
    | none => .ok n.id
    | some p => do
      let up ← F.find p
      match moves with
      | 0 => .error (.broken (.endlessParents start))
      | moves + 1 => F.climb start moves up

/-- The root of the tree that holds a node. -/
def rootOf (F : Forest) (id : NodeId) : Except Fault NodeId := do
  let n ← F.find id
  F.climb id F.size n

end Forest

end TermForest
