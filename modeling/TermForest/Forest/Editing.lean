import TermForest.Forest.Copy

/-!
# Editing forests

Computations that change a forest step by step and may take new ids. A failure leaves no forest
behind, but the ids it took stay used.
-/

namespace TermForest

/-- Computations on a forest that may take new ids and may end in a fault. -/
abbrev Editing : Type → Type := StateT Forest (Supply Fault)

namespace Editing

/-- Takes the next id. -/
def newId : Editing NodeId := StateT.lift Supply.take

/-- The node of an id. -/
def find (id : NodeId) : Editing Node := do
  (← get).find id

/-- Adds a node, or replaces the one with its id. -/
def insert (n : Node) : Editing Unit := modify (·.insert n)

/-- Points a node at a parent and a slot. -/
def attach (child parent : NodeId) (slot : String) : Editing Unit := do
  set (← (← get).attach child parent slot)

/-- Puts a child into a slot of a node that is not yet in the forest, and points it back. -/
def fill (parent : Node) (slot : String) (child : NodeId) : Editing Node := do
  attach child parent.id slot
  return parent.withSlot slot child

/-- Copies the subtree at an id under new ids, with or without a lock, and gives the root of the
copy. -/
def copy (id : NodeId) (locked : Bool := false) : Editing Node := do
  let c ← (← get).copy id locked
  set c.forest
  return c.root

/-- Copies the subtree at an id likewise, and gives the id of the copy. -/
def copyOf (id : NodeId) : Editing NodeId := return (← copy id).id

/-- Adds an application of one term of the forest to another, and gives its id. -/
def apply (callee argument : NodeId) : Editing NodeId := do
  let n ← fill { id := ← newId, kind := .apply } "callee" callee
  let n ← fill n "argument" argument
  insert n
  return n.id

end Editing

end TermForest
