import TermForest.Fault

/-!
# Forests

A forest keeps nodes by id. Every node is kept under its own id; links between nodes are ids and
may point outside the forest, which a look-up reports as a fault.
-/

namespace TermForest

/-- A store of nodes by id. -/
structure Forest where
  /-- The nodes by id. -/
  nodes : Std.ExtTreeMap NodeId Node := ∅
  /-- A node is found under its own id. -/
  filed : ∀ (id : NodeId) (n : Node), nodes[id]? = some n → n.id = id := by simp

namespace Forest

instance : EmptyCollection Forest := ⟨{}⟩

instance : Inhabited Forest := ⟨∅⟩

/-- The node of an id. -/
def get? (F : Forest) (id : NodeId) : Option Node := F.nodes[id]?

/-- Forests are equal when they hold the same nodes. -/
theorem ext {F G : Forest} (h : ∀ id, F.get? id = G.get? id) : F = G := by
  obtain ⟨f, hf⟩ := F
  obtain ⟨g, hg⟩ := G
  have : f = g := Std.ExtTreeMap.ext_getElem? fun id => h id
  subst this
  rfl

instance : DecidableEq Forest := fun F G =>
  if h : F.nodes = G.nodes then isTrue (by cases F; cases G; cases h; rfl)
  else isFalse fun e => h (by rw [e])

/-! ### Reading -/

theorem id_of_get? {F : Forest} {id : NodeId} {n : Node} (h : F.get? id = some n) : n.id = id :=
  F.filed id n h

/-- The node of an id that the caller holds; an absent one is a fault. -/
def find (F : Forest) (id : NodeId) : Except Fault Node :=
  match F.get? id with
  | some n => .ok n
  | none => .error (.dangling id)

/-- Whether an id has a node. -/
def has (F : Forest) (id : NodeId) : Bool := F.nodes.contains id

/-- The number of nodes. -/
def size (F : Forest) : Nat := F.nodes.size

/-- The ids in increasing order. -/
def ids (F : Forest) : List NodeId := F.nodes.keys

/-- The nodes in the order of their ids. -/
def toList (F : Forest) : List Node := F.nodes.values

/-- The node in a slot of a node, if both the slot and the node are there. -/
def peek (F : Forest) (n : Node) (slot : String) : Option Node :=
  (n.slots.get? slot).bind F.get?

/-! ### Changing -/

/-- Adds a node, or replaces the one with its id. -/
def insert (F : Forest) (n : Node) : Forest where
  nodes := F.nodes.insert n.id n
  filed id m h := by
    rw [Std.ExtTreeMap.getElem?_insert] at h
    split at h
    · cases h
      exact Std.LawfulEqCmp.eq_of_compare ‹_›
    · exact F.filed id m h

/-- Drops the node of an id. -/
def erase (F : Forest) (id : NodeId) : Forest where
  nodes := F.nodes.erase id
  filed i m h := by
    rw [Std.ExtTreeMap.getElem?_erase] at h
    split at h
    · cases h
    · exact F.filed i m h

/-- Adds nodes one after the other. -/
def insertAll (F : Forest) (ns : List Node) : Forest := ns.foldl insert F

/-- Drops the nodes of some ids. -/
def eraseAll (F : Forest) (ids : List NodeId) : Forest := ids.foldl erase F

/-- The forest of a list of nodes; of two with one id the later stays. -/
def ofList (ns : List Node) : Forest := insertAll ∅ ns

@[simp] theorem get?_empty (id : NodeId) : (∅ : Forest).get? id = none := by
  show (∅ : Std.ExtTreeMap NodeId Node)[id]? = none
  simp

theorem get?_insert (F : Forest) (n : Node) (id : NodeId) :
    (F.insert n).get? id = if n.id = id then some n else F.get? id := by
  simp [insert, get?, Std.ExtTreeMap.getElem?_insert]

theorem get?_erase (F : Forest) (i id : NodeId) :
    (F.erase i).get? id = if i = id then none else F.get? id := by
  simp [erase, get?, Std.ExtTreeMap.getElem?_erase]

/-- Points a node at a parent and a slot. -/
def attach (F : Forest) (child parent : NodeId) (slot : String) : Except Fault Forest := do
  let n ← F.find child
  return F.insert (n.heldBy parent slot)

/-- Equality up to the order of the slots of each node. -/
def sameContent (F G : Forest) : Bool :=
  F.size == G.size && F.toList.all fun n => (G.get? n.id).any n.sameContent

end Forest

end TermForest
