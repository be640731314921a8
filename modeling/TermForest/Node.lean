import TermForest.Datum
import TermForest.Kind
import TermForest.Slots

/-!
# Nodes

A node has a kind, named fields and children in slots, and knows the parent and the slot that
hold it. A locked node is not reduced.
-/

namespace TermForest

/-- One node of a forest. -/
structure Node where
  id : NodeId
  kind : Kind
  /-- The node that holds this one; a root has none. -/
  parent : Option NodeId := none
  /-- The slot of the parent that holds this node. -/
  parentSlot : Option String := none
  fields : Fields := ∅
  slots : Slots := ∅
  locked : Bool := false
  deriving DecidableEq

namespace Node

instance : Inhabited Node := ⟨{ id := 0, kind := .void }⟩

/-- The value of a field. -/
def field? (n : Node) (key : String) : Option Datum := n.fields.get? key

/-- The integer in a field. -/
def int? (n : Node) (key : String) : Option Int64 := (n.field? key).bind Datum.int?

/-- The truth value in a field. -/
def bool? (n : Node) (key : String) : Option Bool := (n.field? key).bind Datum.bool?

/-- The text in a field. -/
def text? (n : Node) (key : String) : Option String := (n.field? key).bind Datum.text?

/-- The name a node carries: of a symbol, a binder, a variable, a reference or a definition. -/
def name? (n : Node) : Option String := n.text? "name"

/-- The same node with a field set. -/
def withField (n : Node) (key : String) (value : Datum) : Node :=
  { n with fields := n.fields.insert key value }

/-- The same node with a child in a slot. -/
def withSlot (n : Node) (slot : String) (child : NodeId) : Node :=
  { n with slots := n.slots.set slot child }

/-- The same node held by a slot of a parent. -/
def heldBy (n : Node) (parent : NodeId) (slot : String) : Node :=
  { n with parent := some parent, parentSlot := some slot }

/-- The same node without a parent. -/
def detached (n : Node) : Node :=
  { n with parent := none, parentSlot := none }

/-- The parameter names of a named function, in order. -/
def parameters (n : Node) : List String :=
  ((n.field? "params").map Datum.texts).getD []

/-- Whether a node stands on its own. -/
def isRoot (n : Node) : Bool := n.parent.isNone

/-- Equality up to the order of the slots. -/
def sameContent (m n : Node) : Bool :=
  m.id == n.id && m.kind == n.kind && m.parent == n.parent && m.parentSlot == n.parentSlot &&
    m.fields == n.fields && m.slots.sameContent n.slots && m.locked == n.locked

end Node

/-- The slot of a named function that holds the argument of a parameter. -/
def parameterSlot (parameter : String) : String := "arg_" ++ parameter

/-- The slot of an array that holds the element at a position. -/
def elementSlot (position : Nat) : String := s!"elem{position}"

end TermForest
