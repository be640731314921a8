import TermForest.Node

/-!
# Rejections and faults

A step can fail in two ways. A *rejection* is the player's doing: it names a node and is kept beside
the state. A *fault* is a broken promise of the content or of the caller, and ends the step.
-/

namespace TermForest

/-! ### Rejections -/

/-- Why a step on a node is refused. -/
inductive Rejection where
  | wrongType (node : NodeId) (expected actual : String)
  | notOnBoard (node : NodeId)
  | emptyHole (node : NodeId)
  | unknownName (node : NodeId) (name : String)
  | circularCall (node : NodeId) (name : String)
  | fullyBound (node : NodeId)
  | parameterCount (node : NodeId) (expected actual : Nat)
  | builtin (node : NodeId) (text : String)
  deriving DecidableEq, Repr

namespace Rejection

/-- The node a rejection names. -/
def node : Rejection → NodeId
  | .wrongType node .. | .notOnBoard node | .emptyHole node | .unknownName node _
  | .circularCall node _ | .fullyBound node | .parameterCount node .. | .builtin node _ => node

/-- The text shown to the player. -/
def message : Rejection → String
  | .wrongType node expected actual =>
    s!"Wrong type at node {node}: expected {expected}, found {actual}"
  | .notOnBoard node => s!"Node {node} is not on the board"
  | .emptyHole node => s!"Node {node} is an empty hole"
  | .unknownName node name => s!"Unknown name '{name}' at node {node}"
  | .circularCall node name => s!"Circular call to '{name}' at node {node}"
  | .fullyBound node => s!"Node {node} already has all of its arguments"
  | .parameterCount node expected actual =>
    s!"Builtin at node {node} takes {expected} parameters, found {actual}"
  | .builtin node text => s!"Builtin error at node {node}: {text}"

end Rejection

/-! ### Faults -/

/-- What is wrong with a malformed term. -/
inductive Flaw where
  /-- A node lacks a slot that its kind needs. -/
  | noSlot (kind : Kind) (node : NodeId) (slot : String)
  /-- A node lacks a field, or the field holds another sort of value. -/
  | noField (kind : Kind) (node : NodeId) (key : String)
  /-- A node applies an operator that does not exist. -/
  | strangeOperator (op : String) (node : NodeId)
  /-- A reference to a builtin has too few children. -/
  | noArgument (node : NodeId) (position : Nat)
  /-- A term of a file fills a slot that its kind does not have. -/
  | extraSlot (kind : Kind) (slot : String)
  /-- A term of a file leaves out a field. -/
  | absentField (kind : Kind) (key : String)
  /-- A term of a file has a field of the wrong sort. -/
  | misshapenField (kind : Kind) (key : String)
  /-- A term of a file applies an operator that does not exist. -/
  | unknownOperator (op : String)
  /-- An array of a file has a negative length. -/
  | negativeLength
  /-- The definitions of a level hold something else. -/
  | notDefinition (kind : Kind)
  deriving DecidableEq, Repr

/-- The text of a flaw. -/
def Flaw.message : Flaw → String
  | .noSlot kind node slot => s!"{kind.tag} node {node} has no '{slot}' slot"
  | .noField kind node key => s!"{kind.tag} node {node} has no usable '{key}' field"
  | .strangeOperator op node => s!"unknown operator '{op}' on node {node}"
  | .noArgument node position => s!"builtin reference {node} is missing argument {position}"
  | .extraSlot kind slot => s!"{kind.tag} term has no '{slot}' slot"
  | .absentField kind key => s!"{kind.tag} term is missing field '{key}'"
  | .misshapenField kind key => s!"{kind.tag} term has a '{key}' field of the wrong type"
  | .unknownOperator op => s!"unknown operator '{op}'"
  | .negativeLength => "array length must be a non-negative integer"
  | .notDefinition kind => s!"definition area holds a {kind.tag} node"

/-- A property that the forest or the caller had to keep and did not. -/
inductive Breach where
  /-- The parent links above a node run in a circle. -/
  | endlessParents (node : NodeId)
  /-- The slots below a node run in a circle. -/
  | endlessSlots (node : NodeId)
  /-- A node has a parent but does not say in which slot. -/
  | noParentSlot (node parent : NodeId)
  /-- A named function to be given an argument has no free parameter. -/
  | noOpenParameter (reference : NodeId)
  /-- A hole to be filled is not held by a slot. -/
  | looseHole (hole : NodeId)
  /-- A deferred effect belongs to a builtin that has no second phase. -/
  | noSecondPhase (builtin : String)
  /-- A timeline must keep at least one snapshot. -/
  | noHistory
  /-- A revision refused a node. -/
  | refused (node : NodeId)
  deriving DecidableEq, Repr

/-- The text of a breach. -/
def Breach.message : Breach → String
  | .endlessParents node => s!"parent chain from node {node} does not terminate"
  | .endlessSlots node => s!"slots below node {node} do not terminate"
  | .noParentSlot node parent => s!"node {node} has parent {parent} but no parent field"
  | .noOpenParameter reference => s!"reference {reference} has no open parameter"
  | .looseHole hole => s!"hole {hole} on the board has no parent slot"
  | .noSecondPhase builtin => s!"builtin '{builtin}' cannot defer"
  | .noHistory => "history_limit must be at least 1"
  | .refused node => s!"mapper refused {node}"

/-- What ends a step, or a whole run, for good. -/
inductive Fault where
  /-- An id that no node has. -/
  | dangling (node : NodeId)
  /-- A kind or builtin outside the signature. -/
  | unregistered (name : String)
  /-- A tag that is neither a kind nor an alias. -/
  | unknownTag (tag : String)
  | malformed (flaw : Flaw)
  | unknownLevel (index : Nat)
  /-- A step prepared for another state than the present one. -/
  | staleStep (target : NodeId)
  | broken (breach : Breach)
  /-- A text that does not follow its format. -/
  | format
  /-- A file that cannot be read. -/
  | unreadable
  deriving DecidableEq, Repr

/-- The text of a fault. -/
def Fault.message : Fault → String
  | .dangling node => s!"Dangling node id: {node}"
  | .unregistered name => s!"No type descriptor registered for '{name}'"
  | .unknownTag tag => s!"Unknown node tag: {tag}"
  | .malformed flaw => s!"Malformed term: {flaw.message}"
  | .unknownLevel index => s!"Level not found: {index}"
  | .staleStep target =>
    s!"Step on node {target} was begun against a state that is no longer present"
  | .broken breach => s!"Invariant violation: {breach.message}"
  | .format => "Format error"
  | .unreadable => "IO error"

/-! ### Both -/

/-- How a step fails. -/
inductive Failure where
  | rejected (why : Rejection)
  | fatal (fault : Fault)
  deriving DecidableEq, Repr

/-- The text of a failure. -/
def Failure.message : Failure → String
  | .rejected why => why.message
  | .fatal fault => fault.message

/-- A part that can only end in a fault stands inside one that can also be rejected. -/
instance : MonadLift (Except Fault) (Except Failure) where
  monadLift
    | .ok a => .ok a
    | .error fault => .error (.fatal fault)

/-- The child in a slot that the kind of a node needs. -/
def Node.needSlot (n : Node) (slot : String) : Except Fault NodeId :=
  match n.slots.get? slot with
  | some child => .ok child
  | none => .error (.malformed (.noSlot n.kind n.id slot))

/-- The text in a field that the kind of a node needs. -/
def Node.needText (n : Node) (key : String) : Except Fault String :=
  match n.text? key with
  | some s => .ok s
  | none => .error (.malformed (.noField n.kind n.id key))

/-- The integer in a field that the kind of a node needs. -/
def Node.needInt (n : Node) (key : String) : Except Fault Int64 :=
  match n.int? key with
  | some i => .ok i
  | none => .error (.malformed (.noField n.kind n.id key))

/-- The truth value in a field that the kind of a node needs. -/
def Node.needBool (n : Node) (key : String) : Except Fault Bool :=
  match n.bool? key with
  | some b => .ok b
  | none => .error (.malformed (.noField n.kind n.id key))

end TermForest
