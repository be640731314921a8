import TermForest.Builtin
import TermForest.Forest.Editing
import TermForest.Signature
import TermForest.State

/-!
# Outcomes of reduction rules

What a rule makes of a node, and the checks that rules share.
-/

namespace TermForest

/-- What stands in place of a reduced node: a subtree of a forest that also holds all that was there
before. -/
structure Replacement where
  forest : Forest
  root : NodeId
  deriving DecidableEq

/-- A builtin call whose result is produced in a second phase. -/
structure Effect where
  builtin : Builtin
  /-- The reference that calls the builtin. -/
  node : NodeId
  arguments : List NodeId
  deriving DecidableEq, Repr

/-- What a rule makes of a node. -/
inductive Outcome where
  | replaced (r : Replacement)
  | deferred (e : Effect)
  | noRule
  deriving DecidableEq

/-- One new node in place of the reduced one. -/
def State.replaceBy (s : State) (n : Node) : Outcome :=
  .replaced ⟨s.nodes.insert n, n.id⟩

/-- The subtree at the id that an edit of a forest gives. -/
def Editing.replacement (edit : Editing NodeId) (F : Forest) : Supply Fault Replacement := do
  let (root, forest) ← edit.run F
  return ⟨forest, root⟩

/-- What an edit of the forest of a state gives in place of the reduced node. -/
def State.replaceByEdit (s : State) (edit : Editing NodeId) : Supply Fault Outcome := do
  return .replaced (← edit.replacement s.nodes)

/-! ### New nodes -/

namespace Node

/-- A truth value. -/
def ofBool (id : NodeId) (b : Bool) : Node :=
  Node.withField { id, kind := .boolean } "value" (.bool b)

/-- A number. -/
def ofInt (id : NodeId) (n : Int64) : Node :=
  Node.withField { id, kind := .number } "value" (.int n)

/-- A string. -/
def ofText (id : NodeId) (s : String) : Node :=
  Node.withField { id, kind := .string } "value" (.text s)

end Node

/-! ### Shared checks -/

/-- A refused step. -/
def refuse {α : Type} (why : Rejection) : Except Failure α := .error (.rejected why)

/-- Refuses a node that has none of the permitted types; a hole is refused as such. -/
def Signature.requireOneOf (S : Signature) (F : Forest) (id : NodeId) (permitted : List CoarseType)
    (expected : String) : Except Failure Unit := do
  let actual ← S.coarseType F id
  if actual = .hole then refuse (.emptyHole id)
  else if actual ∈ permitted then return
  else refuse (.wrongType id expected actual.name)

/-- Refuses a node that does not have the one permitted type. -/
def Signature.requireType (S : Signature) (F : Forest) (id : NodeId) (permitted : CoarseType) :
    Except Failure Unit :=
  S.requireOneOf F id [permitted] permitted.name

/-- The number at an id. -/
def Forest.number (F : Forest) (id : NodeId) : Except Fault Int64 := do
  let n ← F.find id
  n.needInt "value"

end TermForest
