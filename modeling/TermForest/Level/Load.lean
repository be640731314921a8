import Std.Data.ExtTreeSet
import TermForest.Forest.Editing
import TermForest.Level.Term
import TermForest.Rule.Operator
import TermForest.Signature
import TermForest.State

/-!
# Levels

A level lists the terms of each area. Loading a level builds its starting state: every term gets a
node under a new id, holes fill the slots that the file leaves out, and definitions are locked.
-/

namespace TermForest

/-- The terms of the four areas of a level. -/
structure Level where
  board : List Term := []
  toolbox : List Term := []
  defs : List Term := []
  goal : List Term := []
  deriving DecidableEq

/-- The levels of a file. -/
structure LevelFile where
  levels : List Level
  deriving DecidableEq

/-! ### Fields -/

/-- Whether a value is of the sort that a declared field takes. -/
def Kind.takes (k : Kind) (key : String) (value : Datum) : Bool :=
  if key = "length" ∨ (k = .number ∧ key = "value") then value.int?.isSome
  else if k = .boolean ∧ key = "value" then value.bool?.isSome
  else if key = "params" then value.list?.any fun items => items.all fun d => d.text?.isSome
  else value.text?.isSome

namespace Node

/-- The fields of a node for a term: those that the tag implies, unless the term sets them itself;
and a reference without parameters says so. -/
def loadedFields (k : Kind) (implied : List (String × Datum)) (own : Fields) : Fields :=
  let given := own.foldl (fun fields key value => fields.insert key value)
    (implied.foldl (fun fields e => fields.insert e.1 e.2) ∅)
  if k = .reference ∧ !given.contains "params" then given.insert "params" (.list []) else given

/-- A node whose declared fields are absent or of the wrong sort is a fault. -/
def checkFields (n : Node) : Except Fault Unit := do
  if let some key := n.kind.declaredFields.find? fun key => (n.field? key).isNone then
    throw (.malformed (.absentField n.kind key))
  if let some key := n.kind.declaredFields.find? fun key =>
      (n.field? key).any (!n.kind.takes key ·) then
    throw (.malformed (.misshapenField n.kind key))
  if n.kind = .binop then
    let op := (n.text? "op").getD ""
    if (Operator.ofText? op).isNone then throw (.malformed (.unknownOperator op))
  if n.kind = .array ∧ !(n.int? "length").any (0 ≤ ·) then
    throw (.malformed .negativeLength)

end Node

/-! ### Terms -/

/-- Builds a hole. -/
def loadHole : Editing NodeId := do
  let id ← Editing.newId
  Editing.insert { id, kind := .hole }
  return id

mutual

/-- Builds the tree of a term into a forest. A node gets its id before what is below it does, and
its slots are filled in their own order. -/
def Term.load (S : Signature) : Term → Editing NodeId
  | .mk _ tag fields parts => do
    let (kind, implied) ← S.kindOfTag tag
    let id ← Editing.newId
    let n : Node := { id, kind, fields := Node.loadedFields kind implied fields }
    n.checkFields
    let slots ← S.declaredSlots n
    let known := Std.ExtTreeSet.ofList slots
    if let some slot := parts.names.find? (· ∉ known) then
      throw (.malformed (.extraSlot kind slot))
    let loaders := Std.ExtTreeMap.ofList (parts.loaders S)
    let entries ← slots.mapM fun slot => do
      let child ← loaders.getD slot loadHole
      Editing.attach child id slot
      return (slot, child)
    Editing.insert { n with slots := .ofList entries }
    return id

/-- What builds the term in each slot. -/
def Terms.loaders (S : Signature) : Terms → List (String × Editing NodeId)
  | .nil => []
  | .cons slot t rest => (slot, t.load S) :: rest.loaders S

end

/-! ### Levels -/

/-- Locks a definition with all that is below it. Anything else is a fault. -/
def lockDefinition (root : NodeId) : Editing Unit := do
  let n ← Editing.find root
  if n.kind ≠ .define then throw (.malformed (.notDefinition n.kind))
  for id in ← (← get).idsUnder root do
    let n ← Editing.find id
    Editing.insert { n with locked := true }

/-- Builds the state in which a level starts, around a forest of the terms that are there already.
The goal gets its ids before the definitions do. -/
def Level.build (l : Level) (S : Signature) (index : Nat) : Editing State := do
  let board ← l.board.mapM (Term.load S)
  let toolbox ← l.toolbox.mapM (Term.load S)
  let goal ← l.goal.mapM (Term.load S)
  let defs ← l.defs.mapM (Term.load S)
  defs.forM lockDefinition
  return {
    nodes := ← get, board, toolbox, defs, goal
    level := index
    mode := .gameplay
    added := []
    removed := [] }

/-- The state in which a level starts. -/
def Level.load (l : Level) (S : Signature) (index : Nat) : Supply Fault State :=
  (l.build S index).run' ∅

/-- The state in which the level at a position starts. -/
def LevelFile.load (L : LevelFile) (S : Signature) (index : Nat) : Supply Fault State :=
  match L.levels[index]? with
  | some l => l.load S index
  | none => throw (.unknownLevel index)

end TermForest
