import TermForest.Rule.Names
import TermForest.Rule.Basic

/-!
# Rules of the builtins

For each builtin: what its arguments have to be, and what a call is reduced to. The arguments are
the children of the calling reference, in slot order.
-/

namespace TermForest

/-- The argument at a position of a builtin call. -/
def Node.argument (call : Node) (arguments : List NodeId) (position : Nat) :
    Except Fault NodeId :=
  match arguments[position]? with
  | some id => .ok id
  | none => .error (.malformed (.noArgument call.id position))

namespace Builtin

/-! ### Arguments -/

/-- Refuses a call whose arguments have the wrong types. -/
def check (b : Builtin) (S : Signature) (F : Forest) (call : Node) (arguments : List NodeId) :
    Except Failure Unit :=
  match b with
  | .eat => return
  | .repeat => do
    let count ← call.argument arguments 0
    let function ← call.argument arguments 1
    S.requireType F count .number
    S.requireType F function .lambda
  | .length => do
    S.requireType F (← call.argument arguments 0) .array
  | .concat => do
    S.requireType F (← call.argument arguments 0) .array
    S.requireType F (← call.argument arguments 1) .array

/-! ### Results -/

/-- An array of copies of the given terms. -/
def joined (elements : List NodeId) : Editing NodeId := do
  let id ← Editing.newId
  let entries ← elements.zipIdx.mapM fun (element, position) => do
    let slot := elementSlot position
    let c ← Editing.copyOf element
    Editing.attach c id slot
    return (slot, c)
  Editing.insert <|
    Node.withField { id, kind := .array, slots := .ofList entries } "length"
      (.int (Int64.ofNat elements.length))
  return id

/-- The first phase of a call. A count of `repeat` above `most` is refused; its result is left to
the second phase. -/
def apply (b : Builtin) (most : Int64) (s : State) (call : Node) (arguments : List NodeId) :
    Supply Failure Outcome := do
  match b with
  | .eat =>
    return s.replaceBy { id := ← Supply.take, kind := .void }
  | .repeat =>
    let count ← call.argument arguments 0
    let times ← s.nodes.number count
    if times < 0 ∨ most < times then
      throw (.rejected (.builtin count
        s!"repeat count must be between 0 and {most.toInt}, got {times.toInt}"))
    return .deferred ⟨.repeat, call.id, arguments⟩
  | .length =>
    let array ← s.nodes.find (← call.argument arguments 0)
    let length ← array.needInt "length"
    return s.replaceBy (.ofInt (← Supply.take) length)
  | .concat =>
    let left ← s.nodes.find (← call.argument arguments 0)
    let right ← s.nodes.find (← call.argument arguments 1)
    s.replaceByEdit (joined (left.slots.children ++ right.slots.children))

/-- Applications of copies of a function, the given number of them, one around the other. -/
def applyTimes (function : NodeId) : Nat → NodeId → Editing NodeId
  | 0, body => return body
  | times + 1, body => do
    let body ← Editing.apply (← Editing.copyOf function) body
    applyTimes function times body

/-- The second phase of a `repeat` call: a lambda around the applications. Its variable occurs
nowhere in the function. -/
def repeated (e : Effect) : Editing NodeId := do
  let call ← Editing.find e.node
  let times ← (← get).number (← call.argument e.arguments 0)
  let function ← call.argument e.arguments 1
  let name := nameOutside (← (← get).variableNames function)
  let binder := Node.withField { id := ← Editing.newId, kind := .binder } "name" (.text name)
  let body := Node.withField { id := ← Editing.newId, kind := .var } "name" (.text name)
  Editing.insert binder
  Editing.insert body
  let body ← applyTimes function times.toInt.toNat body.id
  let lambda ← Editing.fill { id := ← Editing.newId, kind := .lambda } "arg" binder.id
  let lambda ← Editing.fill lambda "body" body
  Editing.insert lambda
  return lambda.id

end Builtin

/-- Finishes a deferred call under a signature. -/
def Signature.finish (S : Signature) (F : Forest) (e : Effect) : Supply Fault Replacement :=
  match S.builtin? e.builtin.name with
  | none => throw (.unregistered e.builtin.name)
  | some p =>
    if p.secondPhase then (Builtin.repeated e).replacement F
    else throw (.broken (.noSecondPhase e.builtin.name))

end TermForest
