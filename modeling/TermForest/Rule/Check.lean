import TermForest.Rule.Builtin
import TermForest.Rule.Calls
import TermForest.Rule.Operator

/-!
# Checks before a reduction

Each kind of node says when it may be reduced. A node that may not is refused with the reason; a
node without the fields and slots of its kind is a fault.
-/

namespace TermForest

namespace Signature

/-- A callee has to be a lambda with a proper binder, or a known function with an open parameter. -/
def checkApply (S : Signature) (s : State) (n : Node) : Except Failure Unit := do
  let callee ← n.needSlot "callee"
  let f ← s.nodes.find callee
  match f.kind with
  | .hole => refuse (.emptyHole callee)
  | .lambda =>
    let arg ← f.needSlot "arg"
    let binder ← s.nodes.find arg
    match binder.kind with
    | .binder => return
    | .hole => refuse (.emptyHole arg)
    | other => refuse (.wrongType arg Kind.binder.tag other.tag)
  | .reference =>
    let name ← f.needText "name"
    if (S.builtin? name).isNone ∧ (s.definition? name).isNone then
      refuse (.unknownName callee name)
    if (s.nodes.openParameter? f).isNone then refuse (.fullyBound callee)
  | _ =>
    let actual ← S.coarseType s.nodes callee
    refuse (.wrongType callee CoarseType.lambda.name actual.name)

/-- The operands have to fit the operator and each other. -/
def checkBinop (S : Signature) (s : State) (n : Node) : Except Failure Unit := do
  let op ← n.needText "op"
  let left ← n.needSlot "left"
  let right ← n.needSlot "right"
  match Operator.ofText? op with
  | some .add =>
    S.requireOneOf s.nodes left [.number, .string] "number or string"
    S.requireType s.nodes right (← S.coarseType s.nodes left)
  | some .equal | some .unequal =>
    S.requireOneOf s.nodes left [.number, .boolean, .string, .symbol] "comparable value"
    S.requireType s.nodes right (← S.coarseType s.nodes left)
  | some op =>
    S.requireType s.nodes left .number
    S.requireType s.nodes right .number
    if op = .div then
      if (← s.nodes.number right) = 0 then refuse (.builtin right "division by zero")
  | none => throw (.fatal (.malformed (.strangeOperator op n.id)))

/-- An index has to lie within its array. -/
def checkMember (S : Signature) (s : State) (n : Node) : Except Failure Unit := do
  let array ← n.needSlot "array"
  let index ← n.needSlot "index"
  S.requireType s.nodes array .array
  S.requireType s.nodes index .number
  let position ← s.nodes.number index
  let length ← (← s.nodes.find array).needInt "length"
  if position < 0 ∨ length ≤ position then
    refuse (.builtin index
      s!"index {position.toInt} is out of bounds for an array of length {length.toInt}")

/-- A call has to name a builtin or a definition that does not call itself, with no open parameter
left. -/
def checkReference (S : Signature) (s : State) (n : Node) : Except Failure Unit := do
  let name ← n.needText "name"
  match S.builtin? name with
  | some p =>
    let expected := p.builtin.parameters.length
    if n.parameters.length ≠ expected then
      refuse (.parameterCount n.id expected n.parameters.length)
    match s.nodes.openParameter? n with
    | some (_, hole) => refuse (.emptyHole hole)
    | none => p.builtin.check S s.nodes n n.slots.children
  | none =>
    if (s.definition? name).isNone then refuse (.unknownName n.id name)
    if ← s.callsItself name then refuse (.circularCall n.id name)
    match s.nodes.openParameter? n with
    | some (_, hole) => refuse (.emptyHole hole)
    | none => return

/-- Refuses to reduce a node that is not ready for it. -/
def check (S : Signature) (s : State) (n : Node) : Except Failure Unit :=
  match n.kind with
  | .hole => refuse (.emptyHole n.id)
  | .var => do
    let name ← n.needText "name"
    refuse (.unknownName n.id name)
  | .apply => S.checkApply s n
  | .binop => S.checkBinop s n
  | .conditional => do
    S.requireType s.nodes (← n.needSlot "condition") .boolean
  | .not => do
    S.requireType s.nodes (← n.needSlot "value") .boolean
  | .member => S.checkMember s n
  | .reference => S.checkReference s n
  | .number | .boolean | .string | .symbol | .void | .binder | .lambda | .array | .define => return

end Signature

end TermForest
