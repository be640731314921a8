import TermForest.Rule.Builtin
import TermForest.Rule.Operator
import TermForest.Rule.Substitute

/-!
# Reduction of single nodes

What each kind of expression is reduced to once its strict slots are normal and it has passed its
check.
-/

namespace TermForest

namespace State

/-- An application substitutes into a lambda, or gives a named function its next argument. -/
def reduceApply (s : State) (n : Node) : Supply Fault Outcome := do
  let callee ← n.needSlot "callee"
  let argument ← n.needSlot "argument"
  let f ← s.nodes.find callee
  match f.kind with
  | .lambda => s.replaceByEdit (Editing.applyLambda f argument)
  | .reference => s.replaceByEdit (Editing.supplyArgument f argument)
  | _ => return .noRule

/-- A binary operation compares terms, joins strings, or calculates. -/
def reduceBinop (s : State) (n : Node) : Supply Failure Outcome := do
  let op ← n.needText "op"
  let left ← n.needSlot "left"
  let right ← n.needSlot "right"
  let l ← s.nodes.find left
  let r ← s.nodes.find right
  match Operator.ofText? op with
  | some .equal =>
    let same ← sameShape s.nodes left s.nodes right
    return s.replaceBy (.ofBool (← Supply.take) same)
  | some .unequal =>
    let same ← sameShape s.nodes left s.nodes right
    return s.replaceBy (.ofBool (← Supply.take) !same)
  | some .add =>
    if l.kind = .string then
      let first ← l.needText "value"
      let last ← r.needText "value"
      return s.replaceBy (.ofText (← Supply.take) (first ++ last))
    else calculate n .add l r
  | some op => calculate n op l r
  | none => throw (.fatal (.malformed (.strangeOperator op n.id)))
where
  /-- The outcome of an operator on two numbers. -/
  calculate (n : Node) (op : Operator) (l r : Node) : Supply Failure Outcome := do
    let a ← l.needInt "value"
    let b ← r.needInt "value"
    match op with
    | .less => return s.replaceBy (.ofBool (← Supply.take) (a < b))
    | .greater => return s.replaceBy (.ofBool (← Supply.take) (b < a))
    | _ =>
      match op.calculate? a b with
      | some value => return s.replaceBy (.ofInt (← Supply.take) value)
      | none => throw (.rejected (.builtin n.id "arithmetic overflow"))

/-- A conditional leaves a copy of one of its branches. -/
def reduceConditional (s : State) (n : Node) : Supply Fault Outcome := do
  let condition ← s.nodes.find (← n.needSlot "condition")
  let branch ← n.needSlot (if ← condition.needBool "value" then "positive" else "negative")
  s.replaceByEdit (Editing.copyOf branch)

/-- A negation leaves the other truth value. -/
def reduceNot (s : State) (n : Node) : Supply Fault Outcome := do
  let operand ← s.nodes.find (← n.needSlot "value")
  let value ← operand.needBool "value"
  return s.replaceBy (.ofBool (← Supply.take) !value)

/-- An access to an array leaves a copy of the element. -/
def reduceMember (s : State) (n : Node) : Supply Fault Outcome := do
  let array ← s.nodes.find (← n.needSlot "array")
  let position ← s.nodes.number (← n.needSlot "index")
  let element ← array.needSlot (elementSlot position.toInt.toNat)
  s.replaceByEdit (Editing.copyOf element)

/-- A copy of the body of a definition, applied to copies of arguments one after the other. -/
def unfolding (definition : Node) (arguments : List NodeId) : Editing NodeId := do
  let body ← Editing.copyOf (← definition.needSlot "body")
  arguments.foldlM
    (fun callee argument => do Editing.apply callee (← Editing.copyOf argument))
    body

/-- A reference runs a builtin or unfolds a definition. -/
def reduceReference (s : State) (S : Signature) (most : Int64) (n : Node) :
    Supply Failure Outcome := do
  let name ← n.needText "name"
  match S.builtin? name with
  | some p => p.builtin.apply most s n n.slots.children
  | none =>
    match s.definition? name with
    | none => throw (.rejected (.unknownName n.id name))
    | some d => s.replaceByEdit (unfolding d n.slots.children)

/-- What a node is reduced to. The largest count that `repeat` takes is `most`. -/
def reduce (s : State) (S : Signature) (most : Int64) (n : Node) : Supply Failure Outcome :=
  match n.kind with
  | .apply => s.reduceApply n
  | .binop => s.reduceBinop n
  | .conditional => s.reduceConditional n
  | .not => s.reduceNot n
  | .member => s.reduceMember n
  | .reference => s.reduceReference S most n
  | .number | .boolean | .string | .symbol | .void | .hole | .lambda | .binder | .var | .array
  | .define => return .noRule

end State

end TermForest
