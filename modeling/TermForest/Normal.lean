import TermForest.Forest.Tree
import TermForest.Signature

/-!
# Normal terms and redexes

Some children of a node are strict: they have to be normal before the node itself is reduced. A term
is normal when nothing in it is left to do; otherwise its redex is found by going down through
strict children that are not yet normal.
-/

namespace TermForest

/-- The strict children of a node in the order of evaluation; `peek` shows the node of a child. A
named function that is applied collects arguments, so it is not strict then. -/
def Node.strictChildren (n : Node) (peek : NodeId → Option Node) : Except Fault (List NodeId) :=
  match n.kind with
  | .apply => do
    let callee ← n.needSlot "callee"
    let argument ← n.needSlot "argument"
    match peek callee with
    | none => .error (.dangling callee)
    | some f =>
      if f.kind = .reference ∧ f.parameters ≠ [] then return [argument]
      else return [callee, argument]
  | .conditional => do
    let condition ← n.needSlot "condition"
    return [condition]
  | .array | .binop | .not | .member | .reference | .hole | .var => .ok n.slots.children
  | .number | .boolean | .string | .symbol | .void | .binder | .lambda | .define => .ok []

namespace Tree

/-- Whether a term is normal: a value whose strict children are normal, or a named function that
still has an open parameter. -/
def isNormal (S : Signature) : Tree → Except Fault Bool
  | .absent id => .error (.dangling id)
  | .endless id => .error (.broken (.endlessSlots id))
  | .node root below => do
    let peek := fun child => (below child).root?
    S.requireKind root.kind
    match root.kind.category with
    | .expression => return root.coarseType peek = .lambda
    | .value => (← root.strictChildren peek).allM fun child => (below child).isNormal S

/-- The node that a step on a term reduces: the first strict child that is not normal is entered,
and an expression all of whose strict children are normal is reduced itself. Nothing locked is
entered. -/
def redex (S : Signature) : Tree → Except Fault (Option NodeId)
  | .absent id => .error (.dangling id)
  | .endless id => .error (.broken (.endlessSlots id))
  | .node root below =>
    if root.locked then .ok none else do
      S.requireKind root.kind
      let strict ← root.strictChildren fun child => (below child).root?
      match ← strict.findM? fun child => return !(← (below child).isNormal S) with
      | some child => (below child).redex S
      | none =>
        match root.kind.category with
        | .expression => return some root.id
        | .value => return none

end Tree

namespace Signature

/-- Whether the term at an id is normal. -/
def isNormal (S : Signature) (F : Forest) (id : NodeId) : Except Fault Bool :=
  (F.tree id).isNormal S

/-- The node that a step on the term at an id reduces. -/
def redex (S : Signature) (F : Forest) (id : NodeId) : Except Fault (Option NodeId) :=
  (F.tree id).redex S

end Signature

end TermForest
