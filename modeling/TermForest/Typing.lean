import TermForest.Forest.Basic

/-!
# What nodes of each kind carry

For each kind: whether it is a value, which fields and slots it has, and its coarse type, which
says where a node may be used.
-/

namespace TermForest

/-! ### Values and expressions -/

/-- A value is done; an expression is still to be reduced. -/
inductive Category where
  | value
  | expression
  deriving DecidableEq, Repr

namespace Kind

/-- Literals, binders, functions, arrays and definitions are values. -/
def category : Kind → Category
  | .number | .boolean | .string | .symbol | .void | .binder | .lambda | .array | .define => .value
  | .hole | .var | .apply | .binop | .conditional | .not | .member | .reference => .expression

/-- The fields that every node of a kind has. -/
def declaredFields : Kind → List String
  | .number | .boolean | .string => ["value"]
  | .symbol | .binder | .var | .define => ["name"]
  | .array => ["length"]
  | .binop => ["op"]
  | .reference => ["name", "params"]
  | .void | .hole | .lambda | .apply | .conditional | .not | .member => []

end Kind

/-- The slots of a node, in order. Those of an array and of a named function follow from its
fields. -/
def Node.declaredSlots (n : Node) : List String :=
  match n.kind with
  | .lambda => ["arg", "body"]
  | .array => (List.range ((n.int? "length").getD 0).toInt.toNat).map elementSlot
  | .define => ["body"]
  | .apply => ["callee", "argument"]
  | .binop => ["left", "right"]
  | .conditional => ["condition", "positive", "negative"]
  | .not => ["value"]
  | .member => ["array", "index"]
  | .reference => n.parameters.map parameterSlot
  | .number | .boolean | .string | .symbol | .void | .hole | .binder | .var => []

/-! ### Types -/

/-- The coarse type of a node. -/
inductive CoarseType where
  | number
  | boolean
  | string
  | symbol
  | lambda
  | array
  | void
  | define
  | hole
  | expression
  deriving DecidableEq, Repr

/-- The name of a type in messages. -/
def CoarseType.name : CoarseType → String
  | .number => "number"
  | .boolean => "boolean"
  | .string => "string"
  | .symbol => "symbol"
  | .lambda => "lambda"
  | .array => "array"
  | .void => "void"
  | .define => "define"
  | .hole => "hole"
  | .expression => "expression"

namespace Node

/-- The first parameter of a named function whose slot still holds a hole, with the hole; `peek`
shows the node of a child. -/
def openParameter? (n : Node) (peek : NodeId → Option Node) : Option (String × NodeId) :=
  n.parameters.findSome? fun parameter => do
    let slot := parameterSlot parameter
    let child ← n.slots.get? slot
    let held ← peek child
    if held.kind = .hole then some (slot, child) else none

/-- The type of a node. A named function with an open parameter is a function like a lambda. -/
def coarseType (n : Node) (peek : NodeId → Option Node) : CoarseType :=
  match n.kind with
  | .number => .number
  | .boolean => .boolean
  | .string => .string
  | .symbol => .symbol
  | .void => .void
  | .lambda => .lambda
  | .array => .array
  | .define => .define
  | .hole => .hole
  | .reference => if (n.openParameter? peek).isSome then .lambda else .expression
  | .binder | .var | .apply | .binop | .conditional | .not | .member => .expression

end Node

/-- The first open parameter of a named function in a forest. -/
def Forest.openParameter? (F : Forest) (n : Node) : Option (String × NodeId) :=
  n.openParameter? F.get?

end TermForest
