/-!
# Kinds of nodes

The closed set of term kinds, and the tag under which each is written in files.
-/

namespace TermForest

/-- What a node is: a literal, a binder, an operation, and so on. -/
inductive Kind where
  | number
  | boolean
  | string
  | symbol
  | void
  | hole
  | lambda
  | binder
  | var
  | apply
  | binop
  | conditional
  | not
  | array
  | member
  | reference
  | define
  deriving DecidableEq, Repr, Inhabited

namespace Kind

/-- Every kind, once. -/
def all : List Kind :=
  [number, boolean, string, symbol, void, hole, lambda, binder, var, apply, binop,
    conditional, not, array, member, reference, define]

theorem mem_all (k : Kind) : k ∈ all := by
  cases k <;> simp [all]

/-- The tag of a kind in files and messages. -/
def tag : Kind → String
  | .number => "number"
  | .boolean => "boolean"
  | .string => "string"
  | .symbol => "symbol"
  | .void => "void"
  | .hole => "missing"
  | .lambda => "lambda"
  | .binder => "lambdaArg"
  | .var => "lambdaVar"
  | .apply => "apply"
  | .binop => "binop"
  | .conditional => "conditional"
  | .not => "not"
  | .array => "array"
  | .member => "member"
  | .reference => "reference"
  | .define => "define"

/-- The kind written with a tag. -/
def ofTag? (t : String) : Option Kind :=
  all.find? (·.tag = t)

theorem ofTag?_tag (k : Kind) : ofTag? k.tag = some k := by
  cases k <;> decide

theorem tag_of_ofTag? {t : String} {k : Kind} (h : ofTag? t = some k) : k.tag = t := by
  simpa using List.find?_some h

end Kind

end TermForest
