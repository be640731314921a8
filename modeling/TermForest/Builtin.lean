/-!
# Builtin functions

The functions that a reference can call without a definition.
-/

namespace TermForest

/-- A builtin function. -/
inductive Builtin where
  /-- Consumes its argument and leaves nothing. -/
  | eat
  /-- The function that applies another one a number of times. -/
  | repeat
  /-- The length of an array. -/
  | length
  /-- Two arrays joined into one. -/
  | concat
  deriving DecidableEq, Repr

namespace Builtin

/-- Every builtin, once. -/
def all : List Builtin := [.eat, .repeat, .length, .concat]

/-- The name under which a builtin is called. -/
def name : Builtin → String
  | .eat => "eat"
  | .repeat => "repeat"
  | .length => "length"
  | .concat => "concat"

/-- The parameters of a builtin, in order. -/
def parameters : Builtin → List String
  | .eat => ["food"]
  | .repeat => ["n", "f"]
  | .length => ["array"]
  | .concat => ["left", "right"]

/-- Whether the result of a builtin is produced in a second phase. -/
def hasSecondPhase : Builtin → Bool
  | .repeat => true
  | .eat | .length | .concat => false

end Builtin

end TermForest
