/-!
# JSON documents

A document as it stands in a text: objects keep the order and the repetitions of their members, and
whole numbers are told apart from decimal ones.
-/

namespace TermForest

/-- A JSON document. A text is `none` if its escapes do not make up characters: a half of a
surrogate pair stands alone. -/
inductive Json where
  | null
  | bool (b : Bool)
  /-- A number without fraction and exponent, from `-2 ^ 63` to `2 ^ 64 - 1`. -/
  | int (n : Int)
  /-- The absolute value `significand * 10 ^ exponent` of any other number, and of `-0`. -/
  | decimal (significand : Nat) (exponent : Int)
  | text (t : Option String)
  | array (items : List Json)
  | object (members : List (Option String × Json))
  deriving Repr, Inhabited

namespace Json

/-- A text made of characters. -/
def str (s : String) : Json := .text (some s)

/-- An object with members in the given order. -/
def record (members : List (String × Json)) : Json :=
  .object (members.map fun m => (some m.1, m.2))

/-- A number that is an id or a count. -/
def nat (n : Nat) : Json := .int n

end Json

end TermForest
