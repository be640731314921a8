import TermForest.Json.Value
import TermForest.Text.Hex

/-!
# Writing JSON texts

A document is written either on one line or with one item to a line. Both ways differ only in the
blanks between the parts.
-/

namespace TermForest

namespace Json

/-! ### Texts -/

/-- How a character stands in a text: quotes, backslashes and control characters are escaped. -/
def escape (c : Char) : List Char :=
  if c = '"' then ['\\', '"']
  else if c = '\\' then ['\\', '\\']
  else if c = '\n' then ['\\', 'n']
  else if c = '\r' then ['\\', 'r']
  else if c = '\t' then ['\\', 't']
  else if c.toNat = 0x08 then ['\\', 'b']
  else if c.toNat = 0x0C then ['\\', 'f']
  else if c.toNat < 0x20 then '\\' :: 'u' :: '0' :: '0' :: Hex.byte c.toNat.toUInt8
  else [c]

/-- A text in quotes. -/
def quote (s : String) : List Char :=
  '"' :: s.toList.flatMap escape ++ ['"']

/-! ### Documents -/

/-- What stands between the parts of a document. -/
structure Style where
  /-- What stands before an item, and before the closing bracket, at a depth. -/
  gap : Nat → List Char
  /-- What stands between a key and its value. -/
  colon : List Char

/-- Everything on one line, without blanks. -/
def Style.compact : Style := ⟨fun _ => [], [':']⟩

/-- One item to a line, indented by two blanks for each level. -/
def Style.indented : Style := ⟨fun depth => '\n' :: List.replicate (2 * depth) ' ', [':', ' ']⟩

/-- The parts of an array or object between its brackets; without parts there is no gap. -/
def enclose (st : Style) (depth : Nat) (opening closing : Char) (parts : List (List Char)) :
    List Char :=
  if parts = [] then [opening, closing]
  else
    opening :: List.intercalate [','] (parts.map (st.gap (depth + 1) ++ ·)) ++
      st.gap depth ++ [closing]

mutual

/-- A document at a depth. -/
def write (st : Style) (depth : Nat) : Json → List Char
  | .null => ['n', 'u', 'l', 'l']
  | .bool true => ['t', 'r', 'u', 'e']
  | .bool false => ['f', 'a', 'l', 's', 'e']
  | .int n => (toString n).toList
  | .decimal m e => (toString m).toList ++ 'e' :: (toString e).toList
  | .text t => quote (t.getD "")
  | .array items => enclose st depth '[' ']' (writeItems st (depth + 1) items)
  | .object members => enclose st depth '{' '}' (writeMembers st (depth + 1) members)

/-- The items of an array, each for itself. -/
def writeItems (st : Style) (depth : Nat) : List Json → List (List Char)
  | [] => []
  | j :: js => write st depth j :: writeItems st depth js

/-- The members of an object, each for itself. -/
def writeMembers (st : Style) (depth : Nat) : List (Option String × Json) → List (List Char)
  | [] => []
  | (key, j) :: ms =>
    (quote (key.getD "") ++ st.colon ++ write st depth j) :: writeMembers st depth ms

end

/-- A document on one line. -/
def compact (j : Json) : String := String.ofList (j.write .compact 0)

/-- A document with one item to a line. -/
def indented (j : Json) : String := String.ofList (j.write .indented 0)

end Json

end TermForest
