import TermForest.Text.Extending
import TermForest.Text.Hex
import TermForest.Text.Unprintable

/-!
# Quoted texts

A text in quotes on one line, in which every character can be told: those that cannot be seen by
themselves are written by their code points.
-/

namespace TermForest

namespace Text

/-- Whether a character is a Hangul filler: a letter that is shown as nothing. -/
def isFiller (c : Char) : Bool := c.toNat ∈ [0x115F, 0x1160, 0x3164, 0xFFA0]

/-- Whether a character is a half-width sound mark: it extends the letter before it, but takes a
place of its own. -/
def isSoundMark (c : Char) : Bool := c.toNat = 0xFF9E ∨ c.toNat = 0xFF9F

/-- Whether a character cannot be seen by itself. -/
def isHidden (c : Char) : Bool :=
  isUnprintable c || isFiller c || (isExtending c && !isSoundMark c)

/-- How a character stands in a quoted text. -/
def escape (c : Char) : List Char :=
  if c = '\x00' then ['\\', '0']
  else if c = '\t' then ['\\', 't']
  else if c = '\r' then ['\\', 'r']
  else if c = '\n' then ['\\', 'n']
  else if c = '\\' then ['\\', '\\']
  else if c = '"' then ['\\', '"']
  else if 0x20 ≤ c.toNat ∧ c.toNat < 0x7F then [c]
  else if isHidden c then '\\' :: 'u' :: '{' :: Hex.digits c.toNat ++ ['}']
  else [c]

/-- A text in quotes. -/
def quoted (s : String) : String :=
  String.ofList ('"' :: s.toList.flatMap escape ++ ['"'])

end Text

end TermForest
