import TermForest.Datum

/-!
# Binary operators

The eight operators of a binary operation and what they make of numbers. Arithmetic is exact on
integers of 64 bits; a result outside their range is none.
-/

namespace TermForest

/-- A binary operator. -/
inductive Operator where
  | add
  | sub
  | mul
  | div
  | less
  | greater
  | equal
  | unequal
  deriving DecidableEq, Repr

namespace Operator

/-- Every operator, once. -/
def all : List Operator := [.add, .sub, .mul, .div, .less, .greater, .equal, .unequal]

/-- How an operator is written. -/
def text : Operator → String
  | .add => "+"
  | .sub => "-"
  | .mul => "*"
  | .div => "/"
  | .less => "<"
  | .greater => ">"
  | .equal => "=="
  | .unequal => "!="

/-- The operator written in this way. -/
def ofText? (s : String) : Option Operator := all.find? (·.text = s)

theorem ofText?_text (op : Operator) : ofText? op.text = some op := by
  cases op <;> decide

theorem ofText?_eq_some_iff {s : String} {op : Operator} : ofText? s = some op ↔ s = op.text := by
  constructor
  · intro h
    exact (by simpa using List.find?_some h : op.text = s).symm
  · rintro rfl
    exact op.ofText?_text

/-- What an operator makes of two numbers, as a number. Division drops the fraction. -/
def calculate? (op : Operator) (a b : Int64) : Option Int64 :=
  match op with
  | .add => int64? (a.toInt + b.toInt)
  | .sub => int64? (a.toInt - b.toInt)
  | .mul => int64? (a.toInt * b.toInt)
  | .div => if b.toInt = 0 then none else int64? (a.toInt.tdiv b.toInt)
  | .less | .greater | .equal | .unequal => none

end Operator

end TermForest
