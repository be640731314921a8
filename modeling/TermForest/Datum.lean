import Std.Data.ExtTreeMap

/-!
# Field values

A node carries named values: truth values, 64-bit integers, texts, and lists of values.
`Fields` keeps them by name, in the order of their names.
-/

namespace TermForest

/-- A value stored in a field of a node. -/
inductive Datum where
  | bool (b : Bool)
  | int (n : Int64)
  | text (s : String)
  | list (items : List Datum)
  deriving Repr, Inhabited

namespace Datum

/-! ### Equality -/

mutual

/-- Equality of values is decided part by part. -/
def decEq : (a b : Datum) → Decidable (a = b)
  | .bool a, .bool b =>
    if h : a = b then isTrue (by rw [h]) else isFalse (by simpa using h)
  | .int a, .int b =>
    if h : a = b then isTrue (by rw [h]) else isFalse (by simpa using h)
  | .text a, .text b =>
    if h : a = b then isTrue (by rw [h]) else isFalse (by simpa using h)
  | .list as, .list bs =>
    match decEqList as bs with
    | isTrue h => isTrue (by rw [h])
    | isFalse h => isFalse (by simpa using h)
  | .bool _, .int _ | .bool _, .text _ | .bool _, .list _ => isFalse nofun
  | .int _, .bool _ | .int _, .text _ | .int _, .list _ => isFalse nofun
  | .text _, .bool _ | .text _, .int _ | .text _, .list _ => isFalse nofun
  | .list _, .bool _ | .list _, .int _ | .list _, .text _ => isFalse nofun

/-- Equality of lists of values is decided item by item. -/
def decEqList : (as bs : List Datum) → Decidable (as = bs)
  | [], [] => isTrue rfl
  | [], _ :: _ => isFalse nofun
  | _ :: _, [] => isFalse nofun
  | a :: as, b :: bs =>
    match decEq a b, decEqList as bs with
    | isTrue h, isTrue h' => isTrue (by rw [h, h'])
    | isFalse h, _ => isFalse fun e => h (List.cons.inj e).1
    | _, isFalse h' => isFalse fun e => h' (List.cons.inj e).2

end

instance : DecidableEq Datum := decEq

/-! ### Parts -/

/-- The integer, if the value is one. -/
def int? : Datum → Option Int64
  | .int n => some n
  | _ => none

/-- The truth value, if the value is one. -/
def bool? : Datum → Option Bool
  | .bool b => some b
  | _ => none

/-- The text, if the value is one. -/
def text? : Datum → Option String
  | .text s => some s
  | _ => none

/-- The items, if the value is a list. -/
def list? : Datum → Option (List Datum)
  | .list items => some items
  | _ => none

/-- The texts among the items of a list, in order; no other value holds any. -/
def texts (d : Datum) : List String :=
  (d.list?.getD []).filterMap text?

end Datum

/-! ### Integers of 64 bits -/

/-- Results of exact arithmetic fit a field only between `-2 ^ 63` and `2 ^ 63 - 1`. -/
def int64? (n : Int) : Option Int64 :=
  if Int64.minValue.toInt ≤ n ∧ n ≤ Int64.maxValue.toInt then some (Int64.ofInt n) else none

/-- Named values, ordered by name. -/
abbrev Fields := Std.ExtTreeMap String Datum

end TermForest
