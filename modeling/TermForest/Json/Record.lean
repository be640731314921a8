import TermForest.Datum
import TermForest.Json.Decimal
import TermForest.Json.Value

/-!
# Taking documents apart

Readers turn documents into values. They count how deep arrays and objects are nested: `room` is how
many more levels may be entered. A record stands either as an object, with its fields by name, or as
an array, with its fields in order.
-/

namespace TermForest

namespace Json

/-- How many levels of arrays and objects a document may have. -/
def maxDepth : Nat := 127

/-- Reads a value from a document that may have the given number of levels. -/
abbrev Reader (α : Type) : Type := Nat → Json → Option α

namespace Reader

/-! ### Plain values -/

/-- A truth value. -/
def bool : Reader Bool
  | _, .bool b => some b
  | _, _ => none

/-- A text. -/
def text : Reader String
  | _, .text t => t
  | _, _ => none

/-- A whole number of 64 bits with a sign. -/
def int64 : Reader Int64
  | _, .int n => int64? n
  | _, _ => none

/-- A whole number from 0 to `2 ^ 64 - 1`. -/
def nat64 : Reader Nat
  | _, .int n => if 0 ≤ n ∧ n.toNat < UInt64.size then some n.toNat else none
  | _, _ => none

/-- A name out of a list: the text, or an object that has it as its only key, with nothing under
it. -/
def name {α : Type} (find : String → Option α) : Reader α
  | _, .text (some s) => find s
  | _ + 1, .object [(some s, .null)] => find s
  | _, _ => none

/-! ### Compound values -/

/-- A list of values. -/
def list {α : Type} (item : Reader α) : Reader (List α)
  | room + 1, .array items => items.mapM (item room)
  | _, _ => none

/-- Values by key, in the order of the text, with repetitions. -/
def entries {α : Type} (item : Reader α) : Reader (List (String × α))
  | room + 1, .object members =>
    members.mapM fun m => return (← m.1, ← item room m.2)
  | _, _ => none

/-- The fields of a record of which some may be missing: of an object those with one of the given
names, none of them twice; of an array the leading ones. -/
def fields (names : List String) : Json → Option (List (String × Json))
  | .array items => if items.length ≤ names.length then some (names.zip items) else none
  | .object members => do
    let members ← members.mapM fun m => return (← m.1, m.2)
    let known := members.filter (·.1 ∈ names)
    if (known.map Prod.fst).Nodup then return known else none
  | _ => none

/-- A record: its fields are read with one level less. -/
def record {α : Type} (names : List String) (build : Nat → List (String × Json) → Option α) :
    Reader α
  | room + 1, j => do build room (← fields names j)
  | 0, _ => none

end Reader

/-! ### Fields of records -/

/-- A field that has to be there. -/
def need {α : Type} (item : Reader α) (room : Nat) (fields : List (String × Json)) (key : String) :
    Option α := do
  item room (← fields.lookup key)

/-- A field with a value in case it is missing. -/
def needOr {α : Type} (otherwise : α) (item : Reader α) (room : Nat)
    (fields : List (String × Json)) (key : String) : Option α :=
  match fields.lookup key with
  | some j => item room j
  | none => some otherwise

/-- A field that may be missing or null. -/
def maybe {α : Type} (item : Reader α) (room : Nat) (fields : List (String × Json))
    (key : String) : Option (Option α) :=
  match fields.lookup key with
  | none | some .null => some none
  | some j => (item room j).map some

/-! ### Tagged records -/

/-- The fields of a tagged record beside its tag. -/
inductive Payload where
  | named (members : List (String × Json))
  | listed (items : List Json)

/-- The tag of a record with its other fields. An object names the tag exactly once; an array begins
with it. -/
def tagged (tag : String) : Json → Option (Json × Payload)
  | .array (t :: items) => some (t, .listed items)
  | .object members => do
    let members ← members.mapM fun m => return (← m.1, m.2)
    match members.filter (·.1 = tag) with
    | [(_, t)] => return (t, .named (members.filter (·.1 ≠ tag)))
    | _ => none
  | _ => none

/-- The fields of a tagged record that has exactly the given ones. Further members of an object do
not count; an array has no further items and leaves nothing off. -/
def Payload.fields (names : List String) : Payload → Option (List (String × Json))
  | .named members =>
    let known := members.filter (·.1 ∈ names)
    if (known.map Prod.fst).Nodup then some known else none
  | .listed items => if items.length = names.length then some (names.zip items) else none

/-! ### Documents kept whole -/

mutual

/-- Whether a document can be kept whole before it is known what it means: it is not too deep, its
texts are made of characters, and its numbers are not too large. -/
def isWhole : Nat → Json → Bool
  | _, .null | _, .bool _ | _, .int _ => true
  | _, .decimal m e => !tooLarge m e
  | _, .text t => t.isSome
  | 0, .array _ | 0, .object _ => false
  | room + 1, .array items => areWhole room items
  | room + 1, .object members => membersAreWhole room members

/-- Whether all items of a list can be kept whole. -/
def areWhole (room : Nat) : List Json → Bool
  | [] => true
  | j :: js => isWhole room j && areWhole room js

/-- Whether all members of an object can be kept whole. -/
def membersAreWhole (room : Nat) : List (Option String × Json) → Bool
  | [] => true
  | (key, j) :: ms => key.isSome && isWhole room j && membersAreWhole room ms

end

end Json

end TermForest
