import TermForest.Forest.Basic
import TermForest.Json.Record

/-!
# Nodes as documents

How field values, nodes and forests are written, and which documents are read as such.
-/

namespace TermForest

open Json (need needOr maybe)

/-! ### Field values -/

mutual

/-- A field value as a document. -/
def Datum.toJson : Datum → Json
  | .bool b => .bool b
  | .int n => .int n.toInt
  | .text s => .str s
  | .list items => .array (Datum.listToJson items)

/-- The items of a list as documents. -/
def Datum.listToJson : List Datum → List Json
  | [] => []
  | d :: ds => d.toJson :: Datum.listToJson ds

end

/-- Reads a field value: anything but null, objects, and numbers that are not whole or too large. -/
def Datum.read : Json.Reader Datum
  | _, .bool b => some (.bool b)
  | _, .int n => (int64? n).map .int
  | _, .text t => t.map .text
  | room + 1, .array items => (items.mapM (Datum.read room)).map .list
  | _, _ => none

/-- Fields as a document, in the order of their names. -/
def Fields.toJson (fields : Fields) : Json :=
  .record (fields.toList.map fun e => (e.1, e.2.toJson))

/-- Reads fields; of a repeated name the last value stays. -/
def Fields.read : Json.Reader Fields := fun room j => do
  let entries ← Json.Reader.entries Datum.read room j
  return entries.foldl (fun fields e => fields.insert e.1 e.2) ∅

/-! ### Slots -/

/-- Slots as a document, in their order. -/
def Slots.toJson (slots : Slots) : Json :=
  .record (slots.entries.map fun e => (e.1, .nat e.2))

/-- Reads slots; a repeated name keeps its first place and its last child. -/
def Slots.read : Json.Reader Slots := fun room j => do
  return Slots.ofList (← Json.Reader.entries Json.Reader.nat64 room j)

/-! ### Nodes -/

/-- A value that may be missing, as a document. -/
def optionalJson {α : Type} (write : α → Json) : Option α → Json
  | some a => write a
  | none => .null

/-- The names of the fields of a node, in order. -/
def Node.keys : List String :=
  ["id", "type", "parent", "parentField", "fields", "subexpressions", "locked"]

/-- A node as a document. -/
def Node.toJson (n : Node) : Json :=
  .record [
    ("id", .nat n.id),
    ("type", .str n.kind.tag),
    ("parent", optionalJson .nat n.parent),
    ("parentField", optionalJson .str n.parentSlot),
    ("fields", n.fields.toJson),
    ("subexpressions", n.slots.toJson),
    ("locked", .bool n.locked)]

/-- Reads a node. Only its id and its kind have to be there. -/
def Node.read : Json.Reader Node :=
  Json.Reader.record Node.keys fun room fields => do
    return {
      id := ← need Json.Reader.nat64 room fields "id"
      kind := ← need (Json.Reader.name Kind.ofTag?) room fields "type"
      parent := ← maybe Json.Reader.nat64 room fields "parent"
      parentSlot := ← maybe Json.Reader.text room fields "parentField"
      fields := ← needOr ∅ Fields.read room fields "fields"
      slots := ← needOr ∅ Slots.read room fields "subexpressions"
      locked := ← needOr false Json.Reader.bool room fields "locked" }

/-! ### Forests -/

/-- A forest as a document: its nodes in the order of their ids. -/
def Forest.toJson (F : Forest) : Json := .array (F.toList.map Node.toJson)

/-- Reads a forest from its nodes; of two nodes with one id the later stays. -/
def Forest.read : Json.Reader Forest := fun room j => do
  return Forest.ofList (← Json.Reader.list Node.read room j)

end TermForest
