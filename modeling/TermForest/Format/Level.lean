import TermForest.Format.Node
import TermForest.Json.Reader
import TermForest.Json.Writer
import TermForest.Level.Load

/-!
# Level files

How terms, levels and level sets are written and read. What a term or level leaves empty is not
written for terms, and written as an empty list for levels.
-/

namespace TermForest

open Json (need needOr maybe)

/-! ### Terms -/

/-- The names of the fields of a term, in order. -/
def Term.keys : List String := ["id", "type", "fields", "subexpressions"]

mutual

/-- A term as a document; an absent id and empty fields and slots are left out. -/
def Term.toJson : Term → Json
  | .mk id tag fields parts =>
    .record <|
      (id.map fun id => ("id", Json.nat id)).toList ++
      [("type", .str tag)] ++
      (if fields.isEmpty then [] else [("fields", fields.toJson)]) ++
      (if parts = .nil then [] else [("subexpressions", .record parts.membersToJson)])

/-- The terms in slots as members of a document. -/
def Terms.membersToJson : Terms → List (String × Json)
  | .nil => []
  | .cons slot t rest => (slot, t.toJson) :: rest.membersToJson

end

mutual

/-- Reads a term. Only its tag has to be there. -/
def Term.read : Json.Reader Term
  | 0, _ => none
  | room + 1, j => do
    let fields ← Json.Reader.fields Term.keys j
    let id ← maybe Json.Reader.nat64 room fields "id"
    let tag ← need Json.Reader.text room fields "type"
    let own ← needOr ∅ Fields.read room fields "fields"
    let parts ←
      match fields.lookup "subexpressions" with
      | none => some .nil
      | some j => Terms.read room j
    return .mk id tag own parts

/-- Reads the terms in slots; a repeated name keeps its first place and its last term. -/
def Terms.read : Json.Reader Terms
  | room + 1, .object members => do
    return Terms.ofList (← members.mapM fun m => do return (← m.1, ← Term.read room m.2))
  | _, _ => none

end

/-! ### Levels -/

namespace Level

/-- The names of the fields of a level, in order. -/
def keys : List String := ["board", "toolbox", "defs", "goal"]

/-- A level as a document. -/
def toJson (l : Level) : Json :=
  .record [
    ("board", .array (l.board.map Term.toJson)),
    ("toolbox", .array (l.toolbox.map Term.toJson)),
    ("defs", .array (l.defs.map Term.toJson)),
    ("goal", .array (l.goal.map Term.toJson))]

/-- Reads a level; areas that are missing are empty. -/
def read : Json.Reader Level :=
  Json.Reader.record keys fun room fields => do
    let area := needOr [] (Json.Reader.list Term.read) room fields
    return {
      board := ← area "board"
      toolbox := ← area "toolbox"
      defs := ← area "defs"
      goal := ← area "goal" }

end Level

namespace LevelFile

/-- A level set as a document. -/
def toJson (L : LevelFile) : Json :=
  .record [("levels", .array (L.levels.map Level.toJson))]

/-- Reads a level set. -/
def read : Json.Reader LevelFile :=
  Json.Reader.record ["levels"] fun room fields => do
    return ⟨← need (Json.Reader.list Level.read) room fields "levels"⟩

/-- The level set that a document stands for. -/
def ofJson? (j : Json) : Option LevelFile := read Json.maxDepth j

/-- The level set of a level file. -/
def parse? (s : String) : Option LevelFile := do ofJson? (← Json.parse? s)

/-- The text of a level file. -/
def print (L : LevelFile) : String := L.toJson.indented

end LevelFile

end TermForest
