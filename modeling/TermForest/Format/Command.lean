import TermForest.Command
import TermForest.Json.Reader
import TermForest.Json.Record

/-!
# Commands as documents

How commands and rejections are written and read. Both are records that say by a tag what they are.
-/

namespace TermForest

open Json (need)

/-! ### Rejections -/

namespace Rejection

/-- The tag of a rejection. -/
def tag : Rejection → String
  | .wrongType .. => "WrongType"
  | .notOnBoard _ => "NotOnBoard"
  | .emptyHole _ => "MissingNode"
  | .unknownName .. => "UnknownName"
  | .circularCall .. => "CircularCall"
  | .fullyBound _ => "AlreadyFullyBound"
  | .parameterCount .. => "WrongBuiltInParamsCount"
  | .builtin .. => "BuiltIn"

/-- The tags of rejections, in the order in which numbers stand for them. -/
def tags : List String :=
  ["WrongType", "NotOnBoard", "MissingNode", "UnknownName", "CircularCall", "AlreadyFullyBound",
    "WrongBuiltInParamsCount", "BuiltIn"]

/-- A rejection as a document. -/
def toJson (r : Rejection) : Json :=
  .record <| ("kind", .str r.tag) :: ("node", .nat r.node) ::
    match r with
    | .wrongType _ expected actual => [("expected", .str expected), ("actual", .str actual)]
    | .notOnBoard _ | .emptyHole _ | .fullyBound _ => []
    | .unknownName _ name | .circularCall _ name => [("name", .str name)]
    | .parameterCount _ expected actual => [("expected", .nat expected), ("actual", .nat actual)]
    | .builtin _ text => [("message", .str text)]

/-- The tag in a document: its text, or its number among the tags. -/
def tagOf? : Json → Option String
  | .text t => t
  | .int n => if 0 ≤ n then tags[n.toNat]? else none
  | _ => none

/-- Reads a rejection from a document that is kept whole. -/
def read : Json.Reader Rejection := fun room j => do
  let (t, payload) ← Json.tagged "kind" j
  let id := need Json.Reader.nat64 room
  let text := need Json.Reader.text room
  match ← tagOf? t with
  | "WrongType" =>
    let fields ← payload.fields ["node", "expected", "actual"]
    return .wrongType (← id fields "node") (← text fields "expected") (← text fields "actual")
  | "NotOnBoard" => return .notOnBoard (← id (← payload.fields ["node"]) "node")
  | "MissingNode" => return .emptyHole (← id (← payload.fields ["node"]) "node")
  | "UnknownName" =>
    let fields ← payload.fields ["node", "name"]
    return .unknownName (← id fields "node") (← text fields "name")
  | "CircularCall" =>
    let fields ← payload.fields ["node", "name"]
    return .circularCall (← id fields "node") (← text fields "name")
  | "AlreadyFullyBound" => return .fullyBound (← id (← payload.fields ["node"]) "node")
  | "WrongBuiltInParamsCount" =>
    let fields ← payload.fields ["node", "expected", "actual"]
    return .parameterCount (← id fields "node") (← id fields "expected") (← id fields "actual")
  | "BuiltIn" =>
    let fields ← payload.fields ["node", "message"]
    return .builtin (← id fields "node") (← text fields "message")
  | _ => none

end Rejection

/-! ### Commands -/

namespace Command

/-- A command as a document. -/
def toJson (c : Command) : Json :=
  .record <| ("type", .str c.name) ::
    match c with
    | .execute target => [("target", .nat target)]
    | .detach node | .moveToBoard node | .moveToDefs node => [("node", .nat node)]
    | .moveToSlot node hole => [("node", .nat node), ("hole", .nat hole)]
    | .startLevel level => [("level", .nat level)]
    | .raiseError why => [("error", why.toJson)]
    | .undo | .redo | .clearError | .cleanup | .detectCompletion => []

/-- A command that has no fields. Members of an object do not count. -/
def bare (c : Command) : Json.Payload → Option Command
  | .named _ | .listed [] => some c
  | .listed (_ :: _) => none

/-- Reads a command. The document is kept whole until its tag is known. -/
def read : Json.Reader Command := fun room j =>
  if !Json.isWhole room j then none else do
    let (t, payload) ← Json.tagged "type" j
    let id := need Json.Reader.nat64 room
    match ← Json.Reader.text room t with
    | "execute" => return .execute (← id (← payload.fields ["target"]) "target")
    | "detach" => return .detach (← id (← payload.fields ["node"]) "node")
    | "moveNodeToBoard" => return .moveToBoard (← id (← payload.fields ["node"]) "node")
    | "moveNodeToDefs" => return .moveToDefs (← id (← payload.fields ["node"]) "node")
    | "moveNodeToSlot" =>
      let fields ← payload.fields ["node", "hole"]
      return .moveToSlot (← id fields "node") (← id fields "hole")
    | "startLevel" => return .startLevel (← id (← payload.fields ["level"]) "level")
    | "undo" => bare .undo payload
    | "redo" => bare .redo payload
    | "clearError" => bare .clearError payload
    | "cleanup" => bare .cleanup payload
    | "detectCompletion" => bare .detectCompletion payload
    | "raiseError" =>
      return .raiseError (← need Rejection.read room (← payload.fields ["error"]) "error")
    | _ => none

/-- The command that a document stands for. -/
def ofJson? (j : Json) : Option Command := read Json.maxDepth j

/-- The command that a text stands for. -/
def parse? (s : String) : Option Command := do ofJson? (← Json.parse? s)

/-- The commands of a script. -/
def parseScript? (s : String) : Option (List Command) := do
  Json.Reader.list read Json.maxDepth (← Json.parse? s)

end Command

end TermForest
