import TermForest.Format.Node
import TermForest.State

/-!
# States as documents

How states are written and read. All parts of a state have to be there.
-/

namespace TermForest

open Json (need)

namespace State

/-- The names of the fields of a state, in order. -/
def keys : List String :=
  ["nodes", "board", "toolbox", "defs", "goal", "level", "mode", "added", "removed"]

/-- A list of ids as a document. -/
def idsToJson (ids : List NodeId) : Json := .array (ids.map .nat)

/-- A state as a document. -/
def toJson (s : State) : Json :=
  .record [
    ("nodes", s.nodes.toJson),
    ("board", idsToJson s.board),
    ("toolbox", idsToJson s.toolbox),
    ("defs", idsToJson s.defs),
    ("goal", idsToJson s.goal),
    ("level", .nat s.level),
    ("mode", .str s.mode.name),
    ("added", idsToJson s.added),
    ("removed", idsToJson s.removed)]

/-- Reads a state. -/
def read : Json.Reader State :=
  Json.Reader.record keys fun room fields => do
    let ids := need (Json.Reader.list Json.Reader.nat64) room fields
    return {
      nodes := ← need Forest.read room fields "nodes"
      board := ← ids "board"
      toolbox := ← ids "toolbox"
      defs := ← ids "defs"
      goal := ← ids "goal"
      level := ← need Json.Reader.nat64 room fields "level"
      mode := ← need (Json.Reader.name Mode.ofName?) room fields "mode"
      added := ← ids "added"
      removed := ← ids "removed" }

/-- The state that a document stands for. -/
def ofJson? (j : Json) : Option State := read Json.maxDepth j

end State

end TermForest
