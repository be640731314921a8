import TermForest.Fault
import TermForest.Json.Reader
import TermForest.Json.Record
import TermForest.Settings

/-!
# Settings as documents

How settings are read and written. What a document leaves out has its usual value.
-/

namespace TermForest

open Json (needOr)

namespace Settings

/-- The names of the settings, in order. -/
def keys : List String := ["history_limit", "max_repeat", "id_seed"]

/-- Settings as a document. -/
def toJson (s : Settings) : Json :=
  .record [
    ("history_limit", .nat s.historyLimit),
    ("max_repeat", .int s.maxRepeat.toInt),
    ("id_seed", .nat s.firstId)]

/-- Reads settings. -/
def read : Json.Reader Settings :=
  Json.Reader.record keys fun room fields => do
    let usual : Settings := {}
    return {
      historyLimit := ← needOr usual.historyLimit Json.Reader.nat64 room fields "history_limit"
      maxRepeat := ← needOr usual.maxRepeat Json.Reader.int64 room fields "max_repeat"
      firstId := ← needOr usual.firstId Json.Reader.nat64 room fields "id_seed" }

/-- The settings that a document stands for. -/
def ofJson? (j : Json) : Option Settings := read Json.maxDepth j

/-- The settings of a file, given what it holds if it can be read. A timeline has to keep
something. -/
def load (content : Option String) : Except Fault Settings :=
  match content with
  | none => .error .unreadable
  | some s =>
    match do ofJson? (← Json.parse? s) with
    | none => .error .format
    | some settings =>
      if settings.historyLimit = 0 then .error (.broken .noHistory) else .ok settings

end Settings

end TermForest
