import TermForest.Proofs.Format.Command
import TermForest.Proofs.Format.Level

/-!
# Texts read back

A level set, a state, a command or settings is read back from the text that is written for it. The
value that is read is the same in all its parts, the order of slots included; so it has the same
digest, and the same text is written for it again.
-/

namespace TermForest

/-- A value is read from the text that is written for it on one line. -/
theorem Json.Reader.Reads.of_compact {α : Type} {r : Json.Reader α} {a : α} {j : Json}
    (h : r.Reads a j) (hplain : j.Plain) (hdepth : j.depth ≤ Json.maxDepth) :
    (Json.parse? j.compact).bind (r Json.maxDepth) = some a := by
  rw [Json.parse?_compact hplain]
  exact h _ hdepth

namespace LevelFile

variable {L : LevelFile}

theorem parse?_compact (h : L.Storable) (hdepth : L.toJson.depth ≤ Json.maxDepth) :
    parse? L.toJson.compact = some L :=
  (reads_toJson h).of_compact (plain_toJson h) hdepth

theorem parse?_print (h : L.Storable) (hdepth : L.toJson.depth ≤ Json.maxDepth) :
    parse? L.print = some L := by
  rw [parse?, print, Json.parse?_indented (plain_toJson h)]
  exact reads_toJson h _ hdepth

end LevelFile

/-! ### All formats -/

/-- **Reading undoes writing.** Level sets and states that are not too deep, commands and settings
are read back from what is written for them on one line, and level sets also from what is written
with one item to a line. A level set that was read from any text can be written and read again. -/
theorem parse_undoes_print :
    (∀ L : LevelFile, L.Storable → L.toJson.depth ≤ Json.maxDepth →
      LevelFile.parse? L.toJson.compact = some L ∧ LevelFile.parse? L.print = some L) ∧
    (∀ s : State, s.Storable → s.toJson.depth ≤ Json.maxDepth →
      (Json.parse? s.toJson.compact).bind State.ofJson? = some s) ∧
    (∀ c : Command, c.Storable → Command.parse? c.toJson.compact = some c) ∧
    (∀ s : Settings, s.Storable →
      (Json.parse? s.toJson.compact).bind Settings.ofJson? = some s) ∧
    ∀ (text : String) (L : LevelFile), LevelFile.parse? text = some L →
      LevelFile.parse? L.print = some L := by
  refine ⟨fun L h hdepth => ⟨LevelFile.parse?_compact h hdepth, LevelFile.parse?_print h hdepth⟩,
    fun s h hdepth => (State.reads_toJson h).of_compact (State.plain_toJson h) hdepth,
    fun c h => ?_, fun s h => ?_, fun text L h => ?_⟩
  · have hdepth : c.toJson.depth ≤ Json.maxDepth :=
      Nat.le_trans c.depth_toJson_le (by decide)
    exact (Command.reads_toJson h).of_compact (Command.plain_toJson h) hdepth
  · have hdepth : s.toJson.depth ≤ Json.maxDepth := by
      show 1 ≤ Json.maxDepth
      decide
    exact (Settings.reads_toJson h).of_compact (Settings.plain_toJson h) hdepth
  · obtain ⟨hstorable, hdepth⟩ := LevelFile.storable_of_parse? h
    exact LevelFile.parse?_print hstorable hdepth

/-- A negation with a truth value in it, on the board. -/
def sampleState : State where
  nodes := .ofList [
    { id := 7, kind := .not, slots := .ofList [("value", 9)] },
    { id := 9, kind := .boolean, parent := some 7, parentSlot := some "value",
      fields := .ofList [("value", Datum.bool true)] }]
  board := [7]
  toolbox := []
  defs := []
  goal := []
  level := 0
  mode := .gameplay
  added := [7, 9]
  removed := []

/-- A level with a negation of a hole on its board. -/
def sampleLevels : LevelFile :=
  ⟨[{ board := [.mk (some 7) "not" ∅ (.cons "value" .hole .nil)] }]⟩

/-- The level is read from a text that leaves out the names of the fields, and from its own text. -/
theorem parse_undoes_print_sample :
    LevelFile.parse? "[[[[[7, \"not\", \x7b\x7d, \x7b\"value\": [null, \"missing\"]\x7d]]]]]" =
      some sampleLevels ∧
    LevelFile.parse? sampleLevels.toJson.compact = some sampleLevels ∧
    LevelFile.parse? sampleLevels.print = some sampleLevels ∧
    (Json.parse? sampleState.toJson.compact).bind State.ofJson? = some sampleState ∧
    Command.parse? (Command.raiseError (.parameterCount 7 2 1)).toJson.compact =
      some (.raiseError (.parameterCount 7 2 1)) ∧
    (Json.parse? (Settings.toJson { firstId := 40 }).compact).bind Settings.ofJson? =
      some { firstId := 40 } := by
  obtain ⟨hlevels, hstate, hcommand, hsettings, htext⟩ := parse_undoes_print
  have hread : LevelFile.parse?
      "[[[[[7, \"not\", \x7b\x7d, \x7b\"value\": [null, \"missing\"]\x7d]]]]]" =
        some sampleLevels := by
    decide +kernel
  obtain ⟨hstorable, hdepth⟩ := LevelFile.storable_of_parse? hread
  have hsample : sampleState.Storable :=
    ⟨by decide +kernel, by decide, by decide, by decide, by decide, by decide, by decide, by decide⟩
  exact ⟨hread, (hlevels sampleLevels hstorable hdepth).1, htext _ sampleLevels hread,
    hstate sampleState hsample (by decide +kernel),
    hcommand (.raiseError (.parameterCount 7 2 1)) ⟨by decide, by decide, by decide⟩,
    hsettings { firstId := 40 } ⟨by decide, by decide⟩⟩

end TermForest
