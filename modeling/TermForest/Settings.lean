import TermForest.Slots

/-!
# Settings

The limits of a game and the first id it hands out.
-/

namespace TermForest

/-- Limits and seeds of a game. -/
structure Settings where
  /-- How many snapshots a timeline keeps behind the present one; the oldest go first. -/
  historyLimit : Nat := 128
  /-- The largest count that the builtin `repeat` takes. -/
  maxRepeat : Int64 := 16
  /-- Where the supply of ids starts. -/
  firstId : NodeId := 1
  deriving DecidableEq, Repr, Inhabited

end TermForest
