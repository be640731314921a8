import TermForest.Timeline

/-!
# Commands

What a player, or a script, can ask for.
-/

namespace TermForest

/-- A request to the game. -/
inductive Command where
  /-- Reduces one step inside the board tree that contains the target. -/
  | execute (target : NodeId)
  /-- Takes a subtree out of its parent and leaves a hole. -/
  | detach (node : NodeId)
  | moveToBoard (node : NodeId)
  | moveToDefs (node : NodeId)
  | moveToSlot (node hole : NodeId)
  | startLevel (level : Nat)
  | undo
  | redo
  | clearError
  /-- Drops what has been used up from the board. -/
  | cleanup
  /-- Finds out whether the level is won or lost. -/
  | detectCompletion
  /-- Remembers a refusal that came up elsewhere. -/
  | raiseError (why : Rejection)
  deriving DecidableEq, Repr

namespace Command

/-- The name of a command in scripts. -/
def name : Command → String
  | .execute _ => "execute"
  | .detach _ => "detach"
  | .moveToBoard _ => "moveNodeToBoard"
  | .moveToDefs _ => "moveNodeToDefs"
  | .moveToSlot .. => "moveNodeToSlot"
  | .startLevel _ => "startLevel"
  | .undo => "undo"
  | .redo => "redo"
  | .clearError => "clearError"
  | .cleanup => "cleanup"
  | .detectCompletion => "detectCompletion"
  | .raiseError _ => "raiseError"

/-- The commands that are left to the timeline. -/
def steering? : Command → Option Steering
  | .startLevel level => some (.startLevel level)
  | .undo => some .undo
  | .redo => some .redo
  | .clearError => some .clearError
  | _ => none

/-- Whether a change by this command can be undone. -/
def records : Command → Bool
  | .cleanup | .detectCompletion | .raiseError _ => false
  | _ => true

end Command

end TermForest
