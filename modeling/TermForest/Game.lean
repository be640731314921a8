import TermForest.Command
import TermForest.Level.Load
import TermForest.Session
import TermForest.Settings
import TermForest.Step

/-!
# The game

What each command does to a state. A command that changes nothing gives no new state; one that is
not allowed is refused.
-/

namespace TermForest

namespace State

/-! ### Moves -/

/-- Takes a subtree on the board out of its parent, which is left with a hole. A root stays where it
is. -/
def detach (s : State) (id : NodeId) : Supply Failure (Option State) := do
  let n ← s.nodes.find id
  let root ← s.nodes.rootOf id
  if root ∉ s.board then throw (.rejected (.notOnBoard id))
  match n.parent, n.parentSlot with
  | some parent, some slot =>
    let hole := Node.heldBy { id := ← Supply.take, kind := .hole } parent slot
    let p ← s.nodes.find parent
    return some { s with
      nodes := ((s.nodes.insert hole).insert (p.withSlot slot hole.id)).insert n.detached
      board := s.board ++ [id]
      added := [hole.id]
      removed := [] }
  | _, _ => return none

/-- Takes a root from the toolbox to the board. -/
def moveToBoard (s : State) (id : NodeId) : Except Failure (Option State) := do
  if id ∈ s.board then return none
  if id ∉ s.toolbox then refuse (.notOnBoard id)
  return some { s.settled with
    toolbox := s.toolbox.filter (· ≠ id)
    board := s.board ++ [id] }

/-- Drops what a subtree consists of in one forest from another. -/
def uproot (nodes base : Forest) (id : NodeId) : Except Fault Forest := do
  return nodes.eraseAll (← base.idsUnder id)

/-- Turns a definition on the board into a locked copy among the definitions. It takes the place of
the definition of its name, if there is one. -/
def moveToDefs (s : State) (S : Signature) (id : NodeId) : Supply Failure (Option State) := do
  if id ∉ s.board then throw (.rejected (.notOnBoard id))
  let n ← s.nodes.find id
  if n.kind ≠ .define then
    let actual ← S.coarseType s.nodes id
    throw (.rejected (.wrongType id CoarseType.define.name actual.name))
  let c ← s.nodes.copy id true
  let nodes ← uproot c.forest s.nodes id
  let board := s.board.filter (· ≠ id)
  let (nodes, defs) ←
    match n.name?.bind s.definition? with
    | some old => do
      let nodes ← uproot nodes s.nodes old.id
      pure (nodes, s.defs.map fun d => if d = old.id then c.root.id else d)
    | none => pure (nodes, s.defs ++ [c.root.id])
  let added ← nodes.idsUnder c.root.id
  return some { s with nodes, board, defs, added, removed := [] }

/-- Puts a root from the board or the toolbox into a hole on the board. A term does not go into its
own hole. -/
def moveToSlot (s : State) (S : Signature) (id hole : NodeId) : Except Failure (Option State) := do
  if id ∉ s.board ∧ id ∉ s.toolbox then refuse (.notOnBoard id)
  let h ← s.nodes.find hole
  let root ← s.nodes.rootOf hole
  if root ∉ s.board then refuse (.notOnBoard hole)
  if h.kind ≠ .hole then
    let actual ← S.coarseType s.nodes hole
    refuse (.wrongType hole CoarseType.hole.name actual.name)
  if root = id then return none
  match h.parent, h.parentSlot with
  | some parent, some slot =>
    let p ← s.nodes.find parent
    let n ← s.nodes.find id
    return some { s with
      nodes := ((s.nodes.erase hole).insert (p.withSlot slot id)).insert (n.heldBy parent slot)
      board := s.board.filter (· ≠ id)
      toolbox := s.toolbox.filter (· ≠ id)
      added := []
      removed := [hole] }
  | _, _ => throw (.fatal (.broken (.looseHole hole)))

/-- Drops what has been used up from the board, and forgets what the last step changed. -/
def cleanup (s : State) : Except Fault (Option State) := do
  let used ← s.board.filterM fun root => return (← s.nodes.find root).kind = .void
  if used = [] ∧ s.added = [] ∧ s.removed = [] then return none
  let nodes ← used.foldlM (fun nodes root => uproot nodes s.nodes root) s.nodes
  return some { s.settled with
    nodes
    board := s.board.filter (· ∉ used) }

/-! ### The end of a level -/

/-- The position of the first root whose tree has the shape of the one at an id. -/
def matching? (F : Forest) (id : NodeId) : List NodeId → Except Fault (Option Nat)
  | [] => .ok none
  | root :: rest => do
    if ← sameShape F id F root then return some 0
    else return (← matching? F id rest).map (· + 1)

/-- A list without the item at a position; the last item moves there. -/
def takeOut (ids : List NodeId) (position : Nat) : List NodeId :=
  (ids.set position (ids.getLastD 0)).dropLast

/-- Whether each goal is matched by a root of its own. -/
def goalsMatch (F : Forest) : List NodeId → List NodeId → Except Fault Bool
  | [], _ => .ok true
  | goal :: goals, roots => do
    match ← matching? F goal roots with
    | some position => goalsMatch F goals (takeOut roots position)
    | none => return false

/-- Whether the board is what the goals ask for, and nothing else is left on it. -/
def isSolved (s : State) : Except Fault Bool :=
  if s.goal = [] ∨ s.goal.length ≠ s.board.length then .ok false
  else goalsMatch s.nodes s.goal s.board

/-- Whether there is nothing left to reduce, to fill, or to take from the toolbox. -/
def isStuck (s : State) (S : Signature) : Except Fault Bool := do
  if s.toolbox ≠ [] then return false
  s.board.allM fun root => do
    if ← S.isNormal s.nodes root then
      return (← s.nodes.findAll root fun n => n.kind = .hole) = []
    else return false

/-- Finds out whether a level that is being played is won or lost. -/
def detectCompletion (s : State) (S : Signature) : Except Fault (Option State) := do
  if s.mode ≠ .gameplay then return none
  if ← s.isSolved then return some { s.settled with mode := .victory }
  if ← s.isStuck S then return some { s.settled with mode := .defeat }
  return none

end State

/-! ### Games -/

/-- A step that has been begun and not yet put in place. -/
structure BegunStep where
  /-- The snapshot it was begun on. -/
  base : Snapshot State
  target : NodeId
  work : Plan

/-- What changes the state of a game: a command, or the second phase of a step. -/
inductive Move where
  | command (c : Command)
  | commit (p : BegunStep)

/-- A set of levels with the rules and limits they are played under. -/
structure Game where
  levels : LevelFile
  settings : Settings := {}
  signature : Signature := .standard

namespace Game

/-- Puts a begun step in place. Its snapshot has to be the present one. -/
def commit (g : Game) (s : Snapshot State) (p : BegunStep) : Supply Fault (Option State) :=
  if p.base.stamp = s.stamp then p.base.state.complete g.signature p.work
  else throw (.staleStep p.target)

/-- The state after a command, or `none` if it changes nothing. Commands that are left to the
timeline change nothing here. -/
def obey (g : Game) (s : State) : Command → Supply Failure (Option State)
  | .execute target => s.step g.signature g.settings.maxRepeat target
  | .detach id => s.detach id
  | .moveToBoard id => s.moveToBoard id
  | .moveToDefs id => s.moveToDefs g.signature id
  | .moveToSlot id hole => s.moveToSlot g.signature id hole
  | .cleanup => s.cleanup
  | .detectCompletion => s.detectCompletion g.signature
  | .raiseError why => throw (.rejected why)
  | .startLevel _ | .undo | .redo | .clearError => return none

/-- How moves change the states of a game. -/
def dynamics (g : Game) : Dynamics State Move where
  initial level := g.levels.load g.signature level
  change s
    | .command c => g.obey s.state c
    | .commit p => g.commit s p
  steering?
    | .command c => c.steering?
    | .commit _ => none
  records
    | .command c => c.records
    | .commit _ => true

/-- Starts a session at a level. -/
def start (g : Game) (level : Nat) : Except Fault (Session State Move) :=
  Session.start g.dynamics level (Supply.first g.settings.firstId) g.settings.historyLimit

/-- The first phase of a step on a snapshot. -/
def begin (g : Game) (s : Snapshot State) (target : NodeId) : Supply Failure BegunStep := do
  let work ← s.state.begin g.signature g.settings.maxRepeat target
  return ⟨s, target, work⟩

/-- The first phase of a step on the present state of a session. A refusal is remembered as its
error. -/
def beginIn (g : Game) (session : Session State Move) (target : NodeId) :
    Session State Move × Except Fault (Option BegunStep) :=
  match (g.begin session.timeline.present target).runFrom session.next with
  | (.ok step, next) => ({ session with next }, .ok (some step))
  | (.error (.rejected why), next) =>
    match { session with next }.perform (.command (.raiseError why)) with
    | (session, none) => (session, .ok none)
    | (session, some fault) => (session, .error fault)
  | (.error (.fatal fault), next) => ({ session with next }, .error fault)

end Game

end TermForest
