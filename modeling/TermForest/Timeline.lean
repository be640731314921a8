import TermForest.Supply

/-!
# Timelines

A timeline keeps the present state of something that is changed step by step, the states it can go
back to, and those it can go forward to again. A refused change is remembered beside them; a fault
leaves the timeline as it was.

Every state is kept as a snapshot with a stamp of its own. Two snapshots of one timeline with the
same stamp are the same snapshot.
-/

namespace TermForest

/-- A state that was present at some time. -/
structure Snapshot (σ : Type) where
  /-- The number of the snapshot within its timeline. -/
  stamp : Nat
  state : σ
  deriving DecidableEq

/-- Changes that a timeline makes itself. -/
inductive Steering where
  | startLevel (level : Nat)
  | undo
  | redo
  | clearError
  deriving DecidableEq, Repr

/-- How actions of type `α` change states of type `σ`. -/
structure Dynamics (σ α : Type) where
  /-- The state in which a level starts. -/
  initial : Nat → Supply Fault σ
  /-- The state after an action, or `none` if the action changes nothing. -/
  change : Snapshot σ → α → Supply Failure (Option σ)
  /-- The actions that are left to the timeline. -/
  steering? : α → Option Steering
  /-- Whether a change by this action can be undone. -/
  records : α → Bool

/-- A present state with its past and future. -/
structure Timeline (σ : Type) where
  present : Snapshot σ
  /-- What undoing leads to, most recent first. -/
  past : List (Snapshot σ)
  /-- What redoing leads to, nearest first. -/
  future : List (Snapshot σ)
  /-- Why the last change was refused. -/
  error : Option Rejection
  /-- The stamp of the next snapshot. -/
  nextStamp : Nat
  deriving DecidableEq

namespace Timeline

variable {σ α : Type}

/-- The timeline of one state, with the given stamp. -/
def startingAt (stamp : Nat) (state : σ) : Timeline σ :=
  ⟨⟨stamp, state⟩, [], [], none, stamp + 1⟩

/-- The timeline of one state. -/
def start (state : σ) : Timeline σ := startingAt 0 state

/-- Goes back one snapshot, if there is one. -/
def undo (t : Timeline σ) : Timeline σ :=
  match t.past with
  | [] => { t with error := none }
  | previous :: past =>
    { t with present := previous, past, future := t.present :: t.future, error := none }

/-- Goes forward one snapshot, if there is one. -/
def redo (limit : Nat) (t : Timeline σ) : Timeline σ :=
  match t.future with
  | [] => { t with error := none }
  | following :: future =>
    { t with present := following, past := (t.present :: t.past).take limit, future, error := none }

/-- Moves on to a new state, which can be undone; what could be redone is dropped. -/
def push (limit : Nat) (t : Timeline σ) (state : σ) : Timeline σ :=
  { t with
    present := ⟨t.nextStamp, state⟩
    past := (t.present :: t.past).take limit
    future := []
    nextStamp := t.nextStamp + 1 }

/-- Puts a new state in the place of the present one. -/
def replace (t : Timeline σ) (state : σ) : Timeline σ :=
  { t with present := ⟨t.nextStamp, state⟩, nextStamp := t.nextStamp + 1 }

/-- Carries out a change that is left to the timeline. -/
def steer (d : Dynamics σ α) (limit : Nat) (t : Timeline σ) : Steering → Supply Fault (Timeline σ)
  | .startLevel level => do
    let state ← d.initial level
    return startingAt t.nextStamp state
  | .undo => return t.undo
  | .redo => return t.redo limit
  | .clearError => return { t with error := none }

/-- The timeline after an action. At most `limit` snapshots stay behind the present one. -/
def advance (d : Dynamics σ α) (limit : Nat) (t : Timeline σ) (action : α) :
    Supply Fault (Timeline σ) :=
  match d.steering? action with
  | some c => t.steer d limit c
  | none => fun next =>
    match (d.change t.present action).runFrom next with
    | (.error (.rejected why), next) => (.ok { t with error := some why }, next)
    | (.error (.fatal fault), next) => (.error fault, next)
    | (.ok none, next) => (.ok t, next)
    | (.ok (some state), next) =>
      (.ok (if d.records action then t.push limit state else t.replace state), next)

end Timeline

end TermForest
