import TermForest.Timeline

/-!
# Sessions

A session is a timeline that runs: it has its dynamics and its supply of ids. The supply lies
outside the snapshots, so undoing a step does not bring its ids back.
-/

namespace TermForest

/-- A running timeline. -/
structure Session (σ α : Type) where
  dynamics : Dynamics σ α
  timeline : Timeline σ
  /-- The next id. -/
  next : NodeId
  /-- How many snapshots stay behind the present one. -/
  limit : Nat

namespace Session

variable {σ α : Type}

/-- Starts a session at a level. A timeline that could keep nothing is a fault. -/
def start (d : Dynamics σ α) (level : Nat) (next : NodeId) (limit : Nat) :
    Except Fault (Session σ α) :=
  if limit = 0 then .error (.broken .noHistory)
  else
    match (d.initial level).runFrom next with
    | (.ok state, next) => .ok ⟨d, .start state, next, limit⟩
    | (.error fault, _) => .error fault

/-- Carries out an action. After a fault the timeline is as before, but ids stay used. -/
def perform (s : Session σ α) (action : α) : Session σ α × Option Fault :=
  match (s.timeline.advance s.dynamics s.limit action).runFrom s.next with
  | (.ok timeline, next) => ({ s with timeline, next }, none)
  | (.error fault, next) => ({ s with next }, some fault)

/-- The present state. -/
def present (s : Session σ α) : σ := s.timeline.present.state

/-- Whether there is something to go back to. -/
def canUndo (s : Session σ α) : Bool := !s.timeline.past.isEmpty

/-- Whether there is something to go forward to. -/
def canRedo (s : Session σ α) : Bool := !s.timeline.future.isEmpty

end Session

end TermForest
