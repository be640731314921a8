import TermForest.Proofs.Reach
import TermForest.Proofs.Shift.Level
import TermForest.Proofs.Shift.Move

/-!
# Plays on shifted ids

Where the supply of ids starts does not matter for a play. If it starts higher and the requests name ids
that lie as much higher, everything goes as before: the same requests are refused or end in faults, and
all snapshots are the same up to the shift.
-/

namespace TermForest

open Shift (takes tries)

variable {k : Nat}

/-! ### Data -/

/-- The same snapshot with all ids raised by `k`. -/
def Snapshot.shift (k : Nat) (s : Snapshot State) : Snapshot State := ⟨s.stamp, s.state.shift k⟩

/-- The same timeline with all ids raised by `k`. -/
def Timeline.shift (k : Nat) (t : Timeline State) : Timeline State where
  present := t.present.shift k
  past := t.past.map (Snapshot.shift k)
  future := t.future.map (Snapshot.shift k)
  error := t.error.map (Rejection.shift k)
  nextStamp := t.nextStamp

/-- The same command on ids raised by `k`. -/
def Command.shift (k : Nat) : Command → Command
  | .execute target => .execute (target + k)
  | .detach node => .detach (node + k)
  | .moveToBoard node => .moveToBoard (node + k)
  | .moveToDefs node => .moveToDefs (node + k)
  | .moveToSlot node hole => .moveToSlot (node + k) (hole + k)
  | .startLevel level => .startLevel level
  | .undo => .undo
  | .redo => .redo
  | .clearError => .clearError
  | .cleanup => .cleanup
  | .detectCompletion => .detectCompletion
  | .raiseError why => .raiseError (why.shift k)

/-- The same begun step with all ids raised by `k`. -/
def BegunStep.shift (k : Nat) (p : BegunStep) : BegunStep :=
  ⟨p.base.shift k, p.target + k, p.work.shift k⟩

/-- The same move with all ids raised by `k`. -/
def Move.shift (k : Nat) : Move → Move
  | .command c => .command (c.shift k)
  | .commit p => .commit (p.shift k)

/-- The same session with all ids raised by `k`, also those to come. -/
def Session.shift (k : Nat) (s : Session State Move) : Session State Move :=
  { s with timeline := s.timeline.shift k, next := s.next + k }

/-- The same game whose supply of ids starts higher by `k`. -/
def Game.shift (k : Nat) (g : Game) : Game :=
  { g with settings := { g.settings with firstId := g.settings.firstId + k } }

/-! ### Timelines -/

namespace Timeline

variable (t : Timeline State)

theorem shift_undo : t.undo.shift k = (t.shift k).undo := by
  obtain ⟨present, past, future, error, nextStamp⟩ := t
  cases past <;> rfl

theorem shift_redo (limit : Nat) : (t.redo limit).shift k = (t.shift k).redo limit := by
  obtain ⟨present, past, future, error, nextStamp⟩ := t
  cases future with
  | nil => rfl
  | cons following future =>
    dsimp only [redo, shift, List.map_cons]
    rw [List.map_take]
    rfl

theorem shift_push (limit : Nat) (s : State) :
    (t.push limit s).shift k = (t.shift k).push limit (s.shift k) := by
  dsimp only [push, shift]
  rw [List.map_take]
  rfl

end Timeline

/-! ### Moves -/

namespace Game

variable (g : Game)

theorem obey_shift (s : State) (c : Command) :
    (tries k).rel (Image (Option.map (State.shift k))) (g.obey s c)
      (g.obey (s.shift k) (c.shift k)) := by
  cases c with
  | execute target => exact s.step_shift g.signature g.settings.maxRepeat target
  | detach id => exact s.detach_shift id
  | moveToBoard id => exact Shift.tries_check (s.moveToBoard_shift id)
  | moveToDefs id => exact s.moveToDefs_shift g.signature id
  | moveToSlot id hole => exact Shift.tries_check (s.moveToSlot_shift g.signature id hole)
  | cleanup => exact Shift.tries_read s.cleanup_shift
  | detectCompletion => exact Shift.tries_read (s.detectCompletion_shift g.signature)
  | raiseError why => exact Shift.tries_throw (.rejected why)
  | startLevel _ => exact (tries k).rel_pure rfl
  | undo => exact (tries k).rel_pure rfl
  | redo => exact (tries k).rel_pure rfl
  | clearError => exact (tries k).rel_pure rfl

theorem commit_shift (s : Snapshot State) (p : BegunStep) :
    (takes k).rel (Image (Option.map (State.shift k))) (g.commit s p)
      (g.commit (s.shift k) (p.shift k)) :=
  (takes k).rel_ite Iff.rfl (fun _ _ => p.base.state.complete_shift g.signature p.work)
    fun _ _ => Shift.takes_throw (.staleStep p.target)

theorem change_shift (s : Snapshot State) (m : Move) :
    (tries k).rel (Image (Option.map (State.shift k))) (g.dynamics.change s m)
      (g.dynamics.change (s.shift k) (m.shift k)) := by
  cases m with
  | command c => exact g.obey_shift s.state c
  | commit p => exact Shift.tries_take (g.commit_shift s p)

theorem steering?_shift (m : Move) :
    g.dynamics.steering? (m.shift k) = g.dynamics.steering? m := by
  rcases m with c | p
  · cases c <;> rfl
  · rfl

theorem records_shift (m : Move) : g.dynamics.records (m.shift k) = g.dynamics.records m := by
  rcases m with c | p
  · cases c <;> rfl
  · rfl

/-- A shifted move makes of a shifted timeline what the move makes of the timeline, shifted. -/
theorem advance_shift (limit : Nat) (t : Timeline State) (m : Move) :
    (takes k).rel (Image (Timeline.shift k)) (t.advance g.dynamics limit m)
      ((t.shift k).advance g.dynamics limit (m.shift k)) := by
  unfold Timeline.advance
  rw [g.steering?_shift, g.records_shift]
  cases g.dynamics.steering? m with
  | some c =>
    cases c with
    | startLevel level =>
      refine (takes k).rel_bind (g.levels.load_shift g.signature level) ?_
      rintro s _ rfl
      exact (takes k).rel_pure rfl
    | undo => exact (takes k).rel_pure t.shift_undo.symm
    | redo => exact (takes k).rel_pure (t.shift_redo limit).symm
    | clearError => exact (takes k).rel_pure rfl
  | none =>
    intro next
    have hchange := Shift.runFrom_eq (g.change_shift t.present m (k := k)) next
    have hpresent : (t.shift k).present = t.present.shift k := rfl
    simp only [Supply.runFrom, ExceptT.run] at hchange ⊢
    rw [hpresent, hchange]
    rcases g.dynamics.change t.present m next with ⟨(why | fault) | (_ | s), mid⟩
    · exact ⟨.ok rfl, rfl⟩
    · exact ⟨.error fault, rfl⟩
    · exact ⟨.ok rfl, rfl⟩
    · refine ⟨.ok ?_, rfl⟩
      dsimp only [Image]
      split
      · exact (t.shift_push limit s).symm
      · rfl

theorem begin_shift (s : Snapshot State) (target : NodeId) :
    (tries k).rel (Image (BegunStep.shift k)) (g.begin s target)
      (g.begin (s.shift k) (target + k)) := by
  refine (tries k).rel_bind
    (s.state.begin_shift g.signature g.settings.maxRepeat target) ?_
  rintro work _ rfl
  exact (tries k).rel_pure rfl

end Game

/-! ### Sessions -/

namespace Session

variable {g : Game} {s : Session State Move}

/-- A shifted move makes of a shifted session what the move makes of the session, shifted. -/
theorem perform_shift (hg : s.dynamics = g.dynamics) (m : Move) :
    (s.shift k).perform (m.shift k) =
      Prod.map (Session.shift k) (Option.map (Fault.shift k)) (s.perform m) := by
  have hadvance := Shift.runFrom_eq (g.advance_shift s.limit s.timeline m (k := k)) s.next
  unfold perform
  dsimp only [shift]
  rw [hg, hadvance]
  rcases (s.timeline.advance g.dynamics s.limit m).runFrom s.next with ⟨fault | t, mid⟩ <;> rfl

end Session

namespace Game

variable (g : Game)

theorem beginIn_shift {s : Session State Move} (hg : s.dynamics = g.dynamics) (target : NodeId) :
    g.beginIn (s.shift k) (target + k) = Prod.map (Session.shift k)
      (fun o => (o.map (Option.map (BegunStep.shift k))).mapError (Fault.shift k))
      (g.beginIn s target) := by
  have hg' : (s.shift k).dynamics = g.dynamics := hg
  have hrun' : (g.begin (s.shift k).timeline.present (target + k)).runFrom (s.shift k).next = _ :=
    Shift.runFrom_eq (g.begin_shift s.timeline.present target) s.next
  rcases hrun : (g.begin s.timeline.present target).runFrom s.next with
    ⟨(why | fault) | step, next⟩ <;> rw [hrun] at hrun'
  · rw [beginIn_of_rejected hg hrun, beginIn_of_rejected hg' hrun']
    rfl
  · rw [beginIn_of_fatal hrun, beginIn_of_fatal hrun']
    rfl
  · rw [beginIn_of_ok hrun, beginIn_of_ok hrun']
    rfl

end Game

/-! ### Plays -/

namespace Play

/-- The same request on ids raised by `k`. -/
def Request.shift (k : Nat) : Request → Request
  | .command c => .command (c.shift k)
  | .begin target => .begin (target + k)
  | .complete position => .complete position

/-- The same play with all ids raised by `k`. -/
def shift (k : Nat) (p : Play) : Play := ⟨p.session.shift k, p.begun.map (BegunStep.shift k)⟩

/-- The fault that a request to a play ends in. -/
def fault? (g : Game) (p : Play) : Request → Option Fault
  | .command c => (p.session.perform (.command c)).2
  | .begin target =>
    match (g.beginIn p.session target).2 with
    | .ok _ => none
    | .error fault => some fault
  | .complete position => p.begun[position]?.bind fun step => (p.session.perform (.commit step)).2

/-- What requests to a play come to, one after the other: the play after each of them, and the fault
that it ends in. -/
def transcript (g : Game) (p : Play) : List Request → List (Play × Option Fault)
  | [] => []
  | r :: requests => (p.take g r, p.fault? g r) :: transcript g (p.take g r) requests

variable {g : Game} {p : Play}

theorem take_shift (hg : p.session.dynamics = g.dynamics) (r : Request) :
    (p.shift k).take (g.shift k) (r.shift k) = (p.take g r).shift k := by
  show (p.shift k).take g (r.shift k) = _
  cases r with
  | command c =>
    show Play.mk ((p.session.shift k).perform (Move.shift k (.command c))).1 _ = _
    rw [Session.perform_shift hg]
    rfl
  | begin target =>
    dsimp only [take, shift, Request.shift]
    rw [g.beginIn_shift hg target]
    rcases g.beginIn p.session target with ⟨session, fault | step⟩
    · rfl
    · dsimp only [Prod.map, Except.map, Except.mapError]
      rw [List.map_append]
      cases step <;> rfl
  | complete position =>
    dsimp only [take, shift, Request.shift]
    rw [List.getElem?_map]
    cases p.begun[position]? with
    | none => rfl
    | some step =>
      show Play.mk ((p.session.shift k).perform (Move.shift k (.commit step))).1 _ = _
      rw [Session.perform_shift hg]
      rfl

theorem fault?_shift (hg : p.session.dynamics = g.dynamics) (r : Request) :
    (p.shift k).fault? (g.shift k) (r.shift k) = (p.fault? g r).map (Fault.shift k) := by
  show (p.shift k).fault? g (r.shift k) = _
  cases r with
  | command c =>
    show ((p.session.shift k).perform (Move.shift k (.command c))).2 = _
    rw [Session.perform_shift hg]
    rfl
  | begin target =>
    dsimp only [fault?, shift, Request.shift]
    rw [g.beginIn_shift hg target]
    rcases g.beginIn p.session target with ⟨session, fault | step⟩ <;> rfl
  | complete position =>
    dsimp only [fault?, shift, Request.shift]
    rw [List.getElem?_map]
    cases p.begun[position]? with
    | none => rfl
    | some step =>
      show ((p.session.shift k).perform (Move.shift k (.commit step))).2 = _
      rw [Session.perform_shift hg]
      rfl

/-- Shifted requests to a shifted play come to what the requests come to, shifted. -/
theorem transcript_shift (hg : p.session.dynamics = g.dynamics) (requests : List Request) :
    (p.shift k).transcript (g.shift k) (requests.map (Request.shift k)) =
      (p.transcript g requests).map (Prod.map (shift k) (Option.map (Fault.shift k))) := by
  induction requests generalizing p with
  | nil => rfl
  | cons r requests ih =>
    rw [List.map_cons, transcript, transcript, take_shift hg, fault?_shift hg,
      ih (dynamics_take hg r)]
    rfl

end Play

/-! ### Starting levels -/

theorem Session.start_shift {d : Dynamics State Move} {level : Nat}
    (h : (takes k).rel (Image (State.shift k)) (d.initial level) (d.initial level))
    (next : NodeId) (limit : Nat) :
    start d level (next + k) limit =
      ((start d level next limit).map (shift k)).mapError (Fault.shift k) := by
  unfold start
  rw [Shift.runFrom_eq h]
  split
  · rfl
  · rcases (d.initial level).runFrom next with ⟨fault | s, mid⟩ <;> rfl

/-- A level starts with the same state, shifted, if the supply of ids starts higher. -/
theorem Game.start_shift (g : Game) (hg : 1 ≤ g.settings.firstId) (level : Nat) :
    (g.shift k).start level =
      ((g.start level).map (Session.shift k)).mapError (Fault.shift k) := by
  have hfirst : Supply.first (g.settings.firstId + k) = Supply.first g.settings.firstId + k := by
    unfold Supply.first
    lia
  show Session.start g.dynamics level (Supply.first (g.settings.firstId + k)) _ = _
  rw [hfirst]
  exact Session.start_shift (g.levels.load_shift g.signature level) _ _

/-- Starting a level in a session gives what a new session of the game starts with, shifted by `j`. -/
structure Session.StartsAfresh (s : Session State Move) (g : Game) (j level : Nat) : Prop where
  of_ok : ∀ fresh, g.start level = .ok fresh → s.perform (.command (.startLevel level)) =
    ({ s with
        timeline := .startingAt s.timeline.nextStamp (fresh.present.shift j)
        next := fresh.next + j }, none)
  of_error : ∀ fault, g.start level = .error fault → ∃ next,
    s.perform (.command (.startLevel level)) = ({ s with next }, some (fault.shift j))

theorem Session.startsAfresh {g : Game} {s : Session State Move} (hg : s.dynamics = g.dynamics)
    (hlimit : g.settings.historyLimit ≠ 0) {j : Nat}
    (hnext : s.next = Supply.first g.settings.firstId + j) (level : Nat) :
    s.StartsAfresh g j level := by
  have hadvance : s.timeline.advance g.dynamics s.limit (.command (.startLevel level)) = (do
      let state ← g.levels.load g.signature level
      return .startingAt s.timeline.nextStamp state) := rfl
  have hload := Shift.runFrom_eq (g.levels.load_shift g.signature level (k := j))
    (Supply.first g.settings.firstId)
  refine ⟨fun fresh h => ?_, fun fault h => ?_⟩
  · obtain ⟨-, -, -, state, hrun, htimeline⟩ := of_start h
    have hpresent : fresh.present = state := by rw [present, htimeline]; rfl
    have hrun' : (g.levels.load g.signature level).runFrom _ = _ := hrun
    rw [perform, hg, hadvance, Supply.runFrom_bind, hnext, hload, hrun', hpresent]
    rfl
  · unfold Game.start start at h
    rw [if_neg hlimit] at h
    split at h
    · cases h
    · next fault' next hrun =>
      obtain rfl := Except.error.inj h
      have hrun' : (g.levels.load g.signature level).runFrom _ = _ := hrun
      rw [perform, hg, hadvance, Supply.runFrom_bind, hnext, hload, hrun']
      exact ⟨next + j, rfl⟩

namespace Play

/-- Where the supply of ids starts does not show in a play. If it starts higher by `k`, a level starts
in the same state shifted by `k`, or fails to for the same reason. Requests whose ids are raised by `k`
as well come, one after the other, to the same ends and to the same plays up to the shift: all
snapshots, what they report as added and removed, and the refusal that is remembered. In particular, a
level that is started within a play starts as in a new session, up to a shift. -/
theorem transcript_shift_of_start (g : Game) (hg : 1 ≤ g.settings.firstId) (k level : Nat) :
    (g.shift k).start level =
      ((g.start level).map (Session.shift k)).mapError (Fault.shift k) ∧
    ∀ session, g.start level = .ok session → ∀ requests : List Request,
      transcript (g.shift k) ⟨session.shift k, []⟩ (requests.map (Request.shift k)) =
        (transcript g ⟨session, []⟩ requests).map
          (Prod.map (shift k) (Option.map (Fault.shift k))) ∧
      ∃ j, (takeAll g ⟨session, []⟩ requests).session.next =
          Supply.first g.settings.firstId + j ∧
        ∀ index, (takeAll g ⟨session, []⟩ requests).session.StartsAfresh g j index := by
  refine ⟨g.start_shift hg level, fun session hsession requests => ?_⟩
  have hsound := sound_start hsession
  obtain ⟨-, hlimit, horderly, state, hrun, -⟩ := Session.of_start hsession
  refine ⟨transcript_shift hsound.dynamics requests, ?_⟩
  have hfirst := ((g.levels.hung_load g.signature level _).of_ok hrun).1
  obtain ⟨j, hj⟩ :=
    Nat.exists_eq_add_of_le (Nat.le_trans hfirst (hsound.le_takeAll requests))
  refine ⟨j, hj, Session.startsAfresh (hsound.takeAll requests).dynamics ?_ hj⟩
  exact hlimit ▸ Nat.pos_iff_ne_zero.1 horderly.limit_pos

/-- A game whose level has the negation of a truth value on its board. -/
def flipping : Game where
  levels := ⟨[{ board := [.not (.boolean true)] }]⟩

theorem transcript_shift_of_start_flipping : 1 ≤ flipping.settings.firstId ∧
    ∃ session, flipping.start 0 = .ok session ∧
      (transcript (flipping.shift 7) ⟨session.shift 7, []⟩
        [.begin 8, .command (.detach 9), .command (.execute 16), .complete 0,
          .command (.startLevel 0)]).map Prod.snd =
        [none, none, some (.dangling 16), some (.staleStep 8), none] := by
  have hfirst : 1 ≤ flipping.settings.firstId := by decide
  refine ⟨hfirst, ?_⟩
  cases h : flipping.start 0 with
  | error fault =>
    have hstart : (flipping.start 0).toOption.isSome = true := by decide +kernel
    rw [h] at hstart
    cases hstart
  | ok session =>
    have hfaults : (flipping.start 0).toOption.map (fun session =>
        (transcript flipping ⟨session, []⟩ [.begin 1, .command (.detach 2), .command (.execute 9),
          .complete 0, .command (.startLevel 0)]).map Prod.snd) =
        some [none, none, some (.dangling 9), some (.staleStep 1), none] := by decide +kernel
    rw [h] at hfaults
    have hplay := (((transcript_shift_of_start flipping hfirst 7 0).2 session h)
      [.begin 1, .command (.detach 2), .command (.execute 9), .complete 0,
        .command (.startLevel 0)]).1
    refine ⟨session, rfl, ?_⟩
    refine (congrArg (List.map Prod.snd) hplay).trans ?_
    have hmap := congrArg (List.map (Option.map (Fault.shift 7))) (Option.some.inj hfaults)
    rw [List.map_map] at hmap ⊢
    exact hmap

end Play

end TermForest
