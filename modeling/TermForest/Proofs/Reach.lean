import TermForest.Proofs.Chronicle
import TermForest.Proofs.Level.Hung
import TermForest.Proofs.Play

/-!
# Plays from a level

A play that starts at a level goes through hung states only, whatever is asked of it and whatever the
level file says. Each step that has been begun was worked out on its base from some next id on, and
two snapshots with one stamp are the same snapshot.
-/

namespace TermForest

open Supply (Meets)

/-! ### Commands -/

/-- What the state after a command says of the change: the report of a moved definition lacks what
was removed, and cleaning up reports nothing. -/
def Command.Tells (s s' : State) : Command → Prop
  | .moveToDefs id => s.Redefines id s'
  | .cleanup => True
  | _ => s.Reports s'

namespace Game

variable {s : State} {next : Nat}

theorem hung_obey (h : s.Hung next) (g : Game) (c : Command) :
    (g.obey s c).Meets next (fun o next' => ∀ s', o = some s' → s'.Hung next' ∧ c.Tells s s')
      fun _ => True := by
  cases c with
  | execute x => exact h.meets_step g.signature g.settings.maxRepeat x
  | detach x => exact h.meets_detach x
  | moveToBoard x =>
    exact (Meets.of_ends (h.ends_moveToBoard x)).imp
      (fun _ _ hle ho s' hs' => ⟨(ho s' hs').1.mono hle, (ho s' hs').2⟩) fun _ => id
  | moveToDefs x => exact h.meets_moveToDefs g.signature x
  | moveToSlot x hole =>
    exact (Meets.of_ends (h.ends_moveToSlot g.signature x hole)).imp
      (fun _ _ hle ho s' hs' => ⟨(ho s' hs').1.mono hle, (ho s' hs').2⟩) fun _ => id
  | cleanup =>
    exact .liftFault (fun o ho s' hs' => ⟨h.ends_cleanup.of_ok ho s' hs', trivial⟩) fun _ _ => trivial
  | detectCompletion =>
    exact .liftFault (fun o ho => (h.ends_detectCompletion g.signature).of_ok ho) fun _ _ => trivial
  | raiseError why => exact .throw trivial
  | startLevel _ => exact .pure nofun
  | undo => exact .pure nofun
  | redo => exact .pure nofun
  | clearError => exact .pure nofun

end Game

/-! ### Begun steps -/

/-- A first phase of a game is one of its state, and remembers the snapshot and the target. -/
theorem Game.of_begin {g : Game} {s : Snapshot State} {target : NodeId} {p : BegunStep} {lo hi : Nat}
    (h : (g.begin s target).runFrom lo = (.ok p, hi)) :
    p.base = s ∧ p.target = target ∧
      (s.state.begin g.signature g.settings.maxRepeat target).runFrom lo = (.ok p.work, hi) := by
  rw [Game.begin, Supply.runFrom_bind] at h
  rcases hbegin : (s.state.begin g.signature g.settings.maxRepeat target).runFrom lo with
    ⟨e | work, next⟩ <;> rw [hbegin] at h
  · cases h
  · cases h
    exact ⟨rfl, rfl, rfl⟩

/-- A step was begun on a hung state from the next id `lo` on, and its first phase ended at `hi`. -/
structure BegunStep.Begun (g : Game) (p : BegunStep) (lo hi : Nat) : Prop where
  base : p.base.state.Hung lo
  run : (g.begin p.base p.target).runFrom lo = (.ok p, hi)

namespace BegunStep.Begun

variable {g : Game} {p : BegunStep} {lo hi : Nat}

/-- The plan of a begun step is what its first phase gives. -/
theorem runFrom_begin (h : p.Begun g lo hi) :
    (p.base.state.begin g.signature g.settings.maxRepeat p.target).runFrom lo =
      (.ok p.work, hi) :=
  (Game.of_begin h.run).2.2

theorem le_and_addsRoot (h : p.Begun g lo hi) :
    lo ≤ hi ∧ p.work.AddsRoot p.base.state.nodes lo hi := by
  obtain ⟨hle, hadds, -⟩ := (State.addsRoot_begin h.base.nodes _ _ _).of_ok h.runFrom_begin
  exact ⟨hle, hadds⟩

/-- The second phase of a begun step reports what the step changes in its base. -/
theorem meets_commit (h : p.Begun g lo hi) (s : Snapshot State) {next : Nat} (hhi : hi ≤ next) :
    (g.commit s p).Meets next
      (fun o next' => ∀ s', o = some s' → p.base.stamp = s.stamp ∧ s'.Hung next' ∧
        p.base.state.Reports s') fun _ => True := by
  obtain ⟨hle, hadds⟩ := h.le_and_addsRoot
  unfold Game.commit
  split
  · next hstamp =>
    exact (h.base.meets_complete g.signature hadds hle hhi).imp
      (fun _ _ _ ho s' hs' => ⟨hstamp, ho s' hs'⟩) fun _ => id
  · exact .throw trivial

end BegunStep.Begun

/-- A first phase names its base and its target. -/
theorem Game.meets_begin_base (g : Game) {s : Snapshot State} {next : Nat} (h : s.state.Hung next)
    (target : NodeId) :
    (g.begin s target).Meets next (fun p _ => p.base = s ∧ p.target = target) fun _ => True :=
  (State.addsRoot_begin h.nodes _ _ target).bind fun _ _ _ _ => .pure ⟨rfl, rfl⟩

/-! ### Snapshots -/

namespace Timeline

variable {σ α : Type} {t t' : Timeline σ}

/-- A snapshot is on the timeline. -/
def Has (t : Timeline σ) (x : Snapshot σ) : Prop := x = t.present ∨ x ∈ t.past ∨ x ∈ t.future

/-- The snapshots of `t'` are those of `t` and possibly a new present one, with the next stamp. -/
structure Continues (t t' : Timeline σ) : Prop where
  le : t.nextStamp ≤ t'.nextStamp
  has : ∀ x, t'.Has x →
    t.Has x ∨ x = t'.present ∧ x.stamp = t.nextStamp ∧ t.nextStamp < t'.nextStamp

theorem Continues.of_has (hstamp : t'.nextStamp = t.nextStamp) (h : ∀ x, t'.Has x → t.Has x) :
    t.Continues t' :=
  ⟨Nat.le_of_eq hstamp.symm, fun x hx => .inl (h x hx)⟩

theorem continues_startingAt (t : Timeline σ) (state : σ) :
    t.Continues (startingAt t.nextStamp state) where
  le := Nat.le_succ _
  has := by
    rintro x (rfl | hx | hx)
    · exact .inr ⟨rfl, rfl, Nat.lt_succ_self _⟩
    · cases hx
    · cases hx

theorem continues_undo (t : Timeline σ) : t.Continues t.undo := by
  obtain hundo | ⟨previous, past, hpast, hundo⟩ := t.undo_cases <;> rw [hundo]
  · exact .of_has rfl fun _ hx => hx
  · refine .of_has rfl fun x hx => ?_
    unfold Has at hx ⊢
    rw [hpast, List.mem_cons]
    rcases hx with rfl | hx | hx
    · exact .inr (.inl (.inl rfl))
    · exact .inr (.inl (.inr hx))
    · exact (List.mem_cons.1 hx).imp id .inr

theorem mem_of_mem_take_cons {x : Snapshot σ} {limit : Nat}
    (hx : x ∈ (t.present :: t.past).take limit) : x = t.present ∨ x ∈ t.past :=
  List.mem_cons.1 (List.mem_of_mem_take hx)

theorem continues_redo (limit : Nat) (t : Timeline σ) : t.Continues (t.redo limit) := by
  obtain hredo | ⟨following, future, hfuture, hredo⟩ := t.redo_cases limit <;> rw [hredo]
  · exact .of_has rfl fun _ hx => hx
  · refine .of_has rfl fun x hx => ?_
    unfold Has at hx ⊢
    rw [hfuture, List.mem_cons]
    rcases hx with rfl | hx | hx
    · exact .inr (.inr (.inl rfl))
    · exact (mem_of_mem_take_cons hx).imp id .inl
    · exact .inr (.inr (.inr hx))

theorem continues_push (limit : Nat) (t : Timeline σ) (state : σ) :
    t.Continues (t.push limit state) where
  le := Nat.le_succ _
  has := by
    rintro x (rfl | hx | hx)
    · exact .inr ⟨rfl, rfl, Nat.lt_succ_self _⟩
    · exact .inl ((mem_of_mem_take_cons hx).imp id .inl)
    · cases hx

theorem continues_replace (t : Timeline σ) (state : σ) : t.Continues (t.replace state) where
  le := Nat.le_succ _
  has := by
    rintro x (rfl | hx | hx)
    · exact .inr ⟨rfl, rfl, Nat.lt_succ_self _⟩
    · exact .inl (.inr (.inl hx))
    · exact .inl (.inr (.inr hx))

/-- An action adds at most one snapshot, under the next stamp. -/
theorem continues_of_advance {d : Dynamics σ α} {limit : Nat} {action : α} {next next' : NodeId}
    (h : (t.advance d limit action).runFrom next = (.ok t', next')) : t.Continues t' := by
  obtain ⟨_, rfl⟩ | rfl | rfl | ⟨state, rfl⟩ | ⟨state, rfl⟩ | ⟨state, rfl⟩ := advance_cases h
  · exact .of_has rfl fun _ hx => hx
  · exact t.continues_undo
  · exact t.continues_redo limit
  · exact t.continues_startingAt state
  · exact t.continues_push limit state
  · exact t.continues_replace state

end Timeline

theorem Session.continues_perform {σ α : Type} (s : Session σ α) (action : α) :
    s.timeline.Continues (s.perform action).1.timeline := by
  unfold Session.perform
  split
  · next hrun => exact Timeline.continues_of_advance hrun
  · exact .of_has rfl fun _ hx => hx

/-! ### Plays -/

namespace Play

variable {g : Game} {p : Play}

/-- A snapshot is on the timeline of a play or the base of a begun step. -/
def Knows (p : Play) (x : Snapshot State) : Prop :=
  p.session.timeline.Has x ∨ ∃ step ∈ p.begun, x = step.base

/-- Stamps tell the snapshots of a play apart, and none of them is used up. -/
structure Stamped (p : Play) : Prop where
  lt : ∀ x, p.Knows x → x.stamp < p.session.timeline.nextStamp
  eq : ∀ x y, p.Knows x → p.Knows y → x.stamp = y.stamp → x = y

/-- A play goes on: its timeline continues the one there was, and newly begun steps have known
bases. -/
theorem Stamped.of_continues {p' : Play} (h : p.Stamped)
    (ht : p.session.timeline.Continues p'.session.timeline)
    (hb : ∀ step ∈ p'.begun, p.Knows step.base) : p'.Stamped := by
  have hcases : ∀ x, p'.Knows x → p.Knows x ∨ x = p'.session.timeline.present ∧
      x.stamp = p.session.timeline.nextStamp ∧
      p.session.timeline.nextStamp < p'.session.timeline.nextStamp := by
    rintro x (hx | ⟨step, hstep, rfl⟩)
    · exact (ht.has x hx).imp .inl id
    · exact .inl (hb step hstep)
  constructor
  · intro x hx
    rcases hcases x hx with hx | ⟨-, hstamp, hlt⟩
    · exact Nat.lt_of_lt_of_le (h.lt x hx) ht.le
    · exact hstamp ▸ hlt
  · intro x y hx hy hxy
    rcases hcases x hx with hx | ⟨hxp, hxs, -⟩ <;> rcases hcases y hy with hy | ⟨hyp, hys, -⟩
    · exact h.eq x y hx hy hxy
    · exact absurd (h.lt x hx) (by rw [hxy, hys]; exact Nat.lt_irrefl _)
    · exact absurd (h.lt y hy) (by rw [← hxy, hxs]; exact Nat.lt_irrefl _)
    · exact hxp.trans hyp.symm

/-- All states of a play are hung, each of its begun steps was begun on a hung state with ids that
have been handed out, and stamps tell its snapshots apart. -/
structure Sound (g : Game) (p : Play) : Prop where
  dynamics : p.session.dynamics = g.dynamics
  states : p.session.timeline.All (State.Hung p.session.next)
  begun : ∀ step ∈ p.begun, ∃ lo hi, step.Begun g lo hi ∧ hi ≤ p.session.next
  stamped : p.Stamped

/-- The base of a begun step with the stamp of the present snapshot is that snapshot. -/
theorem Sound.base_eq (h : p.Sound g) {step : BegunStep} (hstep : step ∈ p.begun)
    (hstamp : step.base.stamp = p.session.timeline.present.stamp) :
    step.base = p.session.timeline.present :=
  h.stamped.eq _ _ (.inr ⟨step, hstep, rfl⟩) (.inl (.inl rfl)) hstamp

/-- A move that gives hung states keeps a play sound, and uses ids upwards. -/
theorem Sound.perform (h : p.Sound g) (m : Move)
    (hchange : g.dynamics.steering? m = none →
      (g.dynamics.change p.session.timeline.present m).Meets p.session.next
        (fun o next' => ∀ s', o = some s' → s'.Hung next') fun _ => True) :
    Sound g { p with session := (p.session.perform m).1 } ∧
      p.session.next ≤ (p.session.perform m).1.next := by
  obtain ⟨hstates, hnext, -⟩ := Session.all_perform (s := p.session) (E := fun _ => True)
    (P := State.Hung) (fun _ _ _ hmn hs => hs.mono hmn) h.states
    (fun level (_ : p.session.dynamics.steering? m = some (.startLevel level)) =>
      h.dynamics ▸ (g.levels.hung_load g.signature level _).imp (fun _ _ _ hs => hs.1) fun _ => id)
    (fun hm => h.dynamics ▸ (hchange (h.dynamics ▸ hm)).imp (fun _ _ _ ho => ho)
      fun _ _ _ _ => trivial)
  refine ⟨⟨(p.session.dynamics_perform m).trans h.dynamics, hstates, fun step hstep => ?_,
    h.stamped.of_continues (p.session.continues_perform m) fun step hstep => .inr ⟨step, hstep, rfl⟩⟩,
    hnext⟩
  obtain ⟨lo, hi, hbegun, hhi⟩ := h.begun step hstep
  exact ⟨lo, hi, hbegun, Nat.le_trans hhi hnext⟩

/-- Ids that are used up, an error, and steps that are begun on the present state keep a play
sound. -/
theorem Sound.begin (h : p.Sound g) {next : NodeId} (hnext : p.session.next ≤ next)
    (error : Option Rejection) (steps : List BegunStep)
    (hsteps : ∀ step ∈ steps, step.base = p.session.timeline.present ∧
      step.Begun g p.session.next next) :
    Sound g ⟨{ p.session with timeline := { p.session.timeline with error }, next },
      p.begun ++ steps⟩ := by
  refine ⟨h.dynamics, (h.states.imp fun _ hs => hs.mono hnext).withError error, fun step hstep => ?_,
    h.stamped.of_continues (.of_has rfl fun _ hx => hx) fun step hstep => ?_⟩
  · rcases List.mem_append.1 hstep with hstep | hstep
    · obtain ⟨lo, hi, hbegun, hhi⟩ := h.begun step hstep
      exact ⟨lo, hi, hbegun, Nat.le_trans hhi hnext⟩
    · exact ⟨_, _, (hsteps step hstep).2, Nat.le_refl next⟩
  · rcases List.mem_append.1 hstep with hstep | hstep
    · exact .inr ⟨step, hstep, rfl⟩
    · exact .inl (.inl (hsteps step hstep).1)

/-- A first phase leaves all snapshots as they are, and may give a begun step. -/
theorem Sound.exists_take_begin (h : p.Sound g) (target : NodeId) : ∃ error next steps,
    p.take g (.begin target) =
      ⟨{ p.session with timeline := { p.session.timeline with error }, next }, p.begun ++ steps⟩ ∧
    p.session.next ≤ next ∧ (steps = [] ∨ ∃ step, steps = [step] ∧
      step.base = p.session.timeline.present ∧ step.Begun g p.session.next next) := by
  have hbegin := g.meets_begin_base h.states.present target
  dsimp only [Play.take]
  rcases hrun : (g.begin p.session.timeline.present target).runFrom p.session.next with
    ⟨(why | fault) | step, next⟩
  · rw [Game.beginIn_of_rejected h.dynamics hrun]
    exact ⟨some why, next, [], rfl, (hbegin.of_error hrun).1, .inl rfl⟩
  · rw [Game.beginIn_of_fatal hrun]
    exact ⟨_, next, [], by rw [List.append_nil], (hbegin.of_error hrun).1, .inl rfl⟩
  · rw [Game.beginIn_of_ok hrun]
    obtain ⟨hle, hbase, htarget⟩ := hbegin.of_ok hrun
    refine ⟨_, next, [step], rfl, hle, .inr ⟨step, rfl, hbase, hbase ▸ h.states.present, ?_⟩⟩
    rw [hbase, htarget]
    exact hrun

/-- Every request keeps a play sound, and uses ids upwards. -/
theorem Sound.take_and_le (h : p.Sound g) (r : Request) :
    (p.take g r).Sound g ∧ p.session.next ≤ (p.take g r).session.next := by
  cases r with
  | command c =>
    refine h.perform _ fun _ => ?_
    exact (g.hung_obey h.states.present c).imp (fun _ _ _ ho s' hs' => (ho s' hs').1) fun _ => id
  | begin target =>
    obtain ⟨error, next, steps, htake, hle, hsteps⟩ := h.exists_take_begin target
    rw [htake]
    refine ⟨h.begin hle error steps fun q hq => ?_, hle⟩
    rcases hsteps with rfl | ⟨step, rfl, hstep⟩
    · cases hq
    · exact List.mem_singleton.1 hq ▸ hstep
  | complete position =>
    dsimp only [Play.take]
    split
    · next step hstep =>
      obtain ⟨lo, hi, hbegun, hhi⟩ := h.begun step (List.mem_of_getElem? hstep)
      refine h.perform _ fun _ => .liftSupply ?_
      exact (hbegun.meets_commit p.session.timeline.present hhi).imp
        (fun _ _ _ ho s' hs' => (ho s' hs').2.1) fun _ => id
    · exact ⟨h, Nat.le_refl _⟩

theorem Sound.take (h : p.Sound g) (r : Request) : (p.take g r).Sound g := (h.take_and_le r).1

theorem Sound.takeAll (h : p.Sound g) (requests : List Request) : (p.takeAll g requests).Sound g := by
  induction requests generalizing p with
  | nil => exact h
  | cons r requests ih => exact ih (h.take r)

theorem Sound.le_takeAll (h : p.Sound g) (requests : List Request) :
    p.session.next ≤ (p.takeAll g requests).session.next := by
  induction requests generalizing p with
  | nil => exact Nat.le_refl _
  | cons r requests ih =>
    obtain ⟨htake, hle⟩ := h.take_and_le r
    exact Nat.le_trans hle (ih htake)

/-- A session that starts at a level has a single snapshot. -/
theorem eq_present_of_start {session : Session State Move} {level : Nat}
    (h : g.start level = .ok session) {y : Snapshot State} (hy : session.timeline.Has y) :
    y = session.timeline.present := by
  obtain ⟨-, -, -, state, -, htimeline⟩ := Session.of_start h
  rw [htimeline] at hy ⊢
  rcases hy with rfl | hy | hy
  · rfl
  · cases hy
  · cases hy

/-- A play that starts at a level is sound. -/
theorem sound_start {session : Session State Move} {level : Nat} (h : g.start level = .ok session) :
    Sound g ⟨session, []⟩ := by
  obtain ⟨hdynamics, -, -, state, hrun, htimeline⟩ := Session.of_start h
  have hstate := ((g.levels.hung_load g.signature level _).of_ok hrun).2.1
  have hknows : ∀ x, Knows ⟨session, []⟩ x → x = session.timeline.present := by
    rintro x (hx | ⟨step, hstep, -⟩)
    · exact eq_present_of_start h hx
    · cases hstep
  refine ⟨hdynamics, htimeline ▸ Timeline.all_startingAt hstate, nofun, fun x hx => ?_,
    fun x y hx hy _ => (hknows x hx).trans (hknows y hy).symm⟩
  rw [hknows x hx, htimeline]
  exact Nat.lt_succ_self _

end Play

end TermForest
