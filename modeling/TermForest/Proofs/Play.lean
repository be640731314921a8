import TermForest.Proofs.State.Completion
import TermForest.Proofs.State.Step
import TermForest.Proofs.Timeline

/-!
# Plays

A play is a session together with the steps that have been begun in it. Requests to a play are
commands, first phases and second phases of steps, in any order and with any ids.

The main result is that a play of well-formed states stays one, whatever is asked of it.
-/

namespace TermForest

open Supply (Meets)

/-! ### Commands -/

/-- Every node that a command names is there. -/
def Command.Finds (F : Forest) : Command → Prop
  | .execute x | .detach x | .moveToBoard x | .moveToDefs x => ∃ n, F.get? x = some n
  | .moveToSlot x hole => (∃ n, F.get? x = some n) ∧ ∃ n, F.get? hole = some n
  | _ => True

/-- A command puts a root into a hole that stands on the board itself. -/
def Command.FillsLoose (s : State) (hole : NodeId) : Command → Prop
  | .moveToSlot x hole' => hole' = hole ∧ s.FitsLoose x hole
  | _ => False

namespace Game

variable {s : State} {next : Nat}

/-- A command that names nodes which are there is refused, fills a loose hole, or keeps the state. -/
theorem meets_obey (h : s.Kept next) (g : Game) (c : Command) :
    (g.obey s c).Meets next (fun o next' => ∀ s', o = some s' → s'.Kept next')
      fun e => e.IsRefusal ∨ ¬g.signature.Full ∨ ¬c.Finds s.nodes ∨
        ∃ hole, e = .fatal (.broken (.looseHole hole)) ∧ c.FillsLoose s hole := by
  have hmissing : ∀ {x : NodeId}, s.nodes.get? x = none → ¬∃ n, s.nodes.get? x = some n := by
    rintro x hx ⟨n, hn⟩
    rw [hx] at hn
    cases hn
  cases c with
  | execute x =>
    refine (h.meets_step _ _ x).imp (fun _ _ _ ho => ho) fun e he => ?_
    exact he.imp (·.isRefusal) (Or.imp id fun hx => .inl (hmissing hx))
  | detach x =>
    refine (h.meets_detach x).imp (fun _ _ _ ho => ho) fun e he => ?_
    exact he.imp id fun hx => .inr (.inl (hmissing hx))
  | moveToBoard x => exact (h.moveToBoard x).imp (fun _ _ _ ho => ho) fun _ => .inl
  | moveToDefs x =>
    refine (h.meets_moveToDefs _ x).imp (fun _ _ _ ho => ho) fun e he => ?_
    exact he.imp id .inl
  | moveToSlot x hole =>
    refine (Meets.of_ends (h.ends_moveToSlot g.signature x hole)).imp (fun _ _ hnext ho => ?_)
      fun e he => ?_
    · exact fun s' hs' => (ho s' hs').mono hnext
    · exact he.imp id (Or.imp id (Or.imp (fun hx hf => hmissing hx hf.2)
        fun hx => ⟨hole, hx.1, rfl, hx.2⟩))
  | cleanup =>
    obtain ⟨o, ho, hkept⟩ := h.exists_cleanup
    exact .liftFault (fun o' ho' => by
      rw [ho, Except.ok.injEq] at ho'
      exact ho' ▸ hkept) fun e he => by
      rw [ho] at he
      cases he
  | detectCompletion =>
    have hends := h.ends_detectCompletion g.signature
    exact .liftFault (fun o ho => hends.of_ok ho) fun e he => .inr (.inl (hends.of_error he))
  | raiseError why => exact .throw (.inl ⟨why, rfl⟩)
  | startLevel _ => exact .pure nofun
  | undo => exact .pure nofun
  | redo => exact .pure nofun
  | clearError => exact .pure nofun

end Game

/-! ### Begun steps -/

/-- A begun step is kept while its base is and its plan fits. -/
def BegunStep.Kept (next : Nat) (p : BegunStep) : Prop :=
  p.base.state.Kept next ∧ p.work.Fits p.base.state next

theorem BegunStep.Kept.mono {p : BegunStep} {next next' : Nat} (h : p.Kept next)
    (hn : next ≤ next') : p.Kept next' :=
  ⟨h.1.mono hn, h.2.mono hn⟩

namespace Game

variable {next : Nat}

theorem meets_begin (g : Game) {s : Snapshot State} (h : s.state.Kept next) (target : NodeId) :
    (g.begin s target).Meets next (fun p next' => p.Kept next')
      fun e => e.IsRefusal ∨ ¬g.signature.Full ∨ s.state.nodes.get? target = none :=
  ((h.meets_begin _ _ target).imp (fun _ _ _ hp => hp) fun _ he => he.imp (·.isRefusal) id).bind
    fun _ _ hnext hp => .pure ⟨h.mono hnext, hp⟩

theorem meets_commit (g : Game) (s : Snapshot State) {p : BegunStep} (h : p.Kept next) :
    (g.commit s p).Meets next (fun o next' => ∀ s', o = some s' → s'.Kept next')
      fun e => ¬g.signature.Full ∨ e = .staleStep p.target := by
  unfold commit
  split
  · exact (h.1.meets_complete _ h.2).imp (fun _ _ _ ho => ho) fun _ => .inl
  · exact .throw (.inr rfl)

end Game

/-! ### First phases in a session -/

namespace Game

variable {g : Game} {session : Session State Move} {target next : NodeId}

theorem perform_raiseError (session : Session State Move) (hg : session.dynamics = g.dynamics)
    (why : Rejection) :
    session.perform (.command (.raiseError why)) =
      ({ session with timeline := { session.timeline with error := some why } }, none) := by
  unfold Session.perform
  rw [hg]
  rfl

theorem beginIn_of_ok {step : BegunStep}
    (h : (g.begin session.timeline.present target).runFrom session.next = (.ok step, next)) :
    g.beginIn session target = ({ session with next }, .ok (some step)) := by
  rw [beginIn, h]

/-- A refusal leaves nothing but itself. -/
theorem beginIn_of_rejected (hg : session.dynamics = g.dynamics) {why : Rejection}
    (h : (g.begin session.timeline.present target).runFrom session.next =
      (.error (.rejected why), next)) :
    g.beginIn session target =
      ({ session with timeline := { session.timeline with error := some why }, next },
        .ok none) := by
  have hperform := perform_raiseError { session with next } hg why
  rw [beginIn, h]
  dsimp only
  rw [hperform]

theorem beginIn_of_fatal {fault : Fault}
    (h : (g.begin session.timeline.present target).runFrom session.next =
      (.error (.fatal fault), next)) :
    g.beginIn session target = ({ session with next }, .error fault) := by
  rw [beginIn, h]

end Game

/-! ### Requests -/

/-- What can be asked of a play. -/
inductive Play.Request where
  | command (c : Command)
  /-- The first phase of a step inside the board tree that contains the target. -/
  | begin (target : NodeId)
  /-- The second phase of the step at a position among those that have been begun. -/
  | complete (position : Nat)
  deriving DecidableEq, Repr

/-- A session and the steps that have been begun in it, oldest first. -/
structure Play where
  session : Session State Move
  begun : List BegunStep := []

namespace Play

/-- The play after a request. -/
def take (g : Game) (p : Play) : Request → Play
  | .command c => { p with session := (p.session.perform (.command c)).1 }
  | .begin target =>
    match g.beginIn p.session target with
    | (session, .ok step) => ⟨session, p.begun ++ step.toList⟩
    | (session, .error _) => { p with session }
  | .complete position =>
    match p.begun[position]? with
    | some step => { p with session := (p.session.perform (.commit step)).1 }
    | none => p

/-- The play after some requests. -/
def takeAll (g : Game) (p : Play) (requests : List Request) : Play :=
  requests.foldl (take g) p

/-- All states of a play and all steps that have been begun in it are kept. -/
structure Kept (p : Play) : Prop where
  states : p.session.timeline.All (State.Kept p.session.next)
  begun : ∀ step ∈ p.begun, step.Kept p.session.next

variable {g : Game} {p : Play}

/-- Later ids keep a play. -/
theorem Kept.of_le (h : p.Kept) {next : NodeId} (hnext : p.session.next ≤ next) :
    Kept { p with session := { p.session with next } } :=
  ⟨h.states.imp fun _ hs => hs.mono hnext, fun step hstep => (h.begun step hstep).mono hnext⟩

theorem Kept.append (h : p.Kept) {steps : List BegunStep}
    (hsteps : ∀ step ∈ steps, step.Kept p.session.next) :
    Kept { p with begun := p.begun ++ steps } :=
  ⟨h.states, fun step hstep => (List.mem_append.1 hstep).elim (h.begun step) (hsteps step)⟩

/-- A move that changes kept states into kept ones and starts no level keeps the play. -/
theorem Kept.perform (h : p.Kept) {m : Move}
    (hlevel : ∀ level, p.session.dynamics.steering? m ≠ some (.startLevel level))
    (hchange : (p.session.dynamics.change p.session.timeline.present m).Meets p.session.next
      (fun o next' => ∀ s', o = some s' → s'.Kept next') fun _ => True) :
    Kept { p with session := (p.session.perform m).1 } := by
  obtain ⟨hstates, hnext, -⟩ := Session.all_perform (s := p.session) (E := fun _ => True)
    (P := State.Kept) (fun _ _ _ hmn hs => hs.mono hmn) h.states
    (fun level hl => absurd hl (hlevel level))
    fun _ => hchange.imp (fun _ _ _ ho => ho) fun _ _ _ _ => trivial
  exact ⟨hstates, fun step hstep => (h.begun step hstep).mono hnext⟩

theorem Kept.perform_command (h : p.Kept) (hg : p.session.dynamics = g.dynamics) {c : Command}
    (hc : ∀ level, c ≠ .startLevel level) :
    Kept { p with session := (p.session.perform (.command c)).1 } := by
  refine h.perform (fun level hlevel => ?_) ?_
  · rw [hg] at hlevel
    have hsteer : c.steering? = some (.startLevel level) := hlevel
    cases c <;> simp_all [Command.steering?]
  · rw [hg]
    exact (g.meets_obey h.states.present c).imp (fun _ _ _ ho => ho) fun _ _ => trivial

theorem Kept.perform_commit (h : p.Kept) (hg : p.session.dynamics = g.dynamics) {step : BegunStep}
    (hstep : step ∈ p.begun) : Kept { p with session := (p.session.perform (.commit step)).1 } := by
  refine h.perform (fun level hlevel => ?_) ?_
  · rw [hg] at hlevel
    cases hlevel
  · rw [hg]
    exact .liftSupply ((g.meets_commit _ (h.begun step hstep)).imp (fun _ _ _ ho => ho)
      fun _ _ => trivial)

/-- A request that starts no level keeps the play. -/
theorem Kept.take (h : p.Kept) (hg : p.session.dynamics = g.dynamics) {r : Request}
    (hr : ∀ level, r ≠ .command (.startLevel level)) : (p.take g r).Kept := by
  cases r with
  | command c =>
    exact h.perform_command hg fun level hc => hr level (congrArg _ hc)
  | begin target =>
    have hbegin := g.meets_begin h.states.present target
    dsimp only [Play.take]
    rcases hrun : (g.begin p.session.timeline.present target).runFrom p.session.next with
      ⟨(why | fault) | step, next⟩
    · rw [Game.beginIn_of_rejected hg hrun]
      have hp := h.of_le (hbegin.of_error hrun).1
      refine ⟨hp.states.withError (some why), fun step hstep => hp.begun step ?_⟩
      simpa using hstep
    · rw [Game.beginIn_of_fatal hrun]
      exact h.of_le (hbegin.of_error hrun).1
    · rw [Game.beginIn_of_ok hrun]
      obtain ⟨hnext, hstep⟩ := hbegin.of_ok hrun
      exact (h.of_le hnext).append fun q hq => List.mem_singleton.1 hq ▸ hstep
  | complete position =>
    dsimp only [Play.take]
    split
    · next step hstep => exact h.perform_commit hg (List.mem_of_getElem? hstep)
    · exact h

theorem dynamics_take (hg : p.session.dynamics = g.dynamics) (r : Request) :
    (p.take g r).session.dynamics = g.dynamics := by
  cases r with
  | command c => exact (p.session.dynamics_perform _).trans hg
  | begin target =>
    dsimp only [Play.take]
    rcases hrun : (g.begin p.session.timeline.present target).runFrom p.session.next with
      ⟨(why | fault) | step, next⟩
    · rw [Game.beginIn_of_rejected hg hrun]
      exact hg
    · rw [Game.beginIn_of_fatal hrun]
      exact hg
    · rw [Game.beginIn_of_ok hrun]
      exact hg
  | complete position =>
    dsimp only [Play.take]
    split
    · exact (p.session.dynamics_perform _).trans hg
    · exact hg

/-! ### Runs of requests -/

/-- Requests that start no level keep the play. -/
theorem Kept.takeAll (h : p.Kept) (hg : p.session.dynamics = g.dynamics) {requests : List Request}
    (hr : ∀ level, .command (.startLevel level) ∉ requests) : (p.takeAll g requests).Kept := by
  induction requests generalizing p with
  | nil => exact h
  | cons r requests ih =>
    simp only [List.mem_cons, not_or] at hr
    exact ih (h.take hg fun level hl => (hr level).1 hl.symm) (dynamics_take hg r)
      fun level => (hr level).2

/-- Commands that start no level and phases of steps, in any order and with any ids, leave the
present state of a session and all its past and future ones well-formed. -/
theorem wellFormed_takeAll {session : Session State Move} (hg : session.dynamics = g.dynamics)
    (h : session.timeline.All (State.WellFormed session.next)) {requests : List Request}
    (hr : ∀ level, .command (.startLevel level) ∉ requests)
    (hn : (takeAll g ⟨session, []⟩ requests).session.next ≤ UInt64.size) :
    (takeAll g ⟨session, []⟩ requests).session.timeline.All
      (State.WellFormed (takeAll g ⟨session, []⟩ requests).session.next) := by
  have hkept : Kept ⟨session, []⟩ := ⟨h.imp fun _ hs => hs.kept, nofun⟩
  exact (hkept.takeAll hg hr).states.imp fun _ hs => hs.wellFormed hn

/-- The negation of a truth value. -/
def negation : Plant :=
  .mk { id := 1, kind := .not, slots := ⟨[("value", 2)], by decide⟩ }
    [.mk (Node.heldBy (Node.withField { id := 2, kind := .boolean } "value" (.bool true)) 1
      "value") []]

theorem grown_negation : negation.Grown 1 3 := by
  have hpart : (Plant.mk (Node.heldBy (Node.withField { id := 2, kind := .boolean } "value"
      (.bool true)) 1 "value") []).Grown 1 3 := by
    have hformed : (Node.withField { id := 2, kind := .boolean } "value" (.bool true)).Formed 3 :=
      Node.formed_withField rfl rfl (by decide) (by decide) rfl
    exact .single (by decide) (by decide) rfl (hformed.congr rfl rfl rfl) rfl
  refine .of_parts ?_ (by decide) (by decide) (by decide) (by decide) ?_ ?_ rfl
  · simpa using hpart
  · exact .cons ⟨rfl, rfl, rfl⟩ .nil
  · exact Node.formed_of_slots rfl rfl

theorem kept_negation : (Forest.insertAll ∅ negation.nodes).Kept (Node.Formed 3) [1] [] 3 :=
  (Forest.Kept.empty (Node.Formed 1) 1).insertAll grown_negation.joined grown_negation.nodup
    ⟨rfl, rfl⟩ (Nat.le_refl 1) grown_negation.le grown_negation.lt (by decide)
    grown_negation.formed grown_negation.unlocked nofun (by decide) (by simp [negation]) (by simp)

/-- A session with a single term on the board. -/
def negating : Session State Move where
  dynamics := Game.dynamics { levels := ⟨[]⟩ }
  timeline := .start {
    nodes := Forest.insertAll ∅ negation.nodes
    board := [1]
    toolbox := []
    defs := []
    goal := []
    level := 0
    mode := .gameplay
    added := []
    removed := [] }
  next := 3
  limit := 9

theorem wellFormed_takeAll_negating :
    negating.timeline.All (State.WellFormed 3) ∧
    (takeAll { levels := ⟨[]⟩ } ⟨negating, []⟩
      [.begin 1, .command (.detach 2), .command .undo, .complete 0]).session.timeline.All
      (State.WellFormed 5) := by
  have hstart : negating.timeline.All (State.WellFormed 3) :=
    Timeline.all_startingAt (State.Kept.wellFormed kept_negation (by decide))
  have hnext : (takeAll { levels := ⟨[]⟩ } ⟨negating, []⟩
      [.begin 1, .command (.detach 2), .command .undo, .complete 0]).session.next = 5 := by
    decide +kernel
  refine ⟨hstart, ?_⟩
  rw [← hnext]
  exact wellFormed_takeAll rfl hstart (by simp) (by rw [hnext]; decide)

end Play

end TermForest
