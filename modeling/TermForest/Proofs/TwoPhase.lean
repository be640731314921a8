import TermForest.Proofs.Reach
import TermForest.Proofs.State.Rename

/-!
# Two-phase steps

A step that is begun and put in place later acts as if it were carried out at once when it is put in
place: the session is the same but for the ids of new nodes. A step whose base is no longer present is
refused as stale, whatever has been asked of the session in between.
-/

namespace TermForest

open Equiv (Perm)

/-! ### States that differ in new ids -/

/-- The same state but for the ids of nodes that `s` does not have. -/
def State.AlikeOver (s t t' : State) : Prop :=
  ∃ ρ : Perm NodeId, (∀ x, s.nodes.has x = true → ρ x = x) ∧ t.Renames ρ t' ∧
    t'.added = t.added.map ρ ∧ t'.removed = t.removed.map ρ

theorem State.alikeOver_refl (s t : State) : s.AlikeOver t t :=
  ⟨.refl _, fun _ _ => rfl, t.renames_refl, (List.map_id _).symm, (List.map_id _).symm⟩

theorem Forest.Hung.lt_of_has {F : Forest} {next : Nat} (h : F.Hung next) {x : Nat}
    (hx : F.has x = true) : x < next := by
  rw [Forest.has_eq_isSome, Option.isSome_iff_exists] at hx
  obtain ⟨n, hn⟩ := hx
  exact h.lt x n hn

namespace Mirror

variable {M : Mirror} {s t t' : State} {lo next : Nat}

/-- New states that go together are alike over the old one. -/
theorem MatchesAll.alikeOver (h : M.MatchesAll t t') (hs : M.strict) (hold : s.Hung lo)
    (hlo : lo ≤ M.lo) (ht : t.Hung next) (hreports : s.Reports t) : s.AlikeOver t t' := by
  have hhas : ∀ x : Nat, s.nodes.has x = true → x < M.lo := fun x hx =>
    Nat.lt_of_lt_of_le (hold.nodes.lt_of_has hx) hlo
  refine ⟨_, fun x hx => rotation_of_lt (hhas x hx), h.toMatches.renames hs ht, ?_, ?_⟩
  · refine h.added.trans (List.map_congr_left fun x hx => (rotation_eq_image ?_).symm)
    exact ht.nodes.lt_of_has ((hreports.added.mem_iff x).1 hx).1
  · refine h.removed.trans (List.map_congr_left fun x hx => ?_)
    have hx := hhas x ((hreports.removed.mem_iff x).1 hx).1
    rw [rotation_of_lt hx, image_of_lt hx]

end Mirror

/-! ### Both ways to make a step -/

namespace State

variable {s : State} {S : Signature} {most : Int64} {target : NodeId} {p : Plan} {lo hi next : Nat}

/-- The first phase on a state gives mirrored plans from different next ids. -/
theorem agree_begin {M : Mirror} (hs : s.Hung lo) (hM : M.strict) (hlo : M.lo = lo)
    (h : (s.begin S most target).runFrom lo = (.ok p, hi)) :
    ∃ p' j, hi = lo + j ∧ (s.begin S most target).runFrom M.hi = (.ok p', M.hi + j) ∧
      M.Plans p p' := by
  obtain ⟨o, hready, -⟩ := exists_ready h
  have hagree := (Mirror.states_self hs (Nat.le_of_eq hlo.symm) hM).begin S most hready hready
    (fun r hr => Mirror.nodes_self hs.nodes (Nat.le_of_eq hlo.symm) hM
      (of_ready (hr ▸ hready)).1) 0
  rw [Nat.add_zero, Nat.add_zero, hlo, Supply.outcome_eq_ok_iff.2 h] at hagree
  obtain ⟨⟨p', _⟩, hrun, hplans, j, rfl, rfl⟩ := hagree.exists_ok (.inl hM)
  exact ⟨p', j, rfl, Supply.outcome_eq_ok_iff.1 hrun, hplans⟩

/-- A deferred effect is about older nodes. -/
theorem lt_of_deferred (hs : s.Hung lo) {redex : NodeId} {e : Effect}
    (h : (s.begin S most target).runFrom lo = (.ok (.deferred redex e), hi)) :
    (redex : Nat) < lo ∧ (e.node : Nat) < lo ∧ ∀ c : Nat, c ∈ e.arguments → c < lo := by
  -- a mirror that moves all new ids leaves the effect as it is
  obtain ⟨p', -, -, -, hplans⟩ := agree_begin (M := .twice lo (lo + 1) (Nat.le_succ lo)) hs trivial
    rfl h
  have hlt : ∀ x : Nat, (Mirror.twice lo (lo + 1) (Nat.le_succ lo)).Ids x x → x < lo := by
    rintro x ⟨hx, -⟩
    by_contra hle
    have : x = x + (lo + 1 - lo) := hx.trans (if_neg hle)
    lia
  cases hplans with
  | deferred hredex hnode hargs => exact ⟨hlt _ hredex, hlt _ hnode, fun c hc => hlt c (hargs c hc)⟩

/-- What was left to do by a first phase, and what is left to do by one that comes later, give states
that are alike. -/
theorem agree_complete (hs : s.Hung lo)
    (h : (s.begin S most target).runFrom lo = (.ok p, hi)) (hhi : hi ≤ next) :
    Agree True (fun o o' => Option.Rel s.AlikeOver o.1 o'.1)
      ((liftM (s.complete S p) : Supply Failure (Option State)).outcome next)
      ((s.step S most target).outcome next) := by
  obtain ⟨hle, hadds, -⟩ := (addsRoot_begin hs.nodes S most target).of_ok h
  have hmeets := hs.meets_complete S hadds hle hhi
  have hlo : lo ≤ next := Nat.le_trans hle hhi
  obtain ⟨p', j, rfl, hrun, hplans⟩ := agree_begin (M := .twice lo next hlo) hs trivial rfl h
  have hstep : (s.step S most target).outcome next =
      (liftM (s.complete S p') : Supply Failure (Option State)).outcome (next + j) := by
    change (s.begin S most target).runFrom next = _ at hrun
    rw [State.step, Supply.outcome_bind, Supply.outcome_eq_ok_iff.2 hrun]
    rfl
  rw [hstep, Supply.outcome_liftM, Supply.outcome_liftM]
  refine Agree.liftFault ?_
  -- what a mirror matches is alike, for the new state is hung and reports the change
  have halike : ∀ {M : Mirror}, M.strict → lo ≤ M.lo →
      Agree True (fun o o' => Option.Rel M.MatchesAll o.1 o'.1)
        ((s.complete S p).outcome next) ((s.complete S p').outcome (next + j)) →
      Agree True (fun o o' => Option.Rel s.AlikeOver o.1 o'.1)
        ((s.complete S p).outcome next) ((s.complete S p').outcome (next + j)) := by
    intro M hM hlo h
    refine h.imp_of_ok ?_
    rintro ⟨o, next'⟩ ⟨o', _⟩ ho hrel
    dsimp only at hrel ⊢
    cases hrel with
    | none => exact .none
    | some hrel =>
      obtain ⟨-, hnew⟩ := hmeets.of_ok (Supply.outcome_eq_ok_iff.1 ho)
      obtain ⟨hhung, hreports⟩ := hnew _ rfl
      exact .some (hrel.alikeOver hM hs hlo hhung hreports)
  cases hplans with
  | nothing => exact .ok .none
  | @ready redex _ _ hredex hw =>
    refine halike (M := .twice lo next hlo) trivial (Nat.le_refl lo) ?_
    have hready := (Mirror.matches_self hs (Nat.le_refl lo) trivial).complete_ready trivial S hw
      redex next (next + j)
    rwa [← hredex.1] at hready
  | @deferred redex =>
    obtain ⟨hredex, hnode, hargs⟩ := lt_of_deferred hs h
    have hold : ∀ x : Nat, x < lo → (Mirror.twice next (next + j) (Nat.le_add_right ..)).Ids x x :=
      fun x hx => ⟨(Mirror.image_of_lt (Nat.lt_of_lt_of_le hx hlo)).symm, trivial⟩
    refine halike (M := .twice next (next + j) (Nat.le_add_right ..)) trivial hlo ?_
    have hdeferred := (Mirror.matches_self hs hlo trivial).complete_deferred trivial S (hold _ hnode)
      (fun c hc => hold c (hargs c hc)) redex 0
    rw [← (hold _ hredex).1] at hdeferred
    exact hdeferred.imp_of_ok fun _ _ _ ho => ho.1

end State

/-! ### Sessions -/

/-- The same timeline but for the ids of nodes that `s` does not have. -/
structure Timeline.AlikeOver (s : State) (t t' : Timeline State) : Prop where
  past : t'.past = t.past
  future : t'.future = t.future
  error : t'.error = t.error
  nextStamp : t'.nextStamp = t.nextStamp
  stamp : t'.present.stamp = t.present.stamp
  present : s.AlikeOver t.present.state t'.present.state

theorem Timeline.alikeOver_refl (s : State) (t : Timeline State) : t.AlikeOver s t :=
  ⟨rfl, rfl, rfl, rfl, rfl, s.alikeOver_refl _⟩

namespace Session

variable {σ α : Type} {s : Session σ α} {a : α}

/-- What comes of a session when an action that can be undone has given a result. -/
def settle (s : Session σ α) : Except Failure (Option σ) × NodeId → Session σ α × Option Fault
  | (.error (.rejected why), next) =>
    ({ s with timeline := { s.timeline with error := some why }, next }, none)
  | (.error (.fatal fault), next) => ({ s with next }, some fault)
  | (.ok none, next) => ({ s with next }, none)
  | (.ok (some state), next) => ({ s with timeline := s.timeline.push s.limit state, next }, none)

theorem perform_eq_settle (h : s.dynamics.steering? a = none) (h' : s.dynamics.records a = true) :
    s.perform a = s.settle ((s.dynamics.change s.timeline.present a).runFrom s.next) := by
  rw [perform_eq h]
  rcases (s.dynamics.change s.timeline.present a).runFrom s.next with ⟨(_ | _) | (_ | _), next⟩ <;>
    simp [settle, h']

/-- Results that agree leave sessions that are alike, and neither comes too late. -/
theorem settle_of_agree {s : Session State Move} {x y : Supply Failure (Option State)}
    (h : Agree True (fun o o' => Option.Rel s.present.AlikeOver o.1 o'.1) (x.outcome s.next)
      (y.outcome s.next)) :
    (∀ target, (s.settle (x.runFrom s.next)).2 ≠ some (.staleStep target)) ∧
      (s.settle (x.runFrom s.next)).2.isSome = (s.settle (y.runFrom s.next)).2.isSome ∧
      (s.settle (x.runFrom s.next)).1.timeline.AlikeOver s.present
        (s.settle (y.runFrom s.next)).1.timeline := by
  unfold Supply.outcome at h
  generalize x.runFrom s.next = r at h ⊢
  generalize y.runFrom s.next = r' at h ⊢
  rcases r with ⟨e | o, next⟩ <;> rcases r' with ⟨e' | o', next'⟩
  · cases h with
    | refused he =>
      obtain ⟨why, rfl⟩ := he
      exact ⟨nofun, rfl, Timeline.alikeOver_refl ..⟩
    | fatal he he' =>
      obtain ⟨fault, rfl, hfault⟩ := he
      obtain ⟨fault', rfl, -⟩ := he'
      exact ⟨fun target ht => hfault target (Option.some.inj ht), rfl, Timeline.alikeOver_refl ..⟩
    | left hs => exact absurd trivial hs
    | right hs => exact absurd trivial hs
  · cases h with
    | left hs => exact absurd trivial hs
  · cases h with
    | right hs => exact absurd trivial hs
  · cases h with
    | ok h =>
      cases h with
      | none => exact ⟨nofun, rfl, Timeline.alikeOver_refl ..⟩
      | some h => exact ⟨nofun, rfl, rfl, rfl, rfl, rfl, rfl, h⟩

end Session

/-! ### Both phases at once -/

namespace Game

variable {g : Game} {s : Session State Move} {target : NodeId}

/-- The first phase of a step on the present state, followed at once by the second if there is one. -/
def beginCommit (g : Game) (s : Session State Move) (target : NodeId) :
    Session State Move × Option Fault :=
  match g.beginIn s target with
  | (s, .ok (some step)) => s.perform (.commit step)
  | (s, .ok none) => (s, none)
  | (s, .error fault) => (s, some fault)

theorem perform_execute (hg : s.dynamics = g.dynamics) (target : NodeId) :
    s.perform (.command (.execute target)) =
      s.settle ((s.present.step g.signature g.settings.maxRepeat target).runFrom s.next) := by
  rw [Session.perform_eq_settle] <;> rw [hg] <;> rfl

/-- The second phase of a step whose base is present. -/
theorem perform_commit (hg : s.dynamics = g.dynamics) {step : BegunStep}
    (hbase : step.base = s.timeline.present) :
    s.perform (.commit step) = s.settle
      ((liftM (s.present.complete g.signature step.work) : Supply Failure (Option State)).runFrom
        s.next) := by
  have hcommit : g.commit s.timeline.present step = s.present.complete g.signature step.work := by
    rw [commit, hbase, if_pos rfl]
    rfl
  rw [Session.perform_eq_settle] <;> rw [hg]
  · show s.settle ((liftM (g.commit s.timeline.present step) : Supply Failure _).runFrom s.next) = _
    rw [hcommit]
  · rfl
  · rfl

/-- A step whose second phase follows at once is a step that is carried out. -/
theorem beginCommit_eq (hg : s.dynamics = g.dynamics) :
    g.beginCommit s target = s.perform (.command (.execute target)) := by
  rw [perform_execute hg, State.step, Supply.runFrom_bind]
  have hrun := Supply.runFrom_bind (s.present.begin g.signature g.settings.maxRepeat target)
    (fun work => pure (BegunStep.mk s.timeline.present target work)) s.next
  change (g.begin s.timeline.present target).runFrom s.next = _ at hrun
  rcases hbegin : (s.present.begin g.signature g.settings.maxRepeat target).runFrom s.next with
    ⟨(why | fault) | work, next⟩ <;> rw [hbegin] at hrun
  · rw [beginCommit, beginIn_of_rejected hg hrun]
    rfl
  · rw [beginCommit, beginIn_of_fatal hrun]
    rfl
  · rw [beginCommit, beginIn_of_ok hrun]
    dsimp only
    rw [perform_commit (s := { s with next }) hg rfl]
    rfl

end Game

/-! ### Plays -/

/-- How the begun steps of a play and the commands of its session go together. -/
structure Play.ActsAtomically (g : Game) (p : Play) : Prop where
  /-- A step whose base is not the present snapshot is stale, and changes nothing. -/
  stale : ∀ step ∈ p.begun, step.base ≠ p.session.timeline.present →
    p.session.perform (.commit step) = (p.session, some (.staleStep step.target))
  /-- No other step is stale. -/
  current : ∀ step ∈ p.begun, step.base = p.session.timeline.present →
    ∀ target, (p.session.perform (.commit step)).2 ≠ some (.staleStep target)
  /-- A step whose base is present ends in a fault if and only if its command would. -/
  fault : ∀ step ∈ p.begun, step.base = p.session.timeline.present →
    (p.session.perform (.commit step)).2.isSome =
      (p.session.perform (.command (.execute step.target))).2.isSome
  /-- It leaves the timeline that its command would, but for new ids. -/
  timeline : ∀ step ∈ p.begun, step.base = p.session.timeline.present →
    (p.session.perform (.commit step)).1.timeline.AlikeOver p.session.present
      (p.session.perform (.command (.execute step.target))).1.timeline
  /-- When there was nothing to reduce, both leave the timeline as it is. -/
  nothing : ∀ step ∈ p.begun, step.base = p.session.timeline.present → step.work = .nothing →
    (p.session.perform (.commit step)).1.timeline = p.session.timeline ∧
      (p.session.perform (.command (.execute step.target))).1.timeline = p.session.timeline
  /-- A step that is begun and at once put in place is its command. -/
  atOnce : ∀ target, g.beginCommit p.session target =
    p.session.perform (.command (.execute target))

namespace Play

variable {g : Game} {p : Play}

/-- A begun step whose base is present agrees with its command. -/
theorem Sound.agree (h : p.Sound g) {step : BegunStep} (hstep : step ∈ p.begun)
    (hbase : step.base = p.session.timeline.present) :
    Agree True (fun o o' => Option.Rel p.session.present.AlikeOver o.1 o'.1)
      ((liftM (p.session.present.complete g.signature step.work) : Supply Failure _).outcome
        p.session.next)
      ((p.session.present.step g.signature g.settings.maxRepeat step.target).outcome
        p.session.next) := by
  obtain ⟨lo, hi, hbegun, hhi⟩ := h.begun step hstep
  have hagree := State.agree_complete hbegun.base hbegun.runFrom_begin hhi
  rw [hbase] at hagree
  exact hagree

theorem Sound.actsAtomically (h : p.Sound g) : p.ActsAtomically g where
  stale step hstep hbase := by
    have hstamp : step.base.stamp ≠ p.session.timeline.present.stamp :=
      fun e => hbase (h.base_eq hstep e)
    rw [Session.perform_eq_settle] <;> rw [h.dynamics]
    · show p.session.settle ((liftM (g.commit p.session.timeline.present step) :
        Supply Failure _).runFrom p.session.next) = _
      rw [Game.commit, if_neg hstamp]
      rfl
    · rfl
    · rfl
  current step hstep hbase := by
    rw [Game.perform_commit h.dynamics hbase]
    exact (Session.settle_of_agree (h.agree hstep hbase)).1
  fault step hstep hbase := by
    rw [Game.perform_commit h.dynamics hbase, Game.perform_execute h.dynamics]
    exact (Session.settle_of_agree (h.agree hstep hbase)).2.1
  timeline step hstep hbase := by
    rw [Game.perform_commit h.dynamics hbase, Game.perform_execute h.dynamics]
    exact (Session.settle_of_agree (h.agree hstep hbase)).2.2
  nothing step hstep hbase hwork := by
    have hagree := h.agree hstep hbase
    rw [Game.perform_commit h.dynamics hbase, Game.perform_execute h.dynamics]
    rw [hwork] at hagree ⊢
    obtain ⟨⟨o, next⟩, hrun, hnone⟩ := hagree.exists_ok (.inl trivial)
    rw [Supply.outcome_eq_ok_iff.1 hrun]
    cases hnone
    exact ⟨rfl, rfl⟩
  atOnce target := Game.beginCommit_eq h.dynamics

/-- In a play that starts at a level, after any requests, two-phase steps act atomically. -/
theorem actsAtomically_of_start {session : Session State Move} {level : Nat}
    (h : g.start level = .ok session) (requests : List Request) :
    (takeAll g ⟨session, []⟩ requests).ActsAtomically g :=
  ((sound_start h).takeAll requests).actsAtomically

/-- A game whose level has the negation of a truth value on its board. -/
def negatingGame : Game where
  levels := ⟨[{ board := [.not (.boolean true)] }]⟩

/-- Of two steps that are begun on one state, the second is stale when the first has been put in
place. -/
theorem actsAtomically_of_start_negating : ∃ session step, negatingGame.start 0 = .ok session ∧
    step ∈ (takeAll negatingGame ⟨session, []⟩ [.begin 1, .begin 1, .complete 0]).begun ∧
    (takeAll negatingGame ⟨session, []⟩ [.begin 1, .begin 1, .complete 0]).session.perform
      (.commit step) =
        ((takeAll negatingGame ⟨session, []⟩ [.begin 1, .begin 1, .complete 0]).session,
          some (.staleStep 1)) := by
  cases h : negatingGame.start 0 with
  | error fault =>
    have hstart : (negatingGame.start 0).toOption.isSome = true := by decide +kernel
    rw [h] at hstart
    cases hstart
  | ok session =>
    have hstep : (negatingGame.start 0).toOption.bind (fun session =>
        let p := takeAll negatingGame ⟨session, []⟩ [.begin 1, .begin 1, .complete 0]
        p.begun[1]?.map fun step =>
          (step.target, step.base.stamp, p.session.timeline.present.stamp)) = some (1, 0, 1) := by
      decide +kernel
    rw [h] at hstep
    obtain ⟨step, hmem, hstep⟩ := Option.map_eq_some_iff.1 hstep
    simp only [Prod.mk.injEq] at hstep
    obtain ⟨htarget, hbase, hpresent⟩ := hstep
    refine ⟨session, step, rfl, List.mem_of_getElem? hmem, ?_⟩
    have hstale := (actsAtomically_of_start h [.begin 1, .begin 1, .complete 0]).stale step
      (List.mem_of_getElem? hmem) fun e => by
        rw [e, hpresent] at hbase
        cases hbase
    rwa [htarget] at hstale

end Play

end TermForest
