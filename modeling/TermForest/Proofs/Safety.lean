import TermForest.Proofs.Chronicle
import TermForest.Proofs.Level.Load
import TermForest.Proofs.Play

/-!
# Faults in play

A session that starts at a level whose references name no parameter twice stays kept under any
commands. A command that names nodes which are there then ends in a fault in one case only: it puts
a root into a hole that stands on the board itself.
-/

namespace TermForest

open Supply (Meets)

/-- No reference in any level of a file names a parameter twice. -/
def LevelFile.Distinct (L : LevelFile) : Prop := ∀ l ∈ L.levels, ∀ t ∈ l.terms, t.Distinct

namespace Game

/-- A level can be started. -/
def Opens (g : Game) (level : Nat) : Prop :=
  ∃ next s next', 1 ≤ next ∧ (g.levels.load g.signature level).runFrom next = (.ok s, next')

variable {g : Game} {level next : Nat}

/-- A level starts in a kept state, or never. -/
theorem meets_initial (hS : g.signature.TagsReferences) (hd : g.levels.Distinct) (hpos : 1 ≤ next) :
    (g.dynamics.initial level).Meets next (fun s next' => s.Kept next') fun _ => ¬g.Opens level := by
  show (g.levels.load g.signature level).Meets next _ _
  unfold Opens LevelFile.load
  cases hl : g.levels.levels[level]? with
  | none =>
    refine .throw ?_
    rintro ⟨_, _, _, -, h⟩
    cases h
  | some l =>
    refine (Level.meets_load hS (hd l (List.mem_of_getElem? hl)) level hpos).imp
      (fun _ _ _ h => h) fun _ hf ⟨first, s, last, hfirst, h⟩ => ?_
    exact hf ⟨level, first, s, last, hfirst, h⟩

/-- Where a command ends in a fault: it starts a level that cannot be started, names a node that is
not there, or fills a loose hole; or the signature lacks something. -/
def MayFault (g : Game) (s : State) (c : Command) (fault : Fault) : Prop :=
  (∃ level, c = .startLevel level ∧ ¬g.Opens level) ∨ ¬g.signature.Full ∨ ¬c.Finds s.nodes ∨
    ∃ hole, fault = .broken (.looseHole hole) ∧ c.FillsLoose s hole

end Game

/-! ### Sessions of a game -/

/-- A session of a game whose states are kept. -/
structure Session.Kept (g : Game) (session : Session State Move) : Prop where
  dynamics : session.dynamics = g.dynamics
  pos : 1 ≤ session.next
  states : session.timeline.All (State.Kept session.next)

namespace Session

variable {g : Game} {session : Session State Move} {level : Nat} {c : Command} {hole : NodeId}

theorem kept_of_start (hS : g.signature.TagsReferences) (hd : g.levels.Distinct)
    (h : g.start level = .ok session) : session.Kept g := by
  have hpos : 1 ≤ Supply.first g.settings.firstId := Nat.le_max_right ..
  obtain ⟨hdynamics, -, -, state, hrun, htimeline⟩ := of_start h
  obtain ⟨hle, hstate⟩ := (Game.meets_initial hS hd hpos).of_ok hrun
  exact ⟨hdynamics, Nat.le_trans hpos hle, htimeline ▸ Timeline.all_startingAt hstate⟩

/-- A level that is loaded makes a well-formed state if the ids that it takes fit their type. -/
theorem exists_wellFormed_start (level : Nat) (hS : g.signature.TagsReferences)
    (hd : g.levels.Distinct)
    (hnext : (g.start level).toOption.any (fun session => session.next ≤ UInt64.size) = true) :
    ∃ session, g.start level = .ok session ∧ session.present.WellFormed session.next := by
  obtain ⟨session, h, hle⟩ := (Option.any_eq_true ..).1 hnext
  have h := toOption_eq_some_iff.1 h
  exact ⟨session, h, (kept_of_start hS hd h).states.present.wellFormed (of_decide_eq_true hle)⟩

/-- A command keeps all states and ends in no other faults than those it may end in. -/
theorem Kept.perform (h : session.Kept g) (hS : g.signature.TagsReferences)
    (hd : g.levels.Distinct) (c : Command) :
    (session.perform (.command c)).1.Kept g ∧
      ∀ fault, (session.perform (.command c)).2 = some fault →
        g.MayFault session.present c fault := by
  have hinitial : ∀ level, session.dynamics.steering? (.command c) = some (.startLevel level) →
      (session.dynamics.initial level).Meets session.next (fun s next' => s.Kept next')
        (g.MayFault session.present c) := by
    intro level hlevel
    rw [h.dynamics] at hlevel ⊢
    refine (Game.meets_initial hS hd h.pos).imp (fun _ _ _ hs => hs) fun _ hf => ?_
    have hsteer : c.steering? = some (.startLevel level) := hlevel
    cases c <;> cases hsteer
    exact .inl ⟨level, rfl, hf⟩
  have hchange : (session.dynamics.change session.timeline.present (.command c)).Meets
      session.next (fun o next' => ∀ s, o = some s → s.Kept next')
      fun e => ∀ fault, e = .fatal fault → g.MayFault session.present c fault := by
    rw [h.dynamics]
    refine (g.meets_obey h.states.present c).imp (fun _ _ _ ho => ho) ?_
    rintro _ he fault rfl
    rcases he with ⟨why, he⟩ | he | he | ⟨hole, he, hloose⟩
    · cases he
    · exact .inr (.inl he)
    · exact .inr (.inr (.inl he))
    · cases he
      exact .inr (.inr (.inr ⟨hole, rfl, hloose⟩))
  obtain ⟨hstates, hnext, hfault⟩ := all_perform (P := State.Kept)
    (fun _ _ _ hmn hs => hs.mono hmn) h.states hinitial fun _ => hchange
  exact ⟨⟨(dynamics_perform _ _).trans h.dynamics, Nat.le_trans h.pos hnext, hstates⟩, hfault⟩

theorem Kept.performAll (h : session.Kept g) (hS : g.signature.TagsReferences)
    (hd : g.levels.Distinct) (commands : List Command) :
    (session.performAll (commands.map .command)).Kept g := by
  induction commands generalizing session with
  | nil => exact h
  | cons c commands ih => exact ih (h.perform hS hd c).1

/-- A command that fills a loose hole ends in a fault. -/
theorem Kept.fault_of_fillsLoose (h : session.Kept g) (hc : c.FillsLoose session.present hole) :
    (session.perform (.command c)).2 = some (.broken (.looseHole hole)) := by
  cases c with
  | moveToSlot x hole' =>
    obtain ⟨rfl, hloose⟩ := hc
    have hsteer : session.dynamics.steering? (.command (.moveToSlot x hole')) = none := by
      rw [h.dynamics]
      rfl
    have hmove := h.states.present.moveToSlot_of_fitsLoose g.signature hloose
    have hrun : (session.dynamics.change session.timeline.present
        (.command (.moveToSlot x hole'))).runFrom session.next =
          (.error (.fatal (.broken (.looseHole hole'))), session.next) := by
      rw [h.dynamics]
      show (liftM (State.moveToSlot _ g.signature x hole') : Supply Failure _).runFrom _ = _
      rw [hmove]
      rfl
    rw [perform_eq hsteer, hrun]
  | _ => exact hc.elim

/-- In a session that starts at a level, after any commands, a command that names nodes which are
there and starts no level that cannot be started ends in a fault exactly if it puts a root into a
hole that stands on the board itself. -/
theorem fault_iff_fillsLoose (hS : g.signature = .standard) (hd : g.levels.Distinct)
    (h : g.start level = .ok session) (commands : List Command)
    (hfinds : c.Finds (session.performAll (commands.map .command)).present.nodes)
    (hopens : ∀ level, c = .startLevel level → g.Opens level) (fault : Fault) :
    ((session.performAll (commands.map .command)).perform (.command c)).2 = some fault ↔
      ∃ hole, fault = .broken (.looseHole hole) ∧
        c.FillsLoose (session.performAll (commands.map .command)).present hole := by
  have htags : g.signature.TagsReferences := hS ▸ Signature.tagsReferences_standard
  have hkept := (kept_of_start htags hd h).performAll htags hd commands
  constructor
  · intro hfault
    rcases (hkept.perform htags hd c).2 fault hfault with ⟨level, rfl, hf⟩ | hf | hf | hf
    · exact absurd (hopens level rfl) hf
    · exact absurd (hS ▸ Signature.full_standard) hf
    · exact absurd hfinds hf
    · exact hf
  · rintro ⟨hole, rfl, hloose⟩
    exact hkept.fault_of_fillsLoose hloose

/-- A game whose level has a number and the negation of a hole on its board. -/
def negatingHole : Game where
  levels := ⟨[{ board := [.not .hole, .number 1] }]⟩

theorem distinct_negatingHole : negatingHole.levels.Distinct := by
  simp [LevelFile.Distinct, negatingHole, Level.terms, Term.not, Term.hole, Term.number,
    Term.withSlot, Term.withField, Term.ofTag, Term.parts, Term.tag, Terms.set, Term.Distinct,
    Terms.Distinct, Kind.tag]

theorem fault_iff_fillsLoose_negatingHole : ∃ session, negatingHole.start 0 = .ok session ∧
    ((session.performAll ([.detach 2].map .command)).perform (.command (.moveToSlot 3 2))).2 =
      some (.broken (.looseHole 2)) := by
  cases h : negatingHole.start 0 with
  | error fault =>
    have hstart : (negatingHole.start 0).toOption.isSome = true := by decide +kernel
    rw [h] at hstart
    cases hstart
  | ok session =>
    have hboard : (session.performAll ([.detach 2].map .command)).present.board = [1, 3, 2] := by
      have hrun : (negatingHole.start 0).toOption.map (fun session =>
          (session.performAll ([.detach 2].map .command)).present.board) = some [1, 3, 2] := by
        decide +kernel
      rw [h] at hrun
      exact Option.some.inj hrun
    have hkinds : ([2, 3].map fun id => ((session.performAll ([.detach 2].map
        .command)).present.nodes.get? id).map Node.kind) = [some .hole, some .number] := by
      have hrun : (negatingHole.start 0).toOption.map (fun session =>
          [2, 3].map fun id => ((session.performAll ([.detach 2].map
            .command)).present.nodes.get? id).map Node.kind) =
          some [some .hole, some .number] := by
        decide +kernel
      rw [h] at hrun
      exact Option.some.inj hrun
    simp only [List.map_cons, List.map_nil, List.cons.injEq, Option.map_eq_some_iff, and_true] at hkinds
    obtain ⟨⟨hole, hhole, hk⟩, number, hnumber, -⟩ := hkinds
    have hfinds : (Command.moveToSlot 3 2).Finds
        (session.performAll ([.detach 2].map .command)).present.nodes :=
      ⟨⟨number, hnumber⟩, hole, hhole⟩
    have hloose : (Command.moveToSlot 3 2).FillsLoose
        (session.performAll ([.detach 2].map .command)).present 2 := by
      refine ⟨rfl, .inl ?_, ?_, by decide, hole, hhole, hk⟩ <;> rw [hboard] <;> decide
    exact ⟨session, rfl, (fault_iff_fillsLoose rfl distinct_negatingHole h [.detach 2] hfinds nofun
      _).2 ⟨2, rfl, hloose⟩⟩

-- a reference that names a parameter twice lacks an argument
example : (Game.start { levels := ⟨[{ board := [(Term.reference "concat" ["left", "left"]).withSlot
      "arg_left" (.array [])] }]⟩ } 0).toOption.bind
    (fun session => (session.perform (.command (.execute 1))).2) =
      some (.malformed (.noArgument 1 1)) := by
  decide +kernel

end Session

end TermForest
