import TermForest.Proofs.Reach

/-!
# Reports of changes

In a play from a level, a state that comes out of a step or of a move lists the ids that came in and
the ids that went, each once. The one gap is the move of a definition: the list of what it removed is
empty, although the definition itself is among what is gone.
-/

namespace TermForest

/-- What the state after a move says of the change. -/
def Move.Tells (s s' : State) : Move → Prop
  | .command c => c.Tells s s'
  | .commit _ => s.Reports s'

namespace Play

variable {g : Game} {p : Play}

/-- A move whose step, if it is the second phase of one, has been begun in the play tells what it
changes. -/
theorem Sound.tells (h : p.Sound g) {m : Move} (hm : ∀ step, m = .commit step → step ∈ p.begun)
    {s' : State} {next : NodeId}
    (hrun : (g.dynamics.change p.session.timeline.present m).runFrom p.session.next =
      (.ok (some s'), next)) : m.Tells p.session.present s' := by
  cases m with
  | command c => exact (((g.hung_obey h.states.present c).of_ok hrun).2 s' rfl).2
  | commit step =>
    have hstep := hm step rfl
    obtain ⟨lo, hi, hbegun, hhi⟩ := h.begun step hstep
    obtain ⟨-, ho⟩ := (Supply.Meets.liftSupply (E := fun _ => True)
      ((hbegun.meets_commit p.session.timeline.present hhi).imp (fun _ _ _ ho => ho)
        fun _ _ => trivial)).of_ok hrun
    obtain ⟨hstamp, -, hreports⟩ := ho s' rfl
    rw [h.base_eq hstep hstamp] at hreports
    exact hreports

/-- In a play that starts at a level, after any requests, a command or the second phase of a begun
step that gives a new state tells what it changes. Of a moved definition, nothing that it drops is
told. -/
theorem tells_of_start {session : Session State Move} {level : Nat} (h : g.start level = .ok session)
    (requests : List Request) {m : Move}
    (hm : ∀ step, m = .commit step → step ∈ (takeAll g ⟨session, []⟩ requests).begun)
    {s' : State} {next : NodeId}
    (hrun : (g.dynamics.change (takeAll g ⟨session, []⟩ requests).session.timeline.present
      m).runFrom (takeAll g ⟨session, []⟩ requests).session.next = (.ok (some s'), next)) :
    m.Tells (takeAll g ⟨session, []⟩ requests).session.present s' :=
  ((sound_start h).takeAll requests).tells hm hrun

/-- A game whose level has the definition of a number on its board. -/
def defining : Game where
  levels := ⟨[{ board := [.define "k" (.number 1)] }]⟩

/-- The definition that is moved is gone with its body, and not among what was removed. -/
theorem tells_of_start_defining : ∃ session s' next, defining.start 0 = .ok session ∧
    (defining.dynamics.change session.timeline.present (.command (.moveToDefs 1))).runFrom
      session.next = (.ok (some s'), next) ∧
    s'.removed = [] ∧ session.present.nodes.idsUnder 1 = .ok [2, 1] ∧
    s'.nodes.Lacks session.present.nodes [2, 1] := by
  cases h : defining.start 0 with
  | error fault =>
    have hstart : (defining.start 0).toOption.isSome = true := by decide +kernel
    rw [h] at hstart
    cases hstart
  | ok session =>
    have hsome : ((defining.start 0).toOption.bind fun session =>
        ((defining.dynamics.change session.timeline.present (.command (.moveToDefs 1))).runFrom
          session.next).1.toOption).map Option.isSome = some true := by decide +kernel
    have hids : (defining.start 0).toOption.bind (fun session =>
        (session.present.nodes.idsUnder 1).toOption) = some [2, 1] := by decide +kernel
    have hreplaced : (defining.start 0).toOption.map (fun session =>
        (session.present.replaced? 1).isSome) = some false := by decide +kernel
    rw [h] at hsome hids hreplaced
    have hids : session.present.nodes.idsUnder 1 = .ok [2, 1] := by
      cases hunder : session.present.nodes.idsUnder 1 with
      | error e => simp [Except.toOption, hunder] at hids
      | ok ids => simpa [Except.toOption, hunder] using hids
    have hreplaced : session.present.replaced? 1 = none := by
      simpa [Except.toOption] using hreplaced
    rcases hrun : (defining.dynamics.change session.timeline.present
        (.command (.moveToDefs 1))).runFrom session.next with ⟨e | (_ | s'), next⟩
    · simp [Except.toOption, hrun] at hsome
    · simp [Except.toOption, hrun] at hsome
    · have htells : session.present.Redefines 1 s' := tells_of_start h []
        (m := .command (.moveToDefs 1)) (by rintro _ ⟨⟩) hrun
      obtain ⟨ids, ids', hunder, hunder', hlacks⟩ := htells.dropped
      rw [hids, Except.ok.injEq] at hunder
      rw [hreplaced, Except.ok.injEq] at hunder'
      subst hunder hunder'
      exact ⟨session, s', next, rfl, hrun, htells.removed, hids, by simpa using hlacks⟩

end Play

end TermForest
