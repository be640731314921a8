import TermForest.Proofs.Play
import TermForest.Proofs.State.Phases

/-!
# Progress

The check of a redex and the rule that reduces it agree: what the check lets pass has a rule, whose
work can always be finished, and the rule refuses only what exceeds a limit. A step on the board
never ends in a fault, and what it refuses it puts down to a node below its target.
-/

namespace TermForest

open Supply (Meets)

/-- How a step at a target ends, whatever it finds there. -/
structure State.Progresses (s : State) (S : Signature) (most : Int64) (next : NodeId)
    (target : NodeId) : Prop where
  faultless : ∀ fault next', (s.step S most target).runFrom next ≠ (.error (.fatal fault), next')
  /-- A redex that passes its check is reduced. The work gives a state whenever it is taken up again;
  what is refused exceeds a limit. -/
  reduces : ∀ r, S.redex s.nodes target = .ok (some r.id) → s.nodes.get? r.id = some r →
    S.check s r = .ok () →
    (s.reduce S most r).Meets next
      (fun o next' => o ≠ .noRule ∧ ∀ later, next' ≤ later →
        ∃ s' next'', (s.complete S (o.plan r.id)).runFrom later = (.ok (some s'), next''))
      fun e => ∃ why, e = .rejected why ∧ s.Exceeds most r why
  /-- A refusal names a node of the subtree at the target. -/
  pointsInto : ∀ why next', (s.step S most target).runFrom next = (.error (.rejected why), next') →
    ∃ ids, s.nodes.idsUnder target = .ok ids ∧ why.node ∈ ids

namespace State

variable {s : State} {S : Signature} {lo hi next : Nat} {r target root : NodeId}

/-- What a rule leaves is a plan that fits. -/
theorem fits_plan {o : Outcome} (h : o.Fits s.nodes lo hi) (hs : s.Kept lo) (hlo : lo ≤ hi)
    (hr : ∃ root ∈ s.board, s.nodes.RootOf r root) : (o.plan r).Fits s hi := by
  cases o with
  | replaced w =>
    obtain ⟨u, hw, hu⟩ := h
    exact ⟨hr, lo, u, hs, hlo, hw, hu⟩
  | deferred e => exact ⟨hr, h⟩
  | noRule => exact h.elim

/-- Only an empty plan leaves a state as it is. -/
theorem eq_nothing_of_complete {p : Plan} (h : (s.complete S p).runFrom lo = (.ok none, hi)) :
    p = .nothing := by
  cases p with
  | nothing => rfl
  | ready redex w =>
    rw [complete] at h
    cases hg : s.graft redex w <;> rw [hg] at h <;> cases h
  | deferred redex e =>
    rw [complete, Supply.runFrom_bind] at h
    rcases hf : (S.finish s.nodes e).runFrom lo with ⟨fault | w, mid⟩ <;> rw [hf] at h
    · cases h
    · dsimp only at h
      cases hg : s.graft redex w <;> rw [hg] at h <;> cases h

/-- What a rule leaves can be finished at any later time. -/
theorem Kept.exists_complete (h : s.Kept lo) (hS : S.Full) {o : Outcome}
    (ho : o.Fits s.nodes lo hi) (hlo : lo ≤ hi) (hr : ∃ root ∈ s.board, s.nodes.RootOf r root)
    {later : NodeId} (hlater : hi ≤ later) :
    ∃ s' next', (s.complete S (o.plan r)).runFrom later = (.ok (some s'), next') := by
  have hplan := (fits_plan ho h hlo hr).mono hlater
  have hmeets := (h.mono (Nat.le_trans hlo hlater)).meets_complete S hplan
  obtain ⟨o', next', hrun, -⟩ := (hmeets.imp (fun _ _ _ ho => ho) fun _ hfull => hfull hS).exists_ok
  cases o' with
  | some s' => exact ⟨s', next', hrun⟩
  | none =>
    have hnothing := eq_nothing_of_complete hrun
    cases o with
    | replaced w => cases hnothing
    | deferred e => cases hnothing
    | noRule => exact ho.elim

/-- Every step on the board of a well-formed state makes progress or is refused. -/
theorem WellFormed.progresses (h : s.WellFormed next) (hS : S.Full) (most : Int64)
    (hroot : s.nodes.RootOf target root) (hboard : root ∈ s.board) :
    s.Progresses S most next target := by
  have hkept := h.kept
  have hstep := hkept.meets_step S most target
  obtain ⟨k, hk⟩ := hroot.2
  obtain ⟨n, hn⟩ := hk.exists_start
  have hends : ∀ e next', (s.step S most target).runFrom next = (.error e, next') →
      e.PointsInto s.nodes target := by
    intro e next' hrun
    obtain hpoints | hfull | hnone := (hstep.of_error hrun).2
    · exact hpoints
    · exact absurd hS hfull
    · rw [hn] at hnone
      cases hnone
  constructor
  · intro fault next' hrun
    obtain ⟨_, _, hfault, -⟩ := hends _ _ hrun
    cases hfault
  · intro r hredex hr hcheck
    have hreduce := meets_reduce hkept.stocked hr (Signature.expression_of_redex hredex hr) most hcheck
    apply hreduce.imp
    · intro o next' hnext ho
      constructor
      · rintro rfl
        exact ho
      · intro later hlater
        obtain ⟨t, rfl, ht, -, hnodup, hids, -⟩ := Forest.Kept.exists_plant hkept hn
        obtain rfl := Forest.id_of_get? hn
        obtain ⟨u, hu, hid, -⟩ := (ht.tree_shows hnodup).redex_mem hredex
        obtain ⟨j, hj⟩ := (hids r.id).1 (hid ▸ Plant.mem_ids_iff.2 ⟨u, hu, rfl⟩)
        exact hkept.exists_complete hS ho hnext ⟨root, hboard, hroot.of_ascends hj⟩ hlater
    · exact fun _ he => he
  · intro why next' hrun
    obtain ⟨_, ids, heq, hids, hmem⟩ := hends _ _ hrun
    cases heq
    exact ⟨ids, hids, hmem⟩

/-- A step on the negation of a truth value makes progress. -/
theorem progresses_negating :
    Play.negating.present.WellFormed 3 ∧ Play.negating.present.nodes.RootOf 1 1 ∧
    Signature.standard.redex Play.negating.present.nodes 1 = .ok (some 1) ∧
    Play.negating.present.Progresses .standard 9 3 1 := by
  have hwell : Play.negating.present.WellFormed 3 :=
    Kept.wellFormed Play.kept_negation (by decide)
  have hroot : Play.negating.present.nodes.RootOf 1 1 :=
    Forest.Kept.rootOf_self Play.kept_negation (by decide)
  exact ⟨hwell, hroot, by decide +kernel,
    hwell.progresses Signature.full_standard 9 hroot (by decide)⟩

end State

end TermForest
