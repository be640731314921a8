import Mathlib.Data.List.Induction
import TermForest.Proofs.State.Ids
import TermForest.Proofs.TwoPhase

/-!
# Fresh ids

A command brings in ids that were not handed out before it. The second phase of a step may bring in
those that its first phase took, and a begun step can be put in place again when undoing has brought
its base back. So in a play from a level the ids that come in have never been seen before, unless a
begun step is put in place once more.
-/

namespace TermForest

open Supply (Meets)

/-! ### Begun steps -/

namespace BegunStep

variable {g : Game} {p : BegunStep} {lo hi : Nat} {x : NodeId}

/-- The replacement that a begun step has ready holds an id that its base lacks. -/
def Brings (p : BegunStep) (x : NodeId) : Prop :=
  ∃ redex w, p.work = .ready redex w ∧ w.forest.has x = true ∧ p.base.state.nodes.has x = false

/-- What a begun step brings was handed out to its first phase. -/
theorem Begun.lt_of_brings (h : p.Begun g lo hi) {x : Nat} (hx : p.Brings x) : lo ≤ x ∧ x < hi := by
  obtain ⟨redex, w, hwork, hw, hbase⟩ := hx
  have hadds := h.le_and_addsRoot.2
  rw [hwork] at hadds
  refine ⟨?_, hadds.extension.hung.lt_of_has hw⟩
  by_contra hlt
  rw [Forest.has_eq_isSome, hadds.extension.below x (by lia), ← Forest.has_eq_isSome, hbase] at hw
  cases hw

/-- The second phase of a begun step brings in what its first phase took, or new ids. -/
theorem Begun.brings_commit (h : p.Begun g lo hi) (s : Snapshot State) {next : Nat} (hhi : hi ≤ next) :
    (g.commit s p).Meets next
      (fun o _ => ∀ s', o = some s' → ∀ x : Nat, s'.nodes.has x = true →
        p.base.state.nodes.has x = true ∨ next ≤ x ∨ p.Brings x) fun _ => True := by
  obtain ⟨hle, hadds⟩ := h.le_and_addsRoot
  have hF := h.base.nodes
  unfold Game.commit
  split
  case isFalse => exact .throw trivial
  cases hwork : p.work with
  | nothing => exact .pure nofun
  | ready redex w =>
    rw [hwork] at hadds
    refine .read_bind fun s' hs' => .pure ?_
    rintro _ ⟨⟩ x hx
    obtain ⟨t, v, -, -, hv, hg, -⟩ := State.grafts_of_graft hF hadds hs'
    rcases (hg.has_iff x).1 hx with ⟨hx, -⟩ | hx
    · exact .inl hx
    · rw [hg.added] at hx
      refine .inr (.inr ⟨redex, w, hwork, ?_, ?_⟩)
      · obtain ⟨n, hn, rfl⟩ := Plant.mem_ids_iff_nodes.1 (Plant.ids_inPlaceOf v _ ▸ hx)
        exact Forest.has_of_get? (hv.get?_of_mem_nodes hn)
      · rw [Forest.has_eq_isSome, hg.fresh x hx]
        rfl
  | deferred redex e =>
    have hF' := hF.mono (Nat.le_trans hle hhi)
    refine (g.signature.addsRoot_finish hF' e).bind ?_
    intro w next' _ hw
    refine .read_bind fun s' hs' => .pure ?_
    rintro _ ⟨⟩ x hx
    obtain ⟨t, v, -, -, -, hg, hids⟩ := State.grafts_of_graft hF' hw hs'
    rw [← v.ids_inPlaceOf t.root] at hids
    exact (hg.addsFrom (fun x hx => (hids x hx).1) x hx).imp_right .inl

/-- A second phase that does not produce the replacement puts the one that is ready in the place of
the redex. -/
theorem exists_of_commit {s : Snapshot State} {next next' : NodeId} {s' : State}
    (h : (g.commit s p).runFrom next = (.ok (some s'), next')) (hwork : p.work.isDeferred = false) :
    ∃ redex w, p.work = .ready redex w ∧ p.base.state.graft redex w = .ok s' := by
  unfold Game.commit at h
  split at h
  case isFalse => cases h
  cases hw : p.work with
  | nothing =>
    rw [hw] at h
    cases h
  | deferred redex e =>
    rw [hw] at hwork
    cases hwork
  | ready redex w =>
    rw [hw, State.complete] at h
    cases hgraft : p.base.state.graft redex w with
    | error fault =>
      rw [hgraft] at h
      cases h
    | ok s' =>
      rw [hgraft] at h
      cases h
      exact ⟨redex, w, rfl, hgraft⟩

/-- A replacement that is ready brings its root in when it is put in place. -/
theorem Begun.exists_new (h : p.Begun g lo hi) {redex : NodeId} {w : Replacement} {s' : State}
    (hwork : p.work = .ready redex w) (hgraft : p.base.state.graft redex w = .ok s') :
    ∃ x : NodeId, s'.nodes.has x = true ∧ p.base.state.nodes.has x = false := by
  have hadds := h.le_and_addsRoot.2
  rw [hwork] at hadds
  obtain ⟨t, v, -, -, -, hg, -⟩ := State.grafts_of_graft h.base.nodes hadds hgraft
  refine ⟨_, Forest.has_of_get? hg.new.get?_id, ?_⟩
  rw [Forest.has_eq_isSome, hg.fresh _ (Plant.id_mem_ids _)]
  rfl

end BegunStep

/-! ### New snapshots -/

/-- An action that puts a new snapshot in the place of the present one starts a level, or is not left
to the timeline and changes the state. -/
theorem Session.of_new_stamp {σ α : Type} {s : Session σ α} {action : α}
    (hlt : ∀ x, s.timeline.Has x → x.stamp < s.timeline.nextStamp)
    (h : (s.perform action).1.timeline.present.stamp = s.timeline.nextStamp) :
    (∃ level next, s.dynamics.steering? action = some (.startLevel level) ∧
      (s.dynamics.initial level).runFrom s.next = (.ok (s.perform action).1.present, next)) ∨
    s.dynamics.steering? action = none ∧ ∃ next,
      (s.dynamics.change s.timeline.present action).runFrom s.next =
        (.ok (some (s.perform action).1.present), next) := by
  have hold : ¬s.timeline.Has (s.perform action).1.timeline.present := fun hx =>
    absurd (hlt _ hx) (by rw [h]; exact Nat.lt_irrefl _)
  clear h
  cases hsteer : s.dynamics.steering? action with
  | none =>
    refine .inr ⟨rfl, ?_⟩
    rw [Session.perform_eq hsteer] at hold ⊢
    rcases hrun : (s.dynamics.change s.timeline.present action).runFrom s.next with
      ⟨(why | fault) | _ | state, next⟩ <;> rw [hrun] at hold
    · exact absurd (.inl rfl) hold
    · exact absurd (.inl rfl) hold
    · exact absurd (.inl rfl) hold
    · refine ⟨next, ?_⟩
      dsimp only [Session.present]
      split <;> rfl
  | some c =>
    unfold Session.perform Timeline.advance at hold ⊢
    simp only [hsteer] at hold ⊢
    cases c with
    | startLevel level =>
      rw [Timeline.steer, Supply.runFrom_bind] at hold ⊢
      rcases hrun : (s.dynamics.initial level).runFrom s.next with ⟨fault | state, next⟩ <;>
        rw [hrun] at hold
      · exact absurd (.inl rfl) hold
      · exact .inl ⟨level, next, rfl, hrun⟩
    | undo =>
      refine absurd ?_ hold
      show s.timeline.Has s.timeline.undo.present
      obtain hundo | ⟨previous, past, hpast, hundo⟩ := s.timeline.undo_cases <;> rw [hundo]
      · exact .inl rfl
      · exact .inr (.inl (hpast ▸ List.mem_cons_self))
    | redo =>
      refine absurd ?_ hold
      show s.timeline.Has (s.timeline.redo s.limit).present
      obtain hredo | ⟨following, future, hfuture, hredo⟩ := s.timeline.redo_cases s.limit <;>
        rw [hredo]
      · exact .inl rfl
      · exact .inr (.inr (hfuture ▸ List.mem_cons_self))
    | clearError => exact absurd (.inl rfl) hold

namespace Play

variable {g : Game} {p : Play} {r : Request} {session : Session State Move} {level : Nat}
  {requests : List Request}

/-- A request puts a newly built snapshot in the place of the present one. -/
def Installs (g : Game) (p : Play) (r : Request) : Prop :=
  (p.take g r).session.timeline.present.stamp = p.session.timeline.nextStamp

theorem Sound.stamp_lt (h : p.Sound g) {y : Snapshot State} (hy : p.session.timeline.Has y) :
    y.stamp < p.session.timeline.nextStamp :=
  h.stamped.lt y (.inl hy)

/-- A request adds at most a newly built snapshot to those of a play. -/
theorem Sound.continues_take (h : p.Sound g) (r : Request) :
    p.session.timeline.Continues (p.take g r).session.timeline := by
  cases r with
  | command c => exact p.session.continues_perform _
  | begin target =>
    obtain ⟨error, next, steps, htake, -⟩ := h.exists_take_begin target
    rw [htake]
    exact .of_has rfl fun _ hx => hx
  | complete position =>
    dsimp only [Play.take]
    split
    · exact p.session.continues_perform _
    · exact .of_has rfl fun _ hx => hx

/-- A request that installs no new snapshot leaves one of the old ones present. -/
theorem Sound.has_or_installs (h : p.Sound g) (r : Request) :
    p.session.timeline.Has (p.take g r).session.timeline.present ∨ p.Installs g r :=
  ((h.continues_take r).has _ (.inl rfl)).imp_right fun hx => hx.2.1

/-- A first phase installs nothing. -/
theorem Sound.not_installs_begin (h : p.Sound g) (target : NodeId) :
    ¬p.Installs g (.begin target) := fun hi => by
  obtain ⟨error, next, steps, htake, -⟩ := h.exists_take_begin target
  rw [Installs, htake] at hi
  exact absurd (h.stamp_lt (.inl rfl)) (by rw [hi]; exact Nat.lt_irrefl _)

/-- A second phase that installs something is that of a begun step on the present state. -/
theorem Sound.exists_commit (h : p.Sound g) {position : Nat} (hi : p.Installs g (.complete position)) :
    ∃ step next, p.begun[position]? = some step ∧ step.base = p.session.timeline.present ∧
      (g.commit p.session.timeline.present step).runFrom p.session.next =
        (.ok (some (p.take g (.complete position)).session.present), next) := by
  cases hstep : p.begun[position]? with
  | none =>
    simp only [Installs, Play.take, hstep] at hi
    exact absurd (h.stamp_lt (.inl rfl)) (by rw [hi]; exact Nat.lt_irrefl _)
  | some step =>
    simp only [Installs, Play.take, hstep] at hi ⊢
    rcases Session.of_new_stamp (fun _ => h.stamp_lt) hi with ⟨_, _, hsteer, -⟩ | ⟨-, next, hrun⟩
    · rw [h.dynamics] at hsteer
      cases hsteer
    · rw [h.dynamics] at hrun
      change (liftM (g.commit p.session.timeline.present step) : Supply Failure _).runFrom _ = _ at hrun
      rw [Supply.runFrom_liftM] at hrun
      rcases hcommit : (g.commit p.session.timeline.present step).runFrom p.session.next with
        ⟨fault | o, next'⟩ <;> rw [hcommit] at hrun
      · cases hrun
      · cases hrun
        obtain ⟨lo, hi', hbegun, hhi⟩ := h.begun step (List.mem_of_getElem? hstep)
        obtain ⟨hstamp, -⟩ :=
          ((hbegun.meets_commit p.session.timeline.present hhi).of_ok hcommit).2 _ rfl
        exact ⟨step, next, rfl, h.base_eq (List.mem_of_getElem? hstep) hstamp, hcommit⟩

/-- Ids that a newly built snapshot brings in are new, or brought by the begun step that is put in
place. -/
theorem Sound.brings_take (h : p.Sound g) (hi : p.Installs g r) {x : Nat}
    (hx : (p.take g r).session.present.nodes.has x = true) :
    p.session.present.nodes.has x = true ∨ p.session.next ≤ x ∨
      ∃ position step, r = .complete position ∧ p.begun[position]? = some step ∧ step.Brings x := by
  cases r with
  | command c =>
    rcases Session.of_new_stamp (fun _ => h.stamp_lt) hi with ⟨level, next, -, hrun⟩ | ⟨-, next, hrun⟩
    · rw [h.dynamics] at hrun
      refine .inr (.inl ?_)
      by_contra hlt
      have hnone := ((g.levels.hung_load g.signature level _).of_ok hrun).2.2 x (Nat.not_le.1 hlt)
      change (p.session.perform (.command c)).1.present.nodes.has x = true at hx
      rw [Forest.has_eq_isSome, hnone] at hx
      cases hx
    · rw [h.dynamics] at hrun
      exact (((g.addsFrom_obey h.states.present.nodes c).of_ok hrun).2 _ rfl x hx).imp_right .inl
  | begin target => exact absurd hi (h.not_installs_begin target)
  | complete position =>
    obtain ⟨step, next, hstep, hbase, hrun⟩ := h.exists_commit hi
    obtain ⟨lo, hi', hbegun, hhi⟩ := h.begun step (List.mem_of_getElem? hstep)
    have hcases := ((hbegun.brings_commit p.session.timeline.present hhi).of_ok hrun).2 _ rfl x hx
    rw [hbase] at hcases
    exact hcases.imp_right (Or.imp_right fun hb => ⟨position, step, rfl, hstep, hb⟩)

/-! ### What has been seen -/

variable (g session requests) in
/-- An id has been on a snapshot that was present after some of the requests. -/
def Occurs (x : NodeId) : Prop :=
  ∃ earlier, earlier <+: requests ∧
    (takeAll g ⟨session, []⟩ earlier).session.present.nodes.has x = true

variable (g session requests) in
/-- The begun step at a position has been put in place by one of the requests. -/
def Completes (position : Nat) : Prop :=
  ∃ earlier, earlier ++ [.complete position] <+: requests ∧
    (takeAll g ⟨session, []⟩ earlier).Installs g (.complete position)

theorem takeAll_append (g : Game) (p : Play) (requests later : List Request) :
    p.takeAll g (requests ++ later) = (p.takeAll g requests).takeAll g later :=
  List.foldl_append

theorem takeAll_concat (g : Game) (p : Play) (requests : List Request) (r : Request) :
    p.takeAll g (requests ++ [r]) = (p.takeAll g requests).take g r :=
  takeAll_append g p requests [r]

theorem occurs_concat_iff {x : NodeId} : Occurs g session (requests ++ [r]) x ↔
    Occurs g session requests x ∨
      (takeAll g ⟨session, []⟩ (requests ++ [r])).session.present.nodes.has x = true := by
  unfold Occurs
  simp only [List.prefix_concat_iff]
  grind

theorem Completes.concat {position : Nat} (h : Completes g session requests position) (r : Request) :
    Completes g session (requests ++ [r]) position := by
  obtain ⟨earlier, hearlier, hi⟩ := h
  exact ⟨earlier, hearlier.trans (List.prefix_append _ _), hi⟩

/-- What has been seen in a play from a level has been handed out. -/
theorem Occurs.lt (hs : (⟨session, []⟩ : Play).Sound g) {x : Nat}
    (h : Occurs g session requests x) : x < (takeAll g ⟨session, []⟩ requests).session.next := by
  obtain ⟨earlier, ⟨later, rfl⟩, hx⟩ := h
  have hearlier := hs.takeAll earlier
  rw [takeAll_append]
  exact Nat.lt_of_lt_of_le (hearlier.states.present.nodes.lt_of_has hx) (hearlier.le_takeAll later)

variable (g session requests) in
/-- What the history of a play says of its present: every snapshot on its timeline has been present,
no two begun steps bring the same id, and a brought id that has been seen came in when its step was
put in place. -/
structure Recorded : Prop where
  shown : ∀ y, (takeAll g ⟨session, []⟩ requests).session.timeline.Has y → ∃ earlier,
    earlier <+: requests ∧ (takeAll g ⟨session, []⟩ earlier).session.timeline.present = y
  position_eq : ∀ (i j : Nat) p q x, (takeAll g ⟨session, []⟩ requests).begun[i]? = some p →
    (takeAll g ⟨session, []⟩ requests).begun[j]? = some q → p.Brings x → q.Brings x → i = j
  completes : ∀ (i : Nat) p x, (takeAll g ⟨session, []⟩ requests).begun[i]? = some p → p.Brings x →
    Occurs g session requests x → Completes g session requests i

/-- What the begun steps of a play bring has been handed out. -/
theorem Sound.lt_of_brings (h : p.Sound g) {step : BegunStep} (hstep : step ∈ p.begun) {x : Nat}
    (hx : step.Brings x) : x < p.session.next := by
  obtain ⟨lo, hi, hbegun, hhi⟩ := h.begun step hstep
  exact Nat.lt_of_lt_of_le (hbegun.lt_of_brings hx).2 hhi

/-- A request begins at most one step. It installs nothing then, and what the step brings was not
handed out before. -/
theorem Sound.begun_take (h : p.Sound g) (r : Request) : (p.take g r).begun = p.begun ∨
    ∃ step, (p.take g r).begun = p.begun ++ [step] ∧ ¬p.Installs g r ∧
      ∀ x : Nat, step.Brings x → p.session.next ≤ x := by
  cases r with
  | command c => exact .inl rfl
  | begin target =>
    have hnot := h.not_installs_begin target
    obtain ⟨error, next, steps, htake, -, hsteps⟩ := h.exists_take_begin target
    rw [htake]
    rcases hsteps with rfl | ⟨step, rfl, -, hbegun⟩
    · exact .inl (List.append_nil _)
    · exact .inr ⟨step, rfl, hnot, fun x hx => (hbegun.lt_of_brings hx).1⟩
  | complete position =>
    dsimp only [Play.take]
    split <;> exact .inl rfl

/-- Begun steps keep their positions. -/
theorem Sound.begun_takeAll (h : p.Sound g) (requests : List Request) :
    p.begun <+: (p.takeAll g requests).begun := by
  induction requests generalizing p with
  | nil => exact List.prefix_refl _
  | cons r requests ih =>
    refine List.IsPrefix.trans ?_ (ih (h.take r))
    rcases h.begun_take r with hb | ⟨step, hb, -⟩
    · exact hb ▸ List.prefix_refl _
    · exact hb ▸ List.prefix_append _ _

theorem getElem?_begun_of_prefix (hs : (⟨session, []⟩ : Play).Sound g) {earlier : List Request}
    (h : earlier <+: requests) {i : Nat} {step : BegunStep}
    (hstep : (takeAll g ⟨session, []⟩ earlier).begun[i]? = some step) :
    (takeAll g ⟨session, []⟩ requests).begun[i]? = some step := by
  obtain ⟨later, rfl⟩ := h
  have hbegun := (hs.takeAll earlier).begun_takeAll later
  rw [← takeAll_append, List.prefix_iff_getElem?] at hbegun
  obtain ⟨hi, rfl⟩ := List.getElem?_eq_some_iff.1 hstep
  exact hbegun i hi

/-- A replacement that is ready gives the same state whenever it is put in place. -/
theorem Completes.exists_graft {position : Nat} (h : Completes g session requests position)
    (hs : (⟨session, []⟩ : Play).Sound g) {step : BegunStep}
    (hstep : (takeAll g ⟨session, []⟩ requests).begun[position]? = some step) {redex : NodeId}
    {w : Replacement} (hwork : step.work = .ready redex w) : ∃ earlier, earlier <+: requests ∧
      step.base.state.graft redex w =
        .ok (takeAll g ⟨session, []⟩ earlier).session.present := by
  obtain ⟨earlier, hearlier, hi⟩ := h
  obtain ⟨first, next, hfirst, -, hrun⟩ := (hs.takeAll earlier).exists_commit hi
  have hsame := getElem?_begun_of_prefix hs ((List.prefix_append _ _).trans hearlier) hfirst
  obtain rfl := Option.some.inj (hstep.symm.trans hsame)
  obtain ⟨redex', w', hwork', hgraft⟩ := BegunStep.exists_of_commit hrun (by rw [hwork]; rfl)
  rw [hwork] at hwork'
  cases hwork'
  exact ⟨_, hearlier, takeAll_concat g ⟨session, []⟩ earlier _ ▸ hgraft⟩

/-- A begun step was there before a request, or is the last one. -/
theorem Sound.getElem?_begun_take (h : p.Sound g) {i : Nat} {step : BegunStep}
    (hstep : (p.take g r).begun[i]? = some step) : p.begun[i]? = some step ∨
      i = p.begun.length ∧ ¬p.Installs g r ∧ ∀ x : Nat, step.Brings x → p.session.next ≤ x := by
  rcases h.begun_take r with hb | ⟨last, hb, hnot, hlast⟩
  · exact .inl (hb ▸ hstep)
  · rw [hb] at hstep
    rcases Nat.lt_trichotomy i p.begun.length with hi | rfl | hi
    · exact .inl (by rwa [List.getElem?_append_left hi] at hstep)
    · rw [List.getElem?_concat_length, Option.some.injEq] at hstep
      exact .inr ⟨rfl, hnot, hstep ▸ hlast⟩
    · rw [List.getElem?_eq_none (by rw [List.length_append]; exact hi)] at hstep
      cases hstep

/-- An id that is seen for the first time comes in with a newly built snapshot. -/
theorem Recorded.of_occurs_concat (h : Recorded g session requests)
    (hstart : (⟨session, []⟩ : Play).Sound g) {x : Nat}
    (hx : Occurs g session (requests ++ [r]) x) : Occurs g session requests x ∨
      (takeAll g ⟨session, []⟩ requests).Installs g r ∧
        ((takeAll g ⟨session, []⟩ requests).session.next ≤ x ∨ ∃ position step,
          r = .complete position ∧
          (takeAll g ⟨session, []⟩ requests).begun[position]? = some step ∧ step.Brings x) := by
  have hs := hstart.takeAll requests
  rcases occurs_concat_iff.1 hx with hx | hnow
  · exact .inl hx
  rw [takeAll_concat] at hnow
  rcases hs.has_or_installs r with hold | hi
  · obtain ⟨earlier, hearlier, hpresent⟩ := h.shown _ hold
    refine .inl ⟨earlier, hearlier, ?_⟩
    rw [Session.present, hpresent]
    exact hnow
  · rcases hs.brings_take hi hnow with hold | hnew
    · exact .inl ⟨requests, List.prefix_refl _, hold⟩
    · exact .inr ⟨hi, hnew⟩

/-- The history of a play goes on being recorded with every request. -/
theorem Recorded.concat (h : Recorded g session requests) (hstart : (⟨session, []⟩ : Play).Sound g)
    (r : Request) : Recorded g session (requests ++ [r]) := by
  have htake := takeAll_concat g ⟨session, []⟩ requests r
  have hs := hstart.takeAll requests
  constructor
  case shown =>
    intro y hy
    rw [htake] at hy
    rcases (hs.continues_take r).has y hy with hy | ⟨hy, -⟩
    · obtain ⟨earlier, hearlier, hpresent⟩ := h.shown y hy
      exact ⟨earlier, hearlier.trans (List.prefix_append _ _), hpresent⟩
    · exact ⟨_, List.prefix_refl _, htake ▸ hy.symm⟩
  case position_eq =>
    intro i j p q x hp hq hpx hqx
    rw [htake] at hp hq
    rcases hs.getElem?_begun_take hp with hp | ⟨rfl, -, hplast⟩ <;>
      rcases hs.getElem?_begun_take hq with hq | ⟨rfl, -, hqlast⟩
    · exact h.position_eq i j p q x hp hq hpx hqx
    · exact absurd (hqlast x hqx)
        (Nat.not_le.2 (hs.lt_of_brings (List.mem_of_getElem? hp) hpx))
    · exact absurd (hplast x hpx)
        (Nat.not_le.2 (hs.lt_of_brings (List.mem_of_getElem? hq) hqx))
    · rfl
  case completes =>
    intro i p x hp hx hocc
    rw [htake] at hp
    rcases hs.getElem?_begun_take hp with hold | ⟨rfl, hnot, hlast⟩
    · rcases h.of_occurs_concat hstart hocc with hocc | ⟨hi, hle | ⟨j, q, rfl, hq, hqx⟩⟩
      · exact (h.completes i p x hold hx hocc).concat r
      · exact absurd hle (Nat.not_le.2 (hs.lt_of_brings (List.mem_of_getElem? hold) hx))
      · obtain rfl := h.position_eq i j p q x hold hq hx hqx
        exact ⟨requests, List.prefix_refl _, hi⟩
    · rcases h.of_occurs_concat hstart hocc with hocc | ⟨hi, -⟩
      · exact absurd (hlast x hx) (Nat.not_le.2 (hocc.lt hstart))
      · exact absurd hi hnot

/-- The history of a play from a level is recorded. -/
theorem recorded_of_start (h : g.start level = .ok session) (requests : List Request) :
    Recorded g session requests := by
  induction requests using List.reverseRecOn with
  | nil => exact ⟨fun y hy => ⟨[], List.prefix_refl _, (eq_present_of_start h hy).symm⟩, nofun, nofun⟩
  | append_singleton requests r ih => exact ih.concat (sound_start h) r

/-! ### Fresh ids -/

/-- In a play from a level, a newly built snapshot brings in ids that have not been seen on any
snapshot before, unless it puts a begun step in place that has been put in place before and whose
replacement was ready then. -/
theorem fresh_iff_of_start (h : g.start level = .ok session) (requests : List Request)
    (hi : (takeAll g ⟨session, []⟩ requests).Installs g r) :
    (∀ x, (takeAll g ⟨session, []⟩ (requests ++ [r])).session.present.nodes.has x = true →
        (takeAll g ⟨session, []⟩ requests).session.present.nodes.has x = false →
        ¬Occurs g session requests x) ↔
      ¬∃ position step, r = .complete position ∧
        (takeAll g ⟨session, []⟩ requests).begun[position]? = some step ∧
        step.work.isDeferred = false ∧ Completes g session requests position := by
  have hstart := sound_start h
  have hs := hstart.takeAll requests
  rw [takeAll_concat]
  constructor
  · -- the step gives now the state that it gave then, and so the root that it gave then
    rintro hfresh ⟨position, step, rfl, hstep, hwork, hcompletes⟩
    obtain ⟨step', next, hstep', hbase, hrun⟩ := hs.exists_commit hi
    obtain rfl := Option.some.inj (hstep.symm.trans hstep')
    obtain ⟨redex, w, hready, hgraft⟩ := BegunStep.exists_of_commit hrun hwork
    obtain ⟨earlier, hearlier, hthen⟩ := hcompletes.exists_graft hstart hstep hready
    obtain ⟨lo, hi', hbegun, -⟩ := hs.begun step (List.mem_of_getElem? hstep)
    obtain ⟨x, hx, hold⟩ := hbegun.exists_new hready hgraft
    rw [hbase] at hold
    refine hfresh x hx hold ⟨earlier, hearlier, ?_⟩
    rwa [Except.ok.inj (hthen.symm.trans hgraft)]
  · intro hnot x hx hold hocc
    rcases hs.brings_take hi hx with hx | hle | ⟨position, step, rfl, hstep, hbrings⟩
    · rw [hold] at hx
      cases hx
    · exact absurd hle (Nat.not_le.2 (hocc.lt hstart))
    · refine hnot ⟨position, step, rfl, hstep, ?_,
        (recorded_of_start h requests).completes position step x hstep hbrings hocc⟩
      obtain ⟨redex, w, hwork, -⟩ := hbrings
      rw [hwork]
      rfl

/-- A begun step that is put in place, undone, and put in place again brings its id back. -/
theorem fresh_iff_of_start_negating : ∃ session, negatingGame.start 0 = .ok session ∧
    ¬∀ x, (takeAll negatingGame ⟨session, []⟩
        [.begin 1, .complete 0, .command .undo, .complete 0]).session.present.nodes.has x = true →
      (takeAll negatingGame ⟨session, []⟩
        [.begin 1, .complete 0, .command .undo]).session.present.nodes.has x = false →
      ¬Occurs negatingGame session [.begin 1, .complete 0, .command .undo] x := by
  cases h : negatingGame.start 0 with
  | error fault =>
    have hstart : (negatingGame.start 0).toOption.isSome = true := by decide +kernel
    rw [h] at hstart
    cases hstart
  | ok session =>
    have hstamps : (negatingGame.start 0).toOption.map (fun session =>
        let p := takeAll negatingGame ⟨session, []⟩ [.begin 1]
        let q := takeAll negatingGame ⟨session, []⟩ [.begin 1, .complete 0, .command .undo]
        ((p.take negatingGame (.complete 0)).session.timeline.present.stamp,
          p.session.timeline.nextStamp,
          (q.take negatingGame (.complete 0)).session.timeline.present.stamp,
          q.session.timeline.nextStamp)) = some (1, 1, 2, 2) := by
      decide +kernel
    have hwork : (negatingGame.start 0).toOption.bind (fun session =>
        (takeAll negatingGame ⟨session, []⟩ [.begin 1, .complete 0, .command .undo]).begun[0]?.map
          fun step => step.work.isDeferred) = some false := by
      decide +kernel
    rw [h] at hstamps hwork
    simp only [Except.toOption, Option.map_some, Option.some.injEq, Prod.mk.injEq] at hstamps
    obtain ⟨hpresent, hnext, hpresent', hnext'⟩ := hstamps
    obtain ⟨_, ⟨⟩, hwork⟩ := Option.bind_eq_some_iff.1 hwork
    obtain ⟨step, hstep, hwork⟩ := Option.map_eq_some_iff.1 hwork
    refine ⟨session, rfl, mt (fresh_iff_of_start h [.begin 1, .complete 0, .command .undo]
      (r := .complete 0) (hpresent'.trans hnext'.symm)).1 (not_not.2 ?_)⟩
    exact ⟨0, step, rfl, hstep, hwork, [.begin 1], ⟨[.command .undo], rfl⟩,
      hpresent.trans hnext.symm⟩

end Play

end TermForest
