import TermForest.Proofs.Forest.Listing
import TermForest.Proofs.State.Areas

/-!
# Changes that are none

A move that succeeds gives no new state, or one that differs from the present state and not only in the
order of slots. So a session that has the same content after a move has recorded nothing. Clearing away,
finding out how the level stands, and taking a root to the board find nothing left to do when they are
asked for again.
-/

namespace TermForest

open Supply (Meets)

/-! ### States of the same content -/

theorem Node.sameContent_self (n : Node) : n.sameContent n = true := by
  simp [Node.sameContent, Slots.sameContent]

namespace Forest

theorem sameContent_self (F : Forest) : F.sameContent F = true := by
  rw [sameContent, Bool.and_eq_true, beq_self_eq_true, List.all_eq_true]
  refine ⟨rfl, fun n hn => ?_⟩
  rw [mem_toList_iff.1 hn, Option.any_some]
  exact n.sameContent_self

/-- Forests of the same content have nodes of the same ids. -/
theorem exists_of_sameContent {F G : Forest} (h : F.sameContent G = true) {x : NodeId} {n : Node}
    (hn : F.get? x = some n) : ∃ m, G.get? x = some m := by
  obtain rfl := id_of_get? hn
  rw [sameContent, Bool.and_eq_true, List.all_eq_true] at h
  obtain ⟨m, hm, -⟩ := (Option.any_eq_true ..).1 (h.2 n (mem_toList_iff.2 hn))
  exact ⟨m, hm⟩

end Forest

namespace State

/-- Another state, by value and not only by the order of the slots. -/
def Alters (s s' : State) : Prop := s'.sameContent s = false

variable {s s' : State} {next : Nat} {S : Signature}

theorem sameContent_self (s : State) : s.sameContent s = true := by
  rw [sameContent, s.nodes.sameContent_self, beq_self_eq_true, Bool.and_true]

/-- A state is altered where something but its nodes is another. -/
theorem alters_of_ne {α : Type} (f : State → α) (hf : ∀ (t : State) nodes, f { t with nodes } = f t)
    (h : f s' ≠ f s) : s.Alters s' := by
  rw [Alters, Bool.eq_false_iff]
  intro hsame
  rw [sameContent, Bool.and_eq_true, beq_iff_eq] at hsame
  exact h ((hf s' s.nodes).symm.trans (congrArg f hsame.2))

/-- A state is altered where a node has come in. -/
theorem alters_of_get? {x : NodeId} {n : Node} (hn : s'.nodes.get? x = some n)
    (hx : s.nodes.get? x = none) : s.Alters s' := by
  rw [Alters, Bool.eq_false_iff]
  intro hsame
  rw [sameContent, Bool.and_eq_true] at hsame
  obtain ⟨m, hm⟩ := Forest.exists_of_sameContent hsame.1 hn
  cases hx.symm.trans hm

/-! ### Moves alter -/

theorem Grafts.alters {t u : Plant} (h : s.Grafts t u s') : s.Alters s' :=
  alters_of_get? h.new.get?_id (h.fresh _ u.id_mem_ids)

/-- A list is another one without one of its items. -/
theorem filter_ne_self {ids : List NodeId} {p : NodeId → Bool} {x : NodeId} (hx : x ∈ ids)
    (hp : p x = false) : ids.filter p ≠ ids := fun h => by
  rw [← h, List.mem_filter, hp] at hx
  cases hx.2

theorem alters_detach (s : State) (id : NodeId) (next : Nat) :
    (s.detach id).Meets next (fun o _ => ∀ s', o = some s' → s.Alters s') fun _ => True := by
  refine (s.meets_detaches id next).imp (fun o _ _ ho s' hs' => ?_) fun _ _ => trivial
  obtain ⟨-, n, p, slot, root, -, h⟩ := ho s' hs'
  rw [h.eq]
  exact alters_of_ne State.board (fun _ _ => rfl) (by simp)

theorem alters_moveToBoard (s : State) (id : NodeId) :
    Ends (s.moveToBoard id) (fun o => ∀ s', o = some s' → s.Alters s') fun _ => True := by
  refine (s.ends_moveToBoard id).imp (fun o ho s' hs' => ?_) fun _ _ => trivial
  obtain ⟨-, -, rfl⟩ := ho s' hs'
  exact alters_of_ne State.board (fun _ _ => rfl) (by simp)

/-- A root that fills a hole leaves the board or the toolbox. -/
theorem alters_moveToSlot (s : State) (S : Signature) (id hole : NodeId) :
    Ends (s.moveToSlot S id hole) (fun o => ∀ s', o = some s' → s.Alters s') fun _ => True := by
  refine (s.ends_fills S id hole).imp (fun o ho s' hs' => ?_) fun _ _ => trivial
  obtain ⟨n, m, p, slot, root, -, -, h⟩ := ho s' hs'
  rw [h.eq]
  rcases h.place with hboard | htoolbox
  · exact alters_of_ne State.board (fun _ _ => rfl) (filter_ne_self hboard (by simp))
  · exact alters_of_ne State.toolbox (fun _ _ => rfl) (filter_ne_self htoolbox (by simp))

theorem alters_moveToDefs (s : State) (S : Signature) (id : NodeId) (next : Nat) :
    (s.moveToDefs S id).Meets next (fun o _ => ∀ s', o = some s' → s.Alters s') fun _ => True := by
  refine (s.meets_redefining S id next).imp (fun o _ _ ho s' hs' => ?_) fun _ _ => trivial
  obtain ⟨n, t, u, F, added, -, -, -, -, -, h⟩ := ho s' hs'
  rw [h.eq]
  exact alters_of_ne State.board (fun _ _ => rfl) (filter_ne_self h.board (by simp))

/-- What clears away drops a root from the board, or forgets what the last step changed. -/
theorem alters_cleanup (s : State) :
    Ends s.cleanup
      (fun o => ∀ s', o = some s' → s.Alters s' ∧ s'.added = [] ∧ s'.removed = []) fun _ => True := by
  refine s.ends_clears.imp (fun o ho s' hs' => ?_) fun _ _ => trivial
  obtain ⟨used, F, h⟩ := ho s' hs'
  rw [h.eq]
  refine ⟨?_, rfl, rfl⟩
  by_cases hadded : s.added = []
  case neg => exact alters_of_ne State.added (fun _ _ => rfl) (Ne.symm hadded)
  by_cases hremoved : s.removed = []
  case neg => exact alters_of_ne State.removed (fun _ _ => rfl) (Ne.symm hremoved)
  obtain ⟨r, hr⟩ := List.exists_mem_of_ne_nil used fun hnone => h.due ⟨hnone, hadded, hremoved⟩
  have hboard := subset_of_filterM_eq_ok h.found hr
  exact alters_of_ne State.board (fun _ _ => rfl) (filter_ne_self hboard (by simpa using hr))

/-- A level that is won or lost is no longer being played. -/
theorem alters_detectCompletion (s : State) (S : Signature) :
    Ends (s.detectCompletion S)
      (fun o => ∀ s', o = some s' → s.Alters s' ∧ s'.mode ≠ .gameplay) fun _ => True := by
  refine (s.ends_detectCompletion S).imp (fun o ho s' hs' => ?_) fun _ _ => trivial
  obtain ⟨hplayed, mode, hmode, rfl⟩ := ho s' hs'
  exact ⟨alters_of_ne State.mode (fun _ _ => rfl) (hplayed ▸ hmode), hmode⟩

/-! ### Moves that settle -/

theorem moveToBoard_of_mem {id : NodeId} (h : id ∈ s.board) : s.moveToBoard id = .ok none := by
  rw [State.moveToBoard, if_pos h]
  rfl

/-- What has been taken to the board stands there. -/
theorem ends_moveToBoard_mem (s : State) (id : NodeId) :
    Ends (s.moveToBoard id) (fun o => id ∈ (o.getD s).board) fun _ => True := by
  unfold State.moveToBoard
  split
  · next h => exact .pure h
  · refine .guard (fun _ => trivial) fun _ => .pure ?_
    exact List.mem_append_right _ List.mem_cons_self

theorem detectCompletion_of_ne (S : Signature) (h : s.mode ≠ .gameplay) :
    s.detectCompletion S = .ok none := by
  rw [State.detectCompletion, if_pos h]
  rfl

/-- Nothing is cleared away where nothing is used up, added or removed. -/
theorem Partitioned.cleanup_eq_none (h : s.Partitioned next)
    (hvoid : ∀ r ∈ s.board, s.isVoid r = false) (hadded : s.added = []) (hremoved : s.removed = []) :
    s.cleanup = .ok none := by
  have hused : s.board.filter s.isVoid = [] :=
    List.filter_eq_nil_iff.2 fun r hr => by simp [hvoid r hr]
  rw [State.cleanup, filterM_eq_ok fun r hr => h.find_isVoid hr, ok_bind,
    if_pos ⟨hused, hadded, hremoved⟩]
  rfl

/-- After clearing away nothing on the board is used up. -/
theorem Kept.cleanup_again (h : s.Kept next) (hrun : s.cleanup = .ok (some s')) :
    s'.cleanup = .ok none := by
  obtain ⟨o, ho, hkept⟩ := h.exists_cleanup
  rw [hrun, Except.ok.injEq] at ho
  have hisolates : s.Isolates (.command .cleanup) s' := h.partitioned.ends_cleanup.of_ok hrun s' rfl
  obtain ⟨-, hadded, hremoved⟩ := s.alters_cleanup.of_ok hrun s' rfl
  refine (hkept s' ho.symm).partitioned.cleanup_eq_none (fun r hr => ?_) hadded hremoved
  rw [(hisolates.cleanup rfl).1, List.mem_filter, Bool.not_eq_true'] at hr
  -- a root that stays is what it was
  have hself := h.partitioned.rootOf_self (mem_roots_of_board hr.1)
  have hkeeps := (hisolates.board r hr.1 (by simp [Move.named]) fun _ => hr.2).2
  rw [isVoid, hkeeps r hself]
  exact hr.2

end State

/-- Commands that have nothing left to do once they were carried out. -/
def Command.Settles : Command → Prop
  | .cleanup | .detectCompletion | .moveToBoard _ => True
  | _ => False

namespace Supply

variable {ε α : Type} {a : α} {next next' : NodeId}

theorem eq_ok_of_runFrom_liftM {x : Except ε α}
    (h : (liftM x : Supply ε α).runFrom next = (.ok a, next')) : x = .ok a := by
  cases x <;> cases h
  rfl

theorem eq_ok_of_runFrom_liftFault {x : Except Fault α}
    (h : (liftM x : Supply Failure α).runFrom next = (.ok a, next')) : x = .ok a := by
  cases x <;> cases h
  rfl

end Supply

namespace Game

open Supply (eq_ok_of_runFrom_liftM eq_ok_of_runFrom_liftFault)

variable {s : State} {next next' : NodeId} {m : Move} {c : Command} {o : Option State}

/-- A command gives no new state but one that is another. -/
theorem alters_obey (g : Game) (h : s.nodes.Hung next) (c : Command) :
    (g.obey s c).Meets next (fun o _ => ∀ s', o = some s' → s.Alters s') fun _ => True := by
  cases c with
  | execute x =>
    refine (State.grafts_step h g.signature g.settings.maxRepeat x).imp
      (fun o _ _ ho s' hs' => ?_) fun _ => id
    obtain ⟨t, u, -, hg, -⟩ := ho s' hs'
    exact hg.alters
  | detach x => exact s.alters_detach x next
  | moveToBoard x => exact .of_ends (s.alters_moveToBoard x)
  | moveToDefs x => exact s.alters_moveToDefs g.signature x next
  | moveToSlot x hole => exact .of_ends (s.alters_moveToSlot g.signature x hole)
  | cleanup =>
    exact .liftFault (fun o ho s' hs' => (s.alters_cleanup.of_ok ho s' hs').1) fun _ _ => trivial
  | detectCompletion =>
    exact .liftFault (fun o ho s' hs' => ((s.alters_detectCompletion g.signature).of_ok ho s' hs').1)
      fun _ _ => trivial
  | raiseError why => exact .throw trivial
  | startLevel _ => exact .pure (by rintro _ ⟨⟩)
  | undo => exact .pure (by rintro _ ⟨⟩)
  | redo => exact .pure (by rintro _ ⟨⟩)
  | clearError => exact .pure (by rintro _ ⟨⟩)

/-- The second phase of a step gives no new state but one that is another. -/
theorem alters_commit (g : Game) {s : Snapshot State} (h : s.state.nodes.Linked) {p : BegunStep}
    (hp : p.base.stamp = s.stamp → (Move.commit p).Follows g s next) :
    (g.commit s p).Meets next (fun o _ => ∀ s', o = some s' → s.state.Alters s') fun _ => True := by
  unfold Game.commit
  split
  case isFalse => exact .throw trivial
  next hstamp =>
  obtain ⟨lo, hi, hlt, hbegin, hhi⟩ := hp hstamp
  obtain ⟨hbase, -, hbegin⟩ := of_begin hbegin
  have hhung := h.hung hlt
  obtain ⟨hle, hadds, -⟩ := (State.addsRoot_begin hhung g.signature _ p.target).of_ok hbegin
  rw [hbase]
  refine (State.grafts_complete hhung g.signature hadds hle hhi).imp (fun o _ _ ho s' hs' => ?_)
    fun _ => id
  obtain ⟨t, u, -, hg, -⟩ := ho s' hs'
  exact hg.alters

/-- A move gives no new state but one that is another. -/
theorem alters_change (g : Game) {s : Snapshot State} (h : s.state.WellFormed next)
    (hm : ∀ p, m = .commit p → p.base.stamp = s.stamp → m.Follows g s next) {s' : State}
    (hrun : (g.dynamics.change s m).runFrom next = (.ok (some s'), next')) : s.state.Alters s' := by
  have hlinked := h.kept.linked
  cases m with
  | command c => exact ((g.alters_obey (hlinked.hung h.kept.lt) c).of_ok hrun).2 s' rfl
  | commit p =>
    exact ((Meets.liftSupply (E := fun _ => True) ((g.alters_commit hlinked (hm p rfl)).imp
      (fun _ _ _ ho => ho) fun _ _ => trivial)).of_ok hrun).2 s' rfl

/-- A command that settles changes nothing when it is carried out once more. -/
theorem obey_again (g : Game) (h : s.Kept next) (hc : c.Settles)
    (hrun : (g.obey s c).runFrom next = (.ok o, next')) (later : NodeId) :
    (g.obey (o.getD s) c).runFrom later = (.ok none, later) := by
  cases c <;> try exact hc.elim
  case cleanup =>
    have hok : s.cleanup = .ok o := eq_ok_of_runFrom_liftFault hrun
    have hagain : (o.getD s).cleanup = .ok none := by
      cases o with
      | none => exact hok
      | some s' => exact h.cleanup_again hok
    exact congrArg (Supply.runFrom · later) (Supply.liftM_fault_ok hagain)
  case detectCompletion =>
    have hok : s.detectCompletion g.signature = .ok o := eq_ok_of_runFrom_liftFault hrun
    have hagain : (o.getD s).detectCompletion g.signature = .ok none := by
      cases o with
      | none => exact hok
      | some s' =>
        exact State.detectCompletion_of_ne _
          ((s.alters_detectCompletion g.signature).of_ok hok s' rfl).2
    exact congrArg (Supply.runFrom · later) (Supply.liftM_fault_ok hagain)
  case moveToBoard id =>
    have hok : s.moveToBoard id = .ok o := eq_ok_of_runFrom_liftM hrun
    exact congrArg (Supply.runFrom · later) (Supply.liftM_ok
      (State.moveToBoard_of_mem ((s.ends_moveToBoard_mem id).of_ok hok)))

end Game

/-! ### Sessions -/

namespace Session

/-- A move of a session leads to another state or to none, and nothing is recorded for a change that is
none. -/
structure RecordsExactly (s : Session State Move) (m : Move) : Prop where
  /-- A move that succeeds gives no new state exactly if the state that comes of it is the same by
  value. -/
  same_iff : ∀ o next, (s.dynamics.change s.timeline.present m).runFrom s.next = (.ok o, next) →
    (o = none ↔ (o.getD s.present).sameContent s.present = true)
  /-- The timeline stays, but for the error that it remembers, exactly if its state stays by value. -/
  timeline_iff : (s.perform m).1.present.sameContent s.present = true ↔
    ∃ error, (s.perform m).1.timeline = { s.timeline with error }
  again : ∀ c, m = .command c → c.Settles → ∀ o next,
    (s.dynamics.change s.timeline.present m).runFrom s.next = (.ok o, next) →
    ∀ t : Snapshot State, t.state = o.getD s.present →
      (s.dynamics.change t m).runFrom next = (.ok none, next)

/-- A new state is the present one after a move. -/
theorem present_perform {s : Session State Move} {m : Move} (h : s.dynamics.steering? m = none)
    {s' : State} {next : NodeId}
    (hrun : (s.dynamics.change s.timeline.present m).runFrom s.next = (.ok (some s'), next)) :
    (s.perform m).1.present = s' := by
  rw [perform_eq h, hrun]
  dsimp only [present]
  split <;> rfl

end Session

/-- In a well-formed state a move that is not left to the timeline, with whatever ids, is recorded exactly
if it changes something. A step that is put in place was begun on the state, or has another base. -/
theorem State.WellFormed.recordsExactly {s : Session State Move} (g : Game)
    (hg : s.dynamics = g.dynamics) (h : s.present.WellFormed s.next) {m : Move}
    (hsteer : s.dynamics.steering? m = none)
    (hm : ∀ p, m = .commit p → p.base.stamp = s.timeline.present.stamp →
      m.Follows g s.timeline.present s.next) : s.RecordsExactly m := by
  have halters : ∀ {s' next'}, (s.dynamics.change s.timeline.present m).runFrom s.next =
      (.ok (some s'), next') → s'.sameContent s.present = false := fun hrun =>
    g.alters_change h hm (hg ▸ hrun)
  constructor
  case same_iff =>
    rintro (_ | s') next' hrun
    · exact iff_of_true rfl s.present.sameContent_self
    · rw [Option.getD_some, halters hrun]
      simp
  case timeline_iff =>
    have hself := s.present.sameContent_self
    rcases hrun : (s.dynamics.change s.timeline.present m).runFrom s.next with
      ⟨(why | fault) | (_ | s'), next'⟩
    case ok.some =>
      have hpresent := Session.present_perform hsteer hrun
      have hne := halters hrun
      refine iff_of_false (by rw [hpresent, hne]; simp) ?_
      rintro ⟨error, ht⟩
      have hstate := congrArg (fun t : Timeline State => t.present.state) ht
      have hs' : s' = s.present := hpresent.symm.trans hstate
      rw [hs', hself] at hne
      cases hne
    all_goals
      rw [Session.perform_eq hsteer, hrun]
      exact iff_of_true hself ⟨_, rfl⟩
  case again =>
    rintro c rfl hc o next' hrun t ht
    rw [hg] at hrun ⊢
    have hobey : (g.obey s.present c).runFrom s.next = (.ok o, next') := hrun
    show (g.obey t.state c).runFrom next' = _
    rw [ht]
    exact g.obey_again h.kept hc hobey next'

/-- A negation that has been begun is put in place. -/
theorem recordsExactly_negating : Play.negating.present.WellFormed 4 ∧
    ∃ step, ((⟨⟨[]⟩, {}, .standard⟩ : Game).begin Play.negating.timeline.present 1).runFrom 3 =
        (.ok step, 4) ∧
      { Play.negating with next := 4 }.RecordsExactly (.commit step) := by
  have hkept : Play.negating.present.Kept 3 := Play.kept_negation
  have hwell : Play.negating.present.WellFormed 4 := (hkept.mono (Nat.le_succ 3)).wellFormed (by decide)
  refine ⟨hwell, ?_⟩
  have hnext : (((⟨⟨[]⟩, {}, .standard⟩ : Game).begin Play.negating.timeline.present 1).runFrom 3).2 =
      4 := by decide +kernel
  have hok : (((⟨⟨[]⟩, {}, .standard⟩ : Game).begin Play.negating.timeline.present 1).runFrom
      3).1.toOption.isSome = true := by decide +kernel
  obtain ⟨step, hstep⟩ := Option.isSome_iff_exists.1 hok
  have hbegin : ((⟨⟨[]⟩, {}, .standard⟩ : Game).begin Play.negating.timeline.present 1).runFrom 3 =
      (.ok step, 4) := Prod.ext (toOption_eq_some_iff.1 hstep) hnext
  obtain ⟨-, htarget, -⟩ := Game.of_begin hbegin
  refine ⟨step, hbegin, State.WellFormed.recordsExactly ⟨⟨[]⟩, {}, .standard⟩ rfl hwell rfl ?_⟩
  rintro _ ⟨⟩ -
  exact ⟨3, 4, hkept.lt, htarget.symm ▸ hbegin, Nat.le_refl 4⟩

end TermForest
