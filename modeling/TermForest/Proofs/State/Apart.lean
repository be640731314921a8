import TermForest.Proofs.Forest.Share
import TermForest.Proofs.State.Rename
import TermForest.Proofs.State.Step

/-!
# Steps apart

A graft touches nothing that is apart from the exchanged plant: it is still held, and what is ready
there is still ready. So a step there does after the graft what it would have done before, but for the
ids that it hands out.
-/

namespace TermForest

open Supply (Meets)

namespace Forest

variable {F : Forest} {x r : NodeId}

theorem RootOf.exists_get? (h : F.RootOf x r) : ∃ n, F.get? x = some n := by
  obtain ⟨-, k, hk⟩ := h
  exact hk.exists_start

/-- The ids of a plant are those from which its root is reached. -/
theorem Linked.mem_ids_iff {t : Plant} (h : F.Linked) (ht : F.Holds t) (y : NodeId) :
    y ∈ t.ids ↔ ∃ j, F.Ascends y j t.id := by
  obtain ⟨u, hroot, hu, -, -, hids⟩ := h.exists_plant ht.get?_id
  obtain rfl := hu.unique ht (congrArg Node.id hroot)
  exact hids y

/-- All nodes of a plant have the root of the plant. -/
theorem Linked.rootOf_of_mem_ids {t : Plant} (h : F.Linked) (ht : F.Holds t) (hx : x ∈ t.ids)
    (hroot : F.RootOf t.id r) : F.RootOf x r := by
  obtain ⟨j, hj⟩ := (h.mem_ids_iff ht x).1 hx
  exact hroot.of_ascends hj

/-- A redex lies in the tree of the term it was looked for in. -/
theorem Linked.rootOf_redex (h : F.Linked) {S : Signature} {target redex root : NodeId}
    (hroot : F.RootOf target root) (hr : S.redex F target = .ok (some redex)) :
    F.RootOf redex root := by
  obtain ⟨n, hn⟩ := hroot.exists_get?
  obtain ⟨t, rfl, ht, -, hnodup, -⟩ := h.exists_plant hn
  obtain rfl := id_of_get? hn
  obtain ⟨v, hv, rfl, -⟩ := (ht.tree_shows hnodup).redex_mem hr
  exact h.rootOf_of_mem_ids ht (Plant.mem_ids_iff.2 ⟨v, hv, rfl⟩) hroot

end Forest

/-- Nothing below a node on the board is locked. -/
theorem State.Kept.unlocked {s : State} {next : Nat} (h : s.Kept next) {t : Plant}
    (ht : s.nodes.Holds t) {root : NodeId} (hboard : root ∈ s.board)
    (hroot : s.nodes.RootOf t.id root) : ∀ n ∈ t.nodes, n.locked = false := by
  intro n hn
  have hiff := h.locked_iff n.id n root (ht.get?_of_mem_nodes hn)
    (h.linked.rootOf_of_mem_ids ht (Plant.mem_ids_iff_nodes.2 ⟨n, hn, rfl⟩) hroot)
  simpa using mt hiff.1 (h.board_notMem_defs hboard)

/-! ### What a graft leaves alone -/

namespace State.Grafts

variable {s s' : State} {t u p : Plant} {next : Nat} {root : NodeId}

theorem holds_apart (h : s.Grafts t u s') (hs : s.nodes.Linked) (hp : s.nodes.Holds p)
    (hd : ∀ x ∈ t.ids, x ∉ p.ids) : s'.nodes.Holds p := by
  refine hp.congr fun x hx => h.others x (fun ht => hd x ht hx) (fun hu => h.notMem_old hp hu hx)
    fun hparent => ?_
  -- what holds the old plant would have it below
  obtain ⟨j, hj⟩ := (hs.mem_ids_iff hp x).1 hx
  exact hd _ t.id_mem_ids ((hs.mem_ids_iff hp _).2 ⟨_, .up h.old.get?_id hparent hj⟩)

variable (h : s.Grafts t u s') (hs : s.Kept next)
include h hs

theorem shares_apart (hp : s.nodes.Holds p) (hd : ∀ x ∈ t.ids, x ∉ p.ids) {x : NodeId}
    (hx : x ∈ p.ids) : s.nodes.Shares s'.nodes x :=
  .of_mem hp (h.holds_apart hs.linked hp hd) ((hs.linked.hung hs.lt).nodup_ids hp) hx

/-- A graft on the board leaves the definitions alone. -/
theorem sharesDefs (hboard : root ∈ s.board) (hroot : s.nodes.RootOf t.id root) :
    s.SharesDefs s' := by
  have hdefs : ∀ d ∈ s.defs, s.nodes.Shares s'.nodes d := by
    intro d hd
    obtain ⟨n, hn, -⟩ := hs.defines d hd
    obtain ⟨p, rfl, hp, -⟩ := hs.linked.exists_plant hn
    obtain rfl := Forest.id_of_get? hn
    refine h.shares_apart hs hp (fun x hx hxp => ?_) p.id_mem_ids
    -- a node of both trees would have two roots
    have he := (hs.linked.rootOf_of_mem_ids h.old hx hroot).unique
      (hs.linked.rootOf_of_mem_ids hp hxp (Forest.Kept.rootOf_self hs (hs.defs_subset hd)))
    exact hs.board_notMem_defs hboard (he ▸ hd)
  refine ⟨fun name => ?_, fun name d hd => hdefs _ (mem_defs_of_definition? hd).1⟩
  rw [definition?, definition?, h.rest.2.1]
  exact congrArg _ (List.filterMap_congr fun d hd => (hdefs d hd).get?_eq)

/-- A node outside the exchanged plants keeps its root, on the board or not. -/
theorem rootOf_of_notMem {x r : NodeId} (hx : x ∉ t.ids) (hr : s.nodes.RootOf x r) :
    s'.nodes.RootOf x r ∧ (r ∈ s'.board ↔ r ∈ s.board) := by
  have hout : ∀ y, (∃ j, s.nodes.Ascends x j y) → y ∉ t.ids := by
    rintro y ⟨i, hi⟩ hy
    obtain ⟨j, hj⟩ := (hs.linked.mem_ids_iff h.old y).1 hy
    exact hx ((hs.linked.mem_ids_iff h.old _).2 ⟨_, hi.trans hj⟩)
  refine ⟨hr.of_parents fun y n hy hn => ?_, ?_⟩
  · obtain ⟨m, hm, hparent, -⟩ := h.exists_get? hn (hout y hy)
    exact ⟨m, hm, hparent⟩
  · have hrt : r ≠ t.id := fun e => hout r hr.2 (e ▸ t.id_mem_ids)
    have hru : r ≠ u.id := fun e => by
      obtain ⟨n, hn, -⟩ := hr.1
      exact h.notMem_new hn (e ▸ u.id_mem_ids)
    rw [h.board]
    split
    · rw [List.mem_map]
      grind
    · rfl

/-- The new plant stands on the board if the old one does. -/
theorem exists_rootOf_new (hboard : root ∈ s.board) (hroot : s.nodes.RootOf t.id root) :
    ∃ r ∈ s'.board, s'.nodes.RootOf u.id r := by
  cases hparent : t.root.parent with
  | none =>
    obtain rfl := hroot.unique ⟨⟨t.root, h.old.get?_id, hparent⟩, 0, .refl h.old.get?_id⟩
    refine ⟨u.id, ?_, ⟨⟨u.root, h.new.get?_id, h.parent.trans hparent⟩, 0, .refl h.new.get?_id⟩⟩
    rw [h.board, if_pos hparent]
    exact List.mem_map.2 ⟨t.id, hboard, if_pos rfl⟩
  | some p =>
    obtain ⟨slot, n, -, hp, hn, -⟩ := h.holder p hparent
    obtain ⟨r, -, hr⟩ := Forest.Kept.exists_rootOf hs hn
    obtain rfl := hroot.unique (hr.up h.old.get?_id hparent)
    obtain ⟨hr', hmem⟩ := h.rootOf_of_notMem hs hp hr
    exact ⟨root, hmem.2 hboard, hr'.up h.new.get?_id (h.parent.trans hparent)⟩

/-- The tree of a node apart from the exchanged plants keeps its root, on the board or not. -/
theorem exists_rootOf_apart (hp : s.nodes.Holds p) (hd : ∀ x ∈ t.ids, x ∉ p.ids) :
    ∃ r, s.nodes.rootOf p.id = .ok r ∧ s'.nodes.rootOf p.id = .ok r ∧
      (r ∈ s'.board ↔ r ∈ s.board) := by
  obtain ⟨r, -, hr, hrootOf⟩ := Forest.Kept.rootOf_eq hs hp.get?_id
  obtain ⟨hr', hmem⟩ := h.rootOf_of_notMem hs (fun hx => hd _ hx p.id_mem_ids) hr
  exact ⟨r, hrootOf, hr'.rootOf_eq, hmem⟩

/-- What is ready below a node apart from the exchanged plants is ready after a graft, and what is not
is not, for the same reason. -/
theorem ready_eq (hboard : root ∈ s.board) (hroot : s.nodes.RootOf t.id root)
    (hp : s.nodes.Holds p) (hd : ∀ x ∈ t.ids, x ∉ p.ids) (S : Signature) :
    s'.ready S p.id = s.ready S p.id := by
  have hshares := fun {x} => h.shares_apart hs hp hd (x := x)
  obtain ⟨r, hr, hr', hmem⟩ := h.exists_rootOf_apart hs hp hd
  have hshows := hp.tree_shows ((hs.linked.hung hs.lt).nodup_ids hp)
  unfold ready
  rw [(hshares p.id_mem_ids).find_eq, hr, hr', (hshares p.id_mem_ids).redex_eq]
  refine bind_congr_ok fun n _ => ?_
  show (if r ∉ s'.board then _ else _) = if r ∉ s.board then _ else _
  simp only [hmem]
  split
  · rfl
  split
  · rfl
  refine bind_congr_ok fun o ho => ?_
  cases o with
  | none => rfl
  | some redex =>
    obtain ⟨v, hv, rfl, -⟩ := hshows.redex_mem (liftM_eq_ok_iff.1 ho)
    have hx := hshares (Plant.mem_ids_iff.2 ⟨v, hv, rfl⟩)
    dsimp only
    rw [hx.find_eq]
    refine bind_congr_ok fun m hm => bind_congr_ok fun _ _ => ?_
    rw [liftM_eq_ok_iff, Forest.find_eq_ok_iff] at hm
    have hid := Forest.id_of_get? hm
    rw [(h.sharesDefs hs hboard hroot).check_eq (hid ▸ hx) (hid ▸ hm)]

end State.Grafts

/-! ### Mirrors of what is shared -/

namespace Mirror

variable {F G : Forest} {lo hi : Nat} {x : NodeId} {n : Node}

/-- The comparison of a run on a forest with one on a later forest that shares some nodes. -/
def sharing (F G : Forest) (lo hi : Nat) (le : lo ≤ hi) : Mirror where
  lo
  hi
  le
  seen x := lo ≤ (x : Nat) ∨ F.Shares G x
  seen_of_le _ := .inl
  strict := False
  seen_of_strict := False.elim

variable {le : lo ≤ hi}

theorem nodes_sharing (hF : F.Hung lo) (hx : F.Shares G x) (hn : F.get? x = some n) :
    (sharing F G lo hi le).Nodes n n := by
  obtain rfl := Forest.id_of_get? hn
  exact ⟨(hF.mapIds_eq hn fun _ hy => image_of_lt (M := sharing F G lo hi le) hy).symm, .inr hx,
    fun _ hc => .inr (hx.child hn hc)⟩

theorem reflects_sharing (hF : F.Hung lo) (hG : G.Hung hi) :
    (sharing F G lo hi le).Reflects F G where
  get? x hx := by
    rcases hx with hx | hx
    · have himage : hi ≤ (sharing F G lo hi le).image x := by
        obtain ⟨k, rfl⟩ : ∃ k, x = lo + k := ⟨x - lo, by simp only [NodeId] at *; lia⟩
        exact Nat.le_trans (Nat.le_add_right hi k)
          (Nat.le_of_eq (image_add (M := sharing F G lo hi le) k).symm)
      rw [hF.get?_eq_none hx, hG.get?_eq_none himage]
      rfl
    · obtain ⟨t, rfl, hFt, -⟩ := id hx
      rw [image_of_lt (M := sharing F G lo hi le) (hF.lt _ _ hFt.get?_id), hx.get?_eq, hFt.get?_id]
      exact congrArg some (nodes_sharing hF hx hFt.get?_id).1
  closed x n hx hn c hc := by
    rcases hx with hx | hx
    · rw [hF.get?_eq_none hx] at hn
      cases hn
    · exact .inr (hx.child hn hc)
  onto := False.elim

theorem states_sharing {s s' : State} (hs : s.nodes.Hung lo) (hs' : s'.nodes.Hung hi)
    (h : s.SharesDefs s') : (sharing s.nodes s'.nodes lo hi le).States s s' where
  nodes := reflects_sharing hs hs'
  definition? := h.definition?
  defined name d hd :=
    nodes_sharing hs (h.shares name d hd) (State.mem_defs_of_definition? hd).2

end Mirror

/-! ### Steps -/

/-- A call that can be finished on some forest can be finished on any forest that it fits. -/
theorem Signature.exists_finish {S : Signature} {F G : Forest} {lo : Nat} {next next' : NodeId}
    {e : Effect} {w : Replacement} (hF : F.Stocked lo) (he : e.Fits F)
    (h : (S.finish G e).outcome next = .ok (w, next')) :
    (S.finish F e).Meets lo
      (fun w hi => ∃ u : Plant, w.root = u.id ∧ F.Sprouts w.forest lo hi u) fun _ => False := by
  refine (meets_finish hF he).imp (fun _ _ _ hw => hw) fun _ hnone => hnone ?_
  unfold finish at h
  cases hp : S.builtin? e.builtin.name with
  | none =>
    rw [hp] at h
    cases h
  | some p =>
    rw [hp] at h
    dsimp only at h
    split at h
    · next hphase => exact ⟨p, rfl, hphase⟩
    · cases h

/-- Computations that end in no faults agree strictly when they agree at all. -/
theorem Agree.strictly {strict : Prop} {ε α β : Type} [Faulty ε] {Q : α → β → Prop}
    {x : Except ε α} {y : Except ε β} (h : Agree strict Q x y)
    (hx : ∀ e, x = .error e → ¬Faulty.fatal e) (hy : ∀ e, y = .error e → ¬Faulty.fatal e) :
    Agree True Q x y := by
  cases h with
  | ok h => exact .ok h
  | refused he => exact .refused he
  | fatal he he' => exact .fatal he he'
  | left _ he => exact absurd he (hx _ rfl)
  | right _ he => exact absurd he (hy _ rfl)

namespace State

variable {s s' t : State} {S : Signature} {most : Int64} {target : NodeId} {lo hi : Nat}

theorem outcome_complete_ready (s : State) (S : Signature) (redex : NodeId) (w : Replacement)
    (next : NodeId) : (s.complete S (.ready redex w)).outcome next =
      (s.graft redex w).map fun t => (some t, next) := by
  rw [complete, Supply.outcome_bind, Supply.outcome_lift]
  cases s.graft redex w <;> rfl

theorem outcome_complete_deferred (s : State) (S : Signature) (redex : NodeId) (e : Effect)
    (next : NodeId) : (s.complete S (.deferred redex e)).outcome next =
      (S.finish s.nodes e).outcome next >>= fun o =>
        (s.graft redex o.1).map fun t => (some t, o.2) := by
  rw [complete, Supply.outcome_bind]
  refine congrArg _ (funext fun o => ?_)
  rw [Supply.outcome_bind, Supply.outcome_lift]
  cases s.graft redex o.1 <;> rfl

theorem map_eq_ok_iff {ε α β : Type} {x : Except ε α} {f : α → β} {b : β} :
    x.map f = .ok b ↔ ∃ a, x = .ok a ∧ f a = b := by
  cases x <;> simp [Except.map]

/-- The first phase of a step ends in no fault once it has found what is ready. -/
theorem Kept.refuses_begin (h : s.Kept lo) {o : Option Node} (ho : s.ready S target = .ok o)
    {e : Failure} (he : (s.begin S most target).outcome lo = .error e) : ¬Faulty.fatal e := by
  have hmeets : (s.begin S most target).Meets lo (fun _ _ => True) Failure.IsRefusal := by
    rw [begin_eq, Supply.liftM_ok ho, pure_bind]
    cases o with
    | none => exact .pure trivial
    | some r =>
      obtain ⟨hr, hredex, hcheck, -⟩ := of_ready ho
      refine ((meets_reduce h.stocked hr (Signature.expression_of_redex hredex hr) most hcheck).imp
        (fun _ _ _ ho => ho) fun _ he => he.blames.isRefusal).bind fun _ _ _ _ => .pure trivial
  obtain ⟨_, he⟩ := Supply.outcome_eq_error_iff.1 he
  obtain ⟨-, why, rfl⟩ := hmeets.of_error he
  rintro ⟨fault, hfault, -⟩
  cases hfault

/-- What a step at a target reads in a state is undisturbed in a later state. -/
structure Undisturbed (S : Signature) (target : NodeId) (lo hi : Nat) (s s' : State) : Prop where
  le : lo ≤ hi
  kept : s.Kept lo
  later : s'.Kept hi
  defs : s.SharesDefs s'
  ready : s'.ready S target = s.ready S target
  shares : ∀ r, s.ready S target = .ok (some r) → s.nodes.Shares s'.nodes r.id

/-- A graft on the board leaves what is apart from the exchanged plants undisturbed. -/
theorem Grafts.undisturbed {u v p : Plant} {root : NodeId} (h : s.Grafts u v s') (hs : s.Kept lo)
    (hs' : s'.Kept hi) (hle : lo ≤ hi) (hboard : root ∈ s.board) (hroot : s.nodes.RootOf u.id root)
    (hp : s.nodes.Holds p) (hd : ∀ x ∈ u.ids, x ∉ p.ids) (S : Signature) :
    Undisturbed S p.id lo hi s s' where
  le := hle
  kept := hs
  later := hs'
  defs := h.sharesDefs hs hboard hroot
  ready := h.ready_eq hs hboard hroot hp hd S
  shares r hr := by
    obtain ⟨w, hw, hid, -⟩ := (hp.tree_shows ((hs.linked.hung hs.lt).nodup_ids hp)).redex_mem
      (of_ready hr).2.1
    exact h.shares_apart hs hp hd (hid ▸ Plant.mem_ids_iff.2 ⟨w, hw, rfl⟩)

namespace Undisturbed

variable (h : Undisturbed S target lo hi s s')
include h

/-- The comparison of the steps at the target. -/
def mirror : Mirror := .sharing s.nodes s'.nodes lo hi h.le

theorem states : h.mirror.States s s' :=
  Mirror.states_sharing (h.kept.linked.hung h.kept.lt) (h.later.linked.hung h.later.lt) h.defs

theorem agree_begin (most : Int64) {o : Option Node} (ho : s.ready S target = .ok o) :
    Agree True (fun a a' => h.mirror.Plans a.1 a'.1 ∧ ∃ j, a.2 = lo + j ∧ a'.2 = hi + j)
      ((s.begin S most target).outcome lo) ((s'.begin S most target).outcome hi) := by
  have ho' := h.ready.trans ho
  have hagree := h.states.begin S most ho ho' (fun r hr => Mirror.nodes_sharing
    (h.kept.linked.hung h.kept.lt) (h.shares r (hr ▸ ho)) (of_ready (hr ▸ ho)).1) 0
  exact hagree.strictly (fun _ => h.kept.refuses_begin ho) fun _ => h.later.refuses_begin ho'

/-- What is refused is refused later. -/
theorem step_rejected {why : Rejection}
    (he : (s.step S most target).outcome lo = .error (.rejected why)) :
    (s'.step S most target).outcome hi = .error (.rejected why) := by
  rw [step, Supply.outcome_bind] at he ⊢
  obtain he | ⟨⟨p, mid⟩, hp, he⟩ := bind_eq_error_iff.1 he
  · cases ho : s.ready S target with
    | error e =>
      have ho' := h.ready.trans ho
      rw [begin_eq, ho] at he
      rw [begin_eq, ho']
      obtain rfl : e = .rejected why := Except.error.inj he
      rfl
    | ok o =>
      have hagree := h.agree_begin most ho
      rw [he] at hagree
      generalize (s'.begin S most target).outcome hi = y at hagree ⊢
      cases hagree with
      | refused => rfl
      | fatal hfatal =>
        obtain ⟨fault, hfault, -⟩ := hfatal
        cases hfault
      | left hs => exact absurd trivial hs
      | right hs => exact absurd trivial hs
  · rw [Supply.outcome_liftM] at he
    cases hcomplete : (s.complete S p).outcome mid with
    | error e =>
      rw [hcomplete] at he
      cases he
    | ok o =>
      rw [hcomplete] at he
      cases he

/-- A plan that is made comes back later, for mirrored replacements. -/
theorem exists_begin {p : Plan} {mid : NodeId}
    (hp : (s.begin S most target).outcome lo = .ok (p, mid)) :
    ∃ p' j, mid = lo + j ∧ (s'.begin S most target).outcome hi = .ok (p', hi + j) ∧
      h.mirror.Plans p p' := by
  obtain ⟨o, ho, -⟩ := exists_ready (Supply.outcome_eq_ok_iff.1 hp)
  have hagree := h.agree_begin most ho
  rw [hp] at hagree
  obtain ⟨⟨p', _⟩, hrun, hplans, j, rfl, rfl⟩ := hagree.exists_ok (.inl trivial)
  exact ⟨p', j, rfl, hrun, hplans⟩

/-- Where nothing is reduced nothing is reduced later. -/
theorem step_nothing {next : NodeId}
    (hn : (s.step S most target).outcome lo = .ok (none, next)) :
    ∃ next', (s'.step S most target).outcome hi = .ok (none, next') := by
  rw [step, Supply.outcome_bind, bind_eq_ok_iff] at hn
  obtain ⟨⟨p, mid⟩, hp, hn⟩ := hn
  rw [Supply.outcome_liftM, liftM_eq_ok_iff] at hn
  obtain ⟨p', j, rfl, hp', hplans⟩ := h.exists_begin hp
  refine ⟨hi + j, ?_⟩
  rw [step, Supply.outcome_bind, hp']
  cases hplans with
  | nothing => rfl
  | ready =>
    obtain ⟨_, -, hn⟩ := map_eq_ok_iff.1 ((outcome_complete_ready ..).symm.trans hn)
    cases hn
  | deferred =>
    obtain ⟨_, -, hn⟩ := bind_eq_ok_iff.1 ((outcome_complete_deferred ..).symm.trans hn)
    obtain ⟨_, -, hn⟩ := map_eq_ok_iff.1 hn
    cases hn

/-- Mirrored replacements are grafted on both states in the place of one plant. -/
theorem grafts_both {redex : NodeId} {w w' : Replacement} {t' : State} {mid next mid' next' : Nat}
    (hx : s.nodes.Shares s'.nodes redex) (hw : h.mirror.Replacements w w')
    (hadds : s.nodes.AddsRoot w.forest mid next w.root)
    (hadds' : s'.nodes.AddsRoot w'.forest mid' next' w'.root) (hmid : lo ≤ mid) (hmid' : hi ≤ mid')
    (hg : s.graft redex w = .ok t) (hg' : s'.graft redex w' = .ok t') :
    ∃ u v : Plant, u.id = redex ∧ s.Grafts u v t ∧ s'.Grafts u (v.mapIds h.mirror.image) t' ∧
      ∀ x : Nat, x ∈ v.ids → mid ≤ x ∧ x < next := by
  have hs := h.kept.linked.hung h.kept.lt
  have hs' := h.later.linked.hung h.later.lt
  obtain ⟨u, v, rfl, hid, hv, hgrafts, hids⟩ := grafts_of_graft (hs.mono hmid) hadds hg
  obtain ⟨u', v', hu', hid', hv', hgrafts', -⟩ := grafts_of_graft (hs'.mono hmid') hadds' hg'
  obtain ⟨p, hp, hsp, hsp', -⟩ := hx
  obtain rfl := hsp.unique hgrafts.old hp
  obtain rfl := hsp'.unique hgrafts'.old hu'.symm
  have himage := hw.1.holds hv fun x hx => h.mirror.seen_of_le x
    (Nat.le_trans hmid (hids x hx).1)
  obtain rfl := himage.unique hv' (by rw [Plant.id_mapIds, hid, hid', hw.2.1])
  refine ⟨p, v.inPlaceOf p.root, rfl, hgrafts, ?_, by rwa [Plant.ids_inPlaceOf]⟩
  rwa [Plant.mapIds_inPlaceOf fun q hq =>
    Mirror.image_of_lt (hs.parent_lt _ _ hgrafts.old.get?_id q hq)]

/-- A step that gives a state gives one later, with a mirrored plant in the place of the same one. -/
theorem exists_step {next : NodeId}
    (ht : (s.step S most target).outcome lo = .ok (some t, next)) :
    ∃ t' j r, next = lo + j ∧ (s'.step S most target).outcome hi = .ok (some t', hi + j) ∧
      s.ready S target = .ok (some r) ∧
      ∃ u v : Plant, u.id = r.id ∧ s.Grafts u v t ∧ s'.Grafts u (v.mapIds h.mirror.image) t' ∧
        ∀ x : Nat, x ∈ v.ids → lo ≤ x ∧ x < next := by
  rw [step, Supply.outcome_bind, bind_eq_ok_iff] at ht
  obtain ⟨⟨p, mid⟩, hp, ht⟩ := ht
  rw [Supply.outcome_liftM, liftM_eq_ok_iff] at ht
  obtain ⟨o, ho, hredex⟩ := exists_ready (Supply.outcome_eq_ok_iff.1 hp)
  obtain ⟨p', j, rfl, hp', hplans⟩ := h.exists_begin hp
  have hs := h.kept.linked.hung h.kept.lt
  have hs' := h.later.linked.hung h.later.lt
  obtain ⟨-, hadds, -⟩ := (addsRoot_begin hs S most target).of_ok (Supply.outcome_eq_ok_iff.1 hp)
  obtain ⟨-, hadds', -⟩ := (addsRoot_begin hs' S most target).of_ok (Supply.outcome_eq_ok_iff.1 hp')
  obtain ⟨-, hfits⟩ := (h.later.meets_begin S most target).of_ok (Supply.outcome_eq_ok_iff.1 hp')
  rw [step, Supply.outcome_bind, hp', ok_bind, Supply.outcome_liftM]
  cases hplans with
  | nothing => cases ht
  | @ready redex w w' _ hw =>
    obtain ⟨r, rfl, rfl⟩ := hredex redex rfl
    rw [outcome_complete_ready, map_eq_ok_iff] at ht
    obtain ⟨_, hg, ht⟩ := ht
    cases ht
    obtain ⟨⟨root, hboard, hroot⟩, lo', u', hkept, hle, hid, hsprouts⟩ := hfits
    obtain ⟨t', hg', -⟩ := hkept.exists_graft hle hroot hboard hid hsprouts
    obtain ⟨u, v, hu, hgrafts, hgrafts', hids⟩ := h.grafts_both (h.shares r ho) hw hadds hadds'
      (Nat.le_refl lo) (Nat.le_refl hi) hg hg'
    refine ⟨t', j, r, rfl, ?_, ho, u, v, hu, hgrafts, hgrafts', hids⟩
    rw [outcome_complete_ready, hg']
    rfl
  | @deferred redex e _ hnode hargs =>
    obtain ⟨r, rfl, rfl⟩ := hredex redex rfl
    rw [outcome_complete_deferred, bind_eq_ok_iff] at ht
    obtain ⟨⟨w, next⟩, hw, ht⟩ := ht
    obtain ⟨_, hg, ht⟩ := map_eq_ok_iff.1 ht
    cases ht
    obtain ⟨⟨root, hboard, hroot⟩, he⟩ := hfits
    have hj : hi ≤ hi + j := Nat.le_add_right ..
    have hlater := h.later.mono hj
    obtain ⟨w', next', hw', hle, u', hid, hsprouts⟩ :=
      (Signature.exists_finish hlater.stocked he hw).exists_ok
    obtain ⟨t', hg', -⟩ := hlater.exists_graft hle hroot hboard hid hsprouts
    have hrun := Supply.outcome_eq_ok_iff.2 hw'
    have hagree : Agree h.mirror.strict _ ((S.finish s.nodes e).outcome (lo + j))
        ((S.finish s'.nodes e).outcome (hi + j)) :=
      Mirror.takes_finish h.states.nodes S hnode hargs j
    rw [hw, hrun] at hagree
    obtain ⟨_, ⟨⟩, hmirror, k, rfl, rfl⟩ := hagree.exists_ok (.inr (by rintro _ ⟨⟩))
    have hlo : lo ≤ lo + j := Nat.le_add_right ..
    obtain ⟨-, hadds⟩ := (S.addsRoot_finish (hs.mono hlo) e).of_ok (Supply.outcome_eq_ok_iff.1 hw)
    obtain ⟨-, hadds'⟩ := (S.addsRoot_finish (hs'.mono hj) e).of_ok hw'
    obtain ⟨u, v, hu, hgrafts, hgrafts', hids⟩ := h.grafts_both (h.shares r ho) hmirror hadds hadds'
      hlo hj hg hg'
    refine ⟨t', k, r, rfl, ?_, ho, u, v, hu, hgrafts, hgrafts', fun x hx =>
      ⟨Nat.le_trans hlo (hids x hx).1, (hids x hx).2⟩⟩
    rw [outcome_complete_deferred, hrun, ok_bind, hg']
    rfl

end Undisturbed

end State

end TermForest
