import TermForest.Proofs.Evaluation.Rule
import TermForest.Proofs.State.Apart

/-!
# Steps and evaluation

A step on a tree without names and functions leaves a tree of the same value with fewer expressions, or
refuses one of its nodes for the reason for which the tree has no value. On a value it does nothing.
-/

namespace TermForest

open Supply (Meets)

/-! ### Trees after a graft -/

theorem Slots.children_set {s : Slots} {i : Nat} {name : String} (h : s.names[i]? = some name)
    (c : NodeId) : (s.set name c).children = s.children.set i c := by
  obtain ⟨e, he, rfl⟩ := Option.map_eq_some_iff.1 (List.getElem?_map .. ▸ h)
  rw [children, children, entries_set (List.mem_of_getElem? h), List.map_map]
  refine List.ext_getElem? fun j => ?_
  rw [List.getElem?_map, List.getElem?_set, List.getElem?_map, List.length_map]
  split
  · next hij =>
    subst hij
    rw [he, if_pos (List.getElem?_eq_some_iff.1 he).1]
    simp
  · next hij =>
    cases hj : s.entries[j]? with
    | none => rfl
    | some e' =>
      -- another entry has another name
      have hne : e'.1 ≠ e.1 := fun heq => by
        have hj' : s.names[j]? = some e.1 := by rw [names, List.getElem?_map, hj, ← heq]; rfl
        have hi := (List.getElem?_eq_some_iff.1 h).1
        exact hij ((List.getElem?_inj hi s.nodup_names).1 (h.trans hj'.symm))
      simp [hne]

theorem exists_getElem?_of_forall₂ {α β : Type} {R : α → β → Prop} {as : List α} {bs : List β}
    (h : List.Forall₂ R as bs) {i : Nat} {b : β} (hb : bs[i]? = some b) :
    ∃ a, as[i]? = some a ∧ R a b := by
  induction h generalizing i with
  | nil => cases hb
  | cons hab _ ih =>
    cases i with
    | zero =>
      cases hb
      exact ⟨_, rfl, hab⟩
    | succ i => exact ih hb

/-- Parts at other positions have none of the ids of a part. -/
theorem Plant.notMem_ids_of_nodup {before after : List Plant} {p q : Plant}
    (hn : ((before ++ p :: after).flatMap ids).Nodup) (hq : q ∈ before ++ after) :
    ∀ x ∈ p.ids, x ∉ q.ids := by
  have hperm : (before ++ p :: after).Perm (p :: (before ++ after)) := List.perm_middle
  rw [(hperm.flatMap_right ids).nodup_iff, List.flatMap_cons, List.nodup_append] at hn
  exact fun x hx hx' => hn.2.2 x hx x (List.mem_flatMap.2 ⟨q, hq, hx'⟩) rfl

theorem Plant.Calculates.inPlaceOf {t : Plant} (h : t.Calculates) (n : Node) :
    (t.inPlaceOf n).Calculates := by
  obtain ⟨root, parts⟩ := t
  obtain ⟨⟨hf, hk, hl⟩, hparts⟩ := calculates_mk_iff.1 h
  exact calculates_mk_iff.2 ⟨⟨hf.congr rfl rfl rfl, hk, hl⟩, hparts⟩

namespace State.Grafts

variable {s s' : State} {r u t : Plant}

/-- The node that holds the part with the old plant holds it after a graft, or the new one instead. -/
theorem exists_root (h : s.Grafts r u s') {root : Node} {before after : List Plant} {p : Plant}
    (hget : s.nodes.get? root.id = some root) (hp : s.nodes.Holds p) (hj : p.Joined)
    (hc : root.Carries (before ++ p :: after)) (hr : r ∈ p.subs) (hout : root.id ∉ p.ids) :
    ∃ root', s'.nodes.get? root.id = some root' ∧ root'.kind = root.kind ∧
      root'.fields = root.fields ∧ root'.locked = root.locked ∧
      root'.slots.names = root.slots.names ∧
      root'.slots.children =
        before.map Plant.id ++ (if p.id = r.id then u.id else p.id) :: after.map Plant.id := by
  by_cases hpr : p.id = r.id
  · obtain rfl := hp.unique h.old hpr
    obtain ⟨e, he, -, hparent, hslot⟩ :=
      exists_getElem?_of_forall₂ hc (i := before.length) (b := p) (by simp)
    obtain ⟨slot, m, hslot', -, hm, hm'⟩ := h.holder _ hparent
    obtain rfl := Option.some.inj (hm.symm.trans hget)
    obtain rfl := Option.some.inj (hslot'.symm.trans hslot)
    have hname : m.slots.names[before.length]? = some e.1 := by
      rw [Slots.names, List.getElem?_map, he]
      rfl
    refine ⟨_, hm', rfl, rfl, rfl, Slots.names_set (List.mem_of_getElem? hname) _, ?_⟩
    rw [if_pos hpr]
    exact (Slots.children_set hname u.id).trans (by rw [hc.children]; simp)
  · obtain rfl | ⟨w, hw, hrw⟩ := Plant.eq_or_mem_parts hr
    · exact absurd rfl hpr
    obtain ⟨-, -, hparent, -⟩ := (hj w hw).exists_entry hrw
    have hother := h.others root.id (fun hx => hout (Plant.ids_subset_of_mem_subs hr hx))
      (h.notMem_new hget) (fun hx => hout ?_)
    · refine ⟨root, hother.trans hget, rfl, rfl, rfl, rfl, ?_⟩
      rw [if_neg hpr, hc.children]
      simp
    · rw [hparent, Option.some.injEq] at hx
      exact hx ▸ Plant.mem_ids_iff.2 ⟨w, hw, rfl⟩

/-- Where the old plant was what evaluation comes to first, the new one now is. -/
theorem exists_differs (h : s.Grafts r u s') (hs : s.nodes.Linked) (hin : r.RedexIn t)
    (ht : s.nodes.Holds t) (hj : t.Joined) (hn : t.ids.Nodup) (hc : t.Calculates)
    (hu : u.Calculates) :
    ∃ t' : Plant, s'.nodes.Holds t' ∧ t'.Calculates ∧ t'.id = (if t.id = r.id then u.id else t.id) ∧
      Shape.Differs r.shape u.shape t.shape t'.shape := by
  induction hin with
  | here => exact ⟨u, h.new, hu, (if_pos rfl).symm, .here⟩
  | @inside root before after p values first part ih =>
    obtain ⟨⟨hformed, hkind, hunlocked⟩, hcalc⟩ := Plant.calculates_mk_iff.1 hc
    obtain ⟨hcarries, hjoined⟩ := Plant.joined_mk_iff.1 hj
    obtain ⟨hget, -, hheld⟩ := Forest.holds_mk_iff.1 ht
    have hp : p ∈ before ++ p :: after := by simp
    have hout : root.id ∉ p.ids := ht.id_notMem_parts hp
    have hnodup : p.ids.Nodup := Plant.nodup_ids_of_mem_subs hn (Plant.mem_subs_of_mem_parts hp)
    obtain ⟨p', hp', hcalc', hid, hdiffers⟩ := ih (hheld p hp) (hjoined p hp) hnodup (hcalc p hp)
    obtain ⟨root', hget', hk, hf, hl, hnames, hchildren⟩ :=
      h.exists_root hget (hheld p hp) (hjoined p hp) hcarries part.mem_subs hout
    have hid' : root'.id = root.id := Forest.id_of_get? hget'
    rw [Plant.ids_mk, List.nodup_append] at hn
    have hside : ∀ q ∈ before ++ after, s'.nodes.Holds q ∧ q.Calculates := fun q hq => by
      have hmem : q ∈ before ++ p :: after := by
        rw [List.mem_append] at hq
        simp only [List.mem_append, List.mem_cons]
        tauto
      refine ⟨h.holds_apart hs (hheld q hmem) fun x hx => ?_, hcalc q hmem⟩
      exact Plant.notMem_ids_of_nodup hn.1 hq x (Plant.ids_subset_of_mem_subs part.mem_subs hx)
    have hall : ∀ q ∈ before ++ p' :: after, s'.nodes.Holds q ∧ q.Calculates := fun q hq => by
      rcases List.mem_append.1 hq with hq | hq
      · exact hside q (List.mem_append_left _ hq)
      · rcases List.mem_cons.1 hq with rfl | hq
        · exact ⟨hp', hcalc'⟩
        · exact hside q (List.mem_append_right _ hq)
    refine ⟨.mk root' (before ++ p' :: after), .mk (by rw [hid', hget']) ?_ fun q hq => (hall q hq).1,
      Plant.calculates_mk_iff.2 ⟨⟨hformed.congr hk hf hnames, hk ▸ hkind, hl.trans hunlocked⟩,
        fun q hq => (hall q hq).2⟩, ?_, ?_⟩
    · rw [hchildren, ← hid]
      simp
    · have hr : root.id ≠ r.id := fun he =>
        hout (he ▸ Plant.ids_subset_of_mem_subs part.mem_subs r.id_mem_ids)
      exact hid'.trans (if_neg hr).symm
    · rw [Plant.shape_mk, Plant.shape_mk, hk, hf, hnames, List.map_append, List.map_append,
        List.map_cons, List.map_cons]
      refine hdiffers.inside (fun v hv => ?_) fun hkc => ?_
      · obtain ⟨q, hq, rfl⟩ := List.mem_map.1 hv
        exact values q hq
      · rw [first hkc, List.map_nil]

/-- The entry of the board with the old plant has the new one after a graft, if it is the root. -/
theorem entry (h : s.Grafts r u s') (ht : s.nodes.Holds t) (hj : t.Joined) (hr : r ∈ t.subs)
    (hparent : t.root.parent = none) {i : Nat} (hi : s.board[i]? = some t.id) :
    s'.board[i]? = some (if t.id = r.id then u.id else t.id) := by
  rw [h.board]
  by_cases hid : t.id = r.id
  · obtain rfl := ht.unique h.old hid
    rw [if_pos hparent, List.getElem?_map, hi]
    rfl
  · obtain rfl | ⟨w, hw, hrw⟩ := Plant.eq_or_mem_parts hr
    · exact absurd rfl hid
    · obtain ⟨-, -, hheld, -⟩ := (hj w hw).exists_entry hrw
      rw [if_neg (by simp [hheld]), if_neg hid, hi]

end State.Grafts

/-! ### One step -/

/-- The entry `i` of the board is the root of a tree without names and functions. -/
structure State.Computes (s : State) (next i : Nat) (t : Plant) : Prop where
  kept : s.Kept next
  held : s.nodes.Holds t
  calculates : t.Calculates
  entry : s.board[i]? = some t.id

namespace State.Computes

variable {S : Signature} {s : State} {next i : Nat} {t : Plant}

theorem mem_board (h : s.Computes next i t) : t.id ∈ s.board := List.mem_of_getElem? h.entry

theorem parent_eq (h : s.Computes next i t) : t.root.parent = none := by
  obtain ⟨n, hn, hparent, -⟩ := h.kept.exists_board h.mem_board
  obtain rfl := Option.some.inj (h.held.get?_id.symm.trans hn)
  exact hparent

theorem hung (h : s.Computes next i t) : s.nodes.Hung next := h.kept.linked.hung h.kept.lt

theorem shows (h : s.Computes next i t) : (s.nodes.tree t.id).Shows t :=
  h.held.tree_shows (h.hung.nodup_ids h.held)

/-- What is ready in such a tree is its redex, once that has passed its check. -/
theorem ready_eq (h : s.Computes next i t) (hS : S.Full) :
    s.ready S t.id = do
      match ← (liftM (S.redex s.nodes t.id) : Except Failure (Option NodeId)) with
      | none => return none
      | some redex =>
        let r ← s.nodes.find redex
        S.check s r
        return some r := by
  have hroot := (Forest.Kept.rootOf_self h.kept (Kept.mem_roots_of_board h.mem_board)).rootOf_eq
  rw [ready, liftM_eq_ok_iff.2 (Forest.find_eq_ok_iff.2 h.held.get?_id), ok_bind,
    liftM_eq_ok_iff.2 hroot, ok_bind, if_neg (not_not.2 h.mem_board),
    if_neg (by simp [h.calculates.unlocked _ t.root_mem_nodes])]
  refine bind_congr_ok fun o _ => ?_
  cases o with
  | none => rfl
  | some redex =>
    refine bind_congr_ok fun r _ => ?_
    rw [hS.requireKind]
    rfl

/-- The first phase of a step plans to put a plant in the place of what evaluation comes to first,
whose shape is the reduct, or refuses a node if there is none. -/
theorem meets_begin (h : s.Computes next i t) (hS : S.Full) (most : Int64) {r : Plant}
    (hredex : (s.nodes.tree t.id).redex S = .ok (some r.id)) (hin : r.RedexIn t) :
    (s.begin S most t.id).Meets next
      (fun p _ => ∃ (G : Forest) (u : Plant), p = .ready r.id ⟨G, u.id⟩ ∧ G.Holds u ∧
        u.Calculates ∧ r.shape.reduct = .ok u.shape)
      (Failure.Refuses t.ids t.shape.eval) := by
  have hheld := h.held.of_mem_subs hin.mem_subs
  have hr : r.ReadyIn s :=
    ⟨hheld, h.hung.nodup_ids hheld, h.calculates.of_mem_subs hin.mem_subs, hin.ready⟩
  have hready : s.ready S t.id = S.check s r.root >>= fun _ => pure (some r.root) := by
    rw [h.ready_eq hS, Signature.redex, hredex, liftM_eq_ok_iff.2 rfl, ok_bind]
    dsimp only
    rw [liftM_eq_ok_iff.2 (Forest.find_eq_ok_iff.2 hheld.get?_id), ok_bind]
  -- what the rule refuses leaves the whole tree without a value
  have hrefuses : ∀ e, Failure.Refuses r.ids r.shape.reduct e →
      Failure.Refuses t.ids t.shape.eval e := by
    intro e he
    obtain ⟨k, hk, -⟩ := hin.differs.exists_eval_eq
    rw [hk, hin.ready.eval_eq]
    exact ((he.bind _).bind _).mono (Plant.ids_subset_of_mem_subs hin.mem_subs)
  have hcontracts : r.Contracts S s most next := hr.contracts hS
  rw [begin_eq, hready]
  cases hcheck : S.check s r.root with
  | error e => exact .throw_bind (hrefuses e (hcontracts.of_error hcheck))
  | ok =>
    refine ((hcontracts.of_ok hcheck).imp (fun _ _ _ ho => ho) hrefuses).bind ?_
    rintro o mid - ⟨v, hv, G, u, rfl, hu, hcalc, rfl⟩
    exact .pure ⟨G, u, rfl, hu, hcalc, hv⟩

/-- A step on a tree that is no value leaves a tree of the same value with fewer expressions, or
refuses a node of a tree that has no value. -/
theorem meets_step (h : s.Computes next i t) (hS : S.Full) (hv : ¬t.shape.IsValue) (most : Int64) :
    (s.step S most t.id).Meets next
      (fun o next' => ∃ s' t', o = some s' ∧ s'.Computes next' i t' ∧
        t'.shape.eval = t.shape.eval ∧ t'.shape.expressions < t.shape.expressions)
      (Failure.Refuses t.ids t.shape.eval) := by
  obtain ⟨r, hredex, hin⟩ := (h.shows.redex_of_calculates hS h.calculates).2 hv
  have hbegin := ((h.meets_begin hS most hredex hin).and (h.kept.meets_begin S most t.id)).and
    (addsRoot_begin h.hung S most t.id)
  refine (hbegin.imp (fun _ _ _ ho => ho) fun _ he => he.1.1).bind ?_
  rintro _ mid - ⟨⟨⟨G, u, rfl, hu, hcalc, hreduct⟩, hfits⟩, hadds, -⟩
  obtain ⟨⟨root, hboard, hroot⟩, lo, w, hkept, hle, hid, hsprouts⟩ := hfits
  obtain ⟨s', hs', hkept'⟩ := hkept.exists_graft hle hroot hboard hid hsprouts
  obtain ⟨r', v, hr', hv', hheld, hgrafts, -⟩ := grafts_of_graft h.hung hadds hs'
  obtain rfl := hgrafts.old.unique (h.held.of_mem_subs hin.mem_subs) hr'
  obtain rfl := hheld.unique hu hv'
  have hj := h.hung.joined h.held
  obtain ⟨t', ht', hcalc', hid', hdiffers⟩ := hgrafts.exists_differs h.kept.linked hin h.held hj
    (h.hung.nodup_ids h.held) h.calculates (hcalc.inPlaceOf r'.root)
  rw [Plant.shape_inPlaceOf] at hdiffers
  obtain ⟨k, ht, hk⟩ := hdiffers.exists_eval_eq
  rw [complete, Supply.liftM_ok hs', pure_bind]
  refine .liftSupply (.pure ⟨s', t', rfl, ⟨hkept', ht', hcalc', ?_⟩, ?_, ?_⟩)
  · rw [hid']
    exact hgrafts.entry h.held hj hin.mem_subs h.parent_eq h.entry
  · rw [hk, ht, hin.ready.eval_eq, hreduct, ok_bind]
  · have := hdiffers.expressions_add
    have := hin.ready.expressions_reduct_lt hreduct
    lia

end State.Computes

end TermForest
