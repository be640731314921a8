import TermForest.Proofs.Rule.Extend
import TermForest.Proofs.Forest.Replace
import TermForest.Proofs.State.Phases

/-!
# Grafts

Putting a replacement in the place of a redex exchanges one plant for another. What the rule left over
is dropped with the old plant, the node that held it holds the new one in the same slot, and all else
stays.
-/

namespace TermForest

open Supply (Meets)

/-- The same plant, held by what holds another node. -/
def Plant.inPlaceOf (t : Plant) (n : Node) : Plant :=
  mk { t.root with parent := n.parent, parentSlot := n.parentSlot } t.parts

namespace Plant

@[simp] theorem id_inPlaceOf (t : Plant) (n : Node) : (t.inPlaceOf n).id = t.id := rfl

@[simp] theorem root_inPlaceOf (t : Plant) (n : Node) :
    (t.inPlaceOf n).root = { t.root with parent := n.parent, parentSlot := n.parentSlot } := rfl

@[simp] theorem ids_inPlaceOf (t : Plant) (n : Node) : (t.inPlaceOf n).ids = t.ids := by
  obtain ⟨root, parts⟩ := t
  rw [inPlaceOf, ids_mk, ids_mk]
  rfl

/-- Only the links of the root may be others. -/
theorem exists_of_mem_nodes_inPlaceOf {t : Plant} {n m : Node} (h : n ∈ (t.inPlaceOf m).nodes) :
    ∃ k ∈ t.nodes, n.id = k.id ∧ n.locked = k.locked := by
  obtain ⟨root, parts⟩ := t
  rw [inPlaceOf, nodes_mk, List.mem_append, List.mem_singleton] at h
  rw [nodes_mk]
  rcases h with h | rfl
  · exact ⟨n, List.mem_append_left _ h, rfl, rfl⟩
  · exact ⟨root, List.mem_append_right _ (List.mem_singleton_self _), rfl, rfl⟩

theorem Joined.inPlaceOf {t : Plant} (h : t.Joined) (n : Node) : (t.inPlaceOf n).Joined := by
  obtain ⟨root, parts⟩ := t
  obtain ⟨hroot, hparts⟩ := joined_mk_iff.1 h
  exact joined_mk_iff.2 ⟨hroot, hparts⟩

@[simp] theorem shape_inPlaceOf (t : Plant) (n : Node) : (t.inPlaceOf n).shape = t.shape := by
  obtain ⟨root, parts⟩ := t
  rw [inPlaceOf, shape_mk, shape_mk]
  rfl

end Plant

/-- In `s'` the plant `u` stands where `t` stands in `s`. -/
structure State.Grafts (s : State) (t u : Plant) (s' : State) : Prop where
  old : s.nodes.Holds t
  new : s'.nodes.Holds u
  nodup_old : t.ids.Nodup
  nodup_new : u.ids.Nodup
  joined_old : t.Joined
  joined_new : u.Joined
  /-- The new plant has ids that no node had. -/
  fresh : ∀ x ∈ u.ids, s.nodes.get? x = none
  parent : u.root.parent = t.root.parent
  parentSlot : u.root.parentSlot = t.root.parentSlot
  gone : ∀ x ∈ t.ids, s'.nodes.get? x = none
  /-- The node that held the old plant holds the new one instead. -/
  holder : ∀ p, t.root.parent = some p → ∃ slot n, t.root.parentSlot = some slot ∧ p ∉ t.ids ∧
    s.nodes.get? p = some n ∧ s'.nodes.get? p = some (n.withSlot slot u.id)
  others : ∀ x, x ∉ t.ids → x ∉ u.ids → t.root.parent ≠ some x →
    s'.nodes.get? x = s.nodes.get? x
  removed : s'.removed = t.ids
  added : s'.added = u.ids
  board : s'.board =
    if t.root.parent = none then s.board.map fun x => if x = t.id then u.id else x else s.board
  rest : s'.toolbox = s.toolbox ∧ s'.defs = s.defs ∧ s'.goal = s.goal ∧ s'.level = s.level ∧
    s'.mode = s.mode

/-- The replacement that is ready is a new root. -/
def Plan.AddsRoot (F : Forest) (lo hi : Nat) : Plan → Prop
  | .ready _ w => F.AddsRoot w.forest lo hi w.root
  | .deferred .. | .nothing => True

/-- A plant of a forest has none of the ids that are not handed out yet. -/
theorem Forest.Hung.notMem_of_le {F : Forest} {lo : Nat} {t : Plant} {ids : List NodeId}
    (hF : F.Hung lo) (ht : F.Holds t) (hle : ∀ x : Nat, x ∈ ids → lo ≤ x) :
    ∀ x ∈ t.ids, x ∉ ids := by
  intro x hx hx'
  exact ht.notMem_ids (hF.get?_eq_none (hle x hx')) hx

namespace State

variable {s s' : State} {lo hi : Nat} {redex : NodeId} {w : Replacement}

/-- What hangs below the root of a replacement has new ids. -/
theorem fresh_of_addsRoot (hF : s.nodes.Hung lo) (hw : s.nodes.AddsRoot w.forest lo hi w.root)
    {u : Plant} (hu : w.forest.Holds u) (hid : u.id = w.root) {x : Nat} (hx : x ∈ u.ids) :
    lo ≤ x ∧ x < hi := by
  obtain ⟨n, hn, rfl⟩ := Plant.mem_ids_iff_nodes.1 hx
  exact ⟨hw.extension.le_of_mem_ids hF hu (hid ▸ hw.le) _ hx,
    hw.extension.hung.lt _ n (hu.get?_of_mem_nodes hn)⟩

/-- A plant of new nodes that is held in the place of a dropped one stands where that one stood. -/
theorem grafts_of_holdInPlace (hF : s.nodes.Hung lo) {t v : Plant} (ht : s.nodes.Holds t)
    (hj : v.Joined) (hv : v.ids.Nodup) (hle : ∀ x : Nat, x ∈ v.ids → lo ≤ x)
    (h : s.holdInPlace t.id ((s.nodes.insertAll v.nodes).eraseAll t.ids) v.id v.ids t.ids = .ok s') :
    s.Grafts t (v.inPlaceOf t.root) s' := by
  have hfresh : ∀ x ∈ v.ids, s.nodes.get? x = none := fun x hx => hF.get?_eq_none (hle x hx)
  have hdisjoint := hF.notMem_of_le ht hle
  set K := (s.nodes.insertAll v.nodes).eraseAll t.ids with hK
  have hKv : K.Holds v := (Forest.holds_insertAll hj hv).congr fun x hx => by
    rw [hK, Forest.get?_eraseAll, if_neg fun hmem => hdisjoint x hmem hx]
  have hKother : ∀ x, x ∉ v.ids → K.get? x = if x ∈ t.ids then none else s.nodes.get? x := by
    intro x hx
    rw [hK, Forest.get?_eraseAll, Forest.get?_insertAll_of_notMem (by rwa [Plant.map_id_nodes])]
  obtain ⟨r, hr, h⟩ := bind_eq_ok_iff.1 h
  obtain rfl : t.root = r := Option.some.inj (ht.get?_id.symm.trans (Forest.find_eq_ok_iff.1 hr))
  obtain ⟨root, hroot, h⟩ := bind_eq_ok_iff.1 h
  obtain rfl : v.root = root :=
    Option.some.inj (hKv.get?_id.symm.trans (Forest.find_eq_ok_iff.1 hroot))
  have hnew : (K.insert (v.inPlaceOf t.root).root).Holds (v.inPlaceOf t.root) := by
    refine Forest.holds_insert hKv.children
      (fun p hp => hKv.of_mem_subs (Plant.mem_subs_of_mem_parts hp)) fun hmem => ?_
    obtain ⟨p, hp, hmem⟩ := List.mem_flatMap.1 hmem
    exact hKv.id_notMem_parts hp hmem
  have hother : ∀ x, x ∉ v.ids → (K.insert (v.inPlaceOf t.root).root).get? x =
      if x ∈ t.ids then none else s.nodes.get? x := fun x hx => by
    rw [Forest.get?_insert_of_ne, hKother x hx]
    rintro rfl
    exact hx v.id_mem_ids
  have htn := hF.nodup_ids ht
  have hnodup : (v.inPlaceOf t.root).ids.Nodup := by rwa [Plant.ids_inPlaceOf]
  have hfresh' : ∀ x ∈ (v.inPlaceOf t.root).ids, s.nodes.get? x = none := by
    rwa [Plant.ids_inPlaceOf]
  simp only [← Plant.root_inPlaceOf] at h
  generalize K.insert (v.inPlaceOf t.root).root = J at h hnew hother
  cases hparent : t.root.parent with
  | none =>
    rw [hparent] at h
    cases h
    refine ⟨ht, hnew, htn, hnodup, hF.joined ht, hj.inPlaceOf _, hfresh', rfl, rfl, fun x hx => ?_,
      by simp [hparent], fun x hx hx' _ => ?_, rfl, by simp, by simp [hparent], rfl, rfl, rfl, rfl,
      rfl⟩
    · exact (hother x (hdisjoint x hx)).trans (if_pos hx)
    · rw [Plant.ids_inPlaceOf] at hx'
      exact (hother x hx').trans (if_neg hx)
  | some p =>
    cases hslot : t.root.parentSlot with
    | none =>
      rw [hparent, hslot] at h
      cases h
    | some slot =>
      rw [hparent, hslot] at h
      obtain ⟨n, hn, h⟩ := bind_eq_ok_iff.1 h
      cases h
      rw [Forest.find_eq_ok_iff] at hn
      obtain rfl := Forest.id_of_get? hn
      have hpv : n.id ∉ v.ids := fun hmem => by
        have hlt := hF.parent_lt _ _ ht.get?_id _ hparent
        have := hle _ hmem
        lia
      rw [hother _ hpv] at hn
      split at hn
      · cases hn
      next hpt =>
      have hstay : ∀ x, x ≠ n.id → (J.insert (n.withSlot slot v.id)).get? x = J.get? x :=
        fun x hx => Forest.get?_insert_of_ne hx
      refine ⟨ht, hnew.insert_of_notMem (by simpa using hpv), htn, hnodup, hF.joined ht,
        hj.inPlaceOf _, hfresh', rfl, rfl, fun x hx => ?_, fun p hp => ?_, fun x hx hx' hp => ?_,
        rfl, by simp, by simp [hparent], rfl, rfl, rfl, rfl, rfl⟩
      · exact (hstay x fun e => hpt (e ▸ hx)).trans
          ((hother x (hdisjoint x hx)).trans (if_pos hx))
      · rw [hparent, Option.some.injEq] at hp
        subst hp
        exact ⟨slot, n, hslot, hpt, hn, Forest.get?_insert_self ..⟩
      · rw [Plant.ids_inPlaceOf] at hx'
        exact (hstay x fun e => hp (e ▸ hparent)).trans ((hother x hx').trans (if_neg hx))

/-- A new root is held in the place of a redex once all of its plant and nothing of the old one is
there. -/
theorem graft_eq_holdInPlace (hF : s.nodes.Hung lo)
    (hw : s.nodes.AddsRoot w.forest lo hi w.root) {t v : Plant} (ht : s.nodes.Holds t)
    (hv : w.forest.Holds v) (hid : v.id = w.root) :
    s.graft t.id w =
      s.holdInPlace t.id ((s.nodes.insertAll v.nodes).eraseAll t.ids) v.id v.ids t.ids := by
  have hvn := hw.extension.hung.nodup_ids hv
  have hle : ∀ x : Nat, x ∈ v.ids → lo ≤ x := fun x hx => (fresh_of_addsRoot hF hw hv hid hx).1
  have hkept := hF.notMem_of_le ht hle
  have hremoved : t.ids.filter (· ∉ Std.ExtTreeSet.ofList v.ids) = t.ids :=
    List.filter_eq_self.2 fun x hx => by simp [Std.ExtTreeSet.mem_ofList, hkept x hx]
  have hadded : v.ids.filter (!s.nodes.has ·) = v.ids :=
    List.filter_eq_self.2 fun x hx => by simp [Forest.has_eq_isSome, hF.get?_eq_none (hle x hx)]
  rw [graft_eq, ht.idsUnder (hF.nodup_ids ht), ok_bind, ← hid, hv.idsUnder hvn, ok_bind]
  simp only [hremoved, hadded, Forest.eraseAll_leftOver hw.extension.below hv hvn hF.lt]

/-- A replacement that is a new root takes the place of the redex. -/
theorem grafts_of_graft (hF : s.nodes.Hung lo) (hw : s.nodes.AddsRoot w.forest lo hi w.root)
    (h : s.graft redex w = .ok s') :
    ∃ t v : Plant, t.id = redex ∧ v.id = w.root ∧ w.forest.Holds v ∧
      s.Grafts t (v.inPlaceOf t.root) s' ∧ ∀ x : Nat, x ∈ v.ids → lo ≤ x ∧ x < hi := by
  obtain ⟨_, hold, hrest⟩ := bind_eq_ok_iff.1 (graft_eq s redex w ▸ h)
  obtain ⟨_, hnew, -⟩ := bind_eq_ok_iff.1 hrest
  obtain ⟨t, rfl, ht, rfl⟩ := Forest.exists_plant_of_idsUnder hold
  obtain ⟨v, hid, hv, rfl⟩ := Forest.exists_plant_of_idsUnder hnew
  have hids : ∀ x : Nat, x ∈ v.ids → lo ≤ x ∧ x < hi := fun x => fresh_of_addsRoot hF hw hv hid
  rw [graft_eq_holdInPlace hF hw ht hv hid] at h
  exact ⟨t, v, rfl, hid, hv, grafts_of_holdInPlace hF ht (hw.extension.hung.joined hv)
    (hw.extension.hung.nodup_ids hv) (fun x hx => (hids x hx).1) h, hids⟩

/-- A root can be held in the place of a redex if what has the redex for a child is there and the redex
names its slot. -/
theorem exists_holdInPlace {K : Forest} {r n : Node} (hr : s.nodes.get? r.id = some r)
    (hn : K.get? n.id = some n)
    (hholder : ∀ p, r.parent = some p → r.parentSlot ≠ none ∧ ∃ m, K.get? p = some m)
    (added removed : List NodeId) : ∃ s', s.holdInPlace r.id K n.id added removed = .ok s' := by
  rw [holdInPlace, Forest.find_eq_ok_iff.2 hr, ok_bind, Forest.find_eq_ok_iff.2 hn, ok_bind]
  cases hparent : r.parent with
  | none => exact ⟨_, rfl⟩
  | some p =>
    obtain ⟨hslot, m, hm⟩ := hholder p hparent
    obtain ⟨slot, hslot⟩ := Option.ne_none_iff_exists'.1 hslot
    obtain ⟨k, hk⟩ : ∃ k, (K.insert { n with parent := some p, parentSlot := some slot }).get? p =
        some k := by
      rw [Forest.get?_insert]
      split
      · exact ⟨_, rfl⟩
      · exact ⟨m, hm⟩
    rw [hslot]
    dsimp only
    rw [Forest.find_eq_ok_iff.2 hk]
    exact ⟨_, rfl⟩

/-- A new root takes the place of a plant whose holder is there, outside of the plant. -/
theorem exists_grafts_of_addsRoot (hF : s.nodes.Hung lo)
    (hw : s.nodes.AddsRoot w.forest lo hi w.root) {t v : Plant} (ht : s.nodes.Holds t)
    (hv : w.forest.Holds v) (hid : v.id = w.root)
    (hholder : ∀ p, t.root.parent = some p → t.root.parentSlot ≠ none ∧ p ∉ t.ids ∧
      ∃ m, s.nodes.get? p = some m) :
    ∃ s', s.graft t.id w = .ok s' ∧ s.Grafts t (v.inPlaceOf t.root) s' := by
  have hvn := hw.extension.hung.nodup_ids hv
  have hle : ∀ x : Nat, x ∈ v.ids → lo ≤ x := fun x hx => (fresh_of_addsRoot hF hw hv hid hx).1
  have hroot : ((s.nodes.insertAll v.nodes).eraseAll t.ids).get? v.root.id = some v.root :=
    Forest.get?_eraseAll_eq_some_iff.2
      ⟨fun hmem => hF.notMem_of_le ht hle _ hmem v.id_mem_ids,
        Forest.get?_insertAll_nodes hvn v.mem_subs_self⟩
  obtain ⟨s', hs'⟩ := exists_holdInPlace (s := s) ht.get?_id hroot (fun p hp => by
    obtain ⟨hslot, hout, m, hm⟩ := hholder p hp
    exact ⟨hslot, m, Forest.get?_eraseAll_eq_some_iff.2
      ⟨hout, Forest.get?_insertAll_of_get? (fun x hx => hF.get?_eq_none (hle x hx)) hm⟩⟩) v.ids t.ids
  exact ⟨s', (graft_eq_holdInPlace hF hw ht hv hid).trans hs',
    grafts_of_holdInPlace hF ht (hw.extension.hung.joined hv) hvn hle hs'⟩

namespace Grafts

variable {t u : Plant}

/-- A node that was there before is not in the new plant. -/
theorem notMem_new (h : s.Grafts t u s') {x : NodeId} {n : Node} (hn : s.nodes.get? x = some n) :
    x ∉ u.ids := by
  intro hx
  rw [h.fresh x hx] at hn
  cases hn

/-- The new plant has no node of a plant that was there before. -/
theorem notMem_old (h : s.Grafts t u s') {p : Plant} (hp : s.nodes.Holds p) {x : NodeId}
    (hx : x ∈ u.ids) : x ∉ p.ids :=
  hp.notMem_ids (h.fresh x hx)

/-- A node after a graft is in the new plant or was there before. -/
theorem get?_cases (h : s.Grafts t u s') {x : NodeId} {n : Node} (hx : s'.nodes.get? x = some n) :
    (∃ v ∈ u.subs, v.id = x ∧ v.root = n) ∨ ∃ m, x ∉ t.ids ∧ s.nodes.get? x = some m ∧
      (t.root.parent ≠ some x ∧ n = m ∨
        ∃ slot, t.root.parent = some x ∧ t.root.parentSlot = some slot ∧
          n = m.withSlot slot u.id) := by
  by_cases hxu : x ∈ u.ids
  · obtain ⟨v, hv, rfl⟩ := Plant.mem_ids_iff.1 hxu
    exact .inl ⟨v, hv, rfl, Option.some.inj ((h.new.of_mem_subs hv).get?_id.symm.trans hx)⟩
  by_cases hxt : x ∈ t.ids
  · rw [h.gone x hxt] at hx
    cases hx
  by_cases hp : t.root.parent = some x
  · obtain ⟨slot, m, hslot, -, hm, hm'⟩ := h.holder x hp
    obtain rfl := Option.some.inj (hm'.symm.trans hx)
    exact .inr ⟨m, hxt, hm, .inr ⟨slot, hp, hslot, rfl⟩⟩
  · exact .inr ⟨n, hxt, (h.others x hxt hxu hp).symm.trans hx, .inl ⟨hp, rfl⟩⟩

/-- A node outside the old plant is there after a graft and has the same parent. -/
theorem exists_get? (h : s.Grafts t u s') {x : NodeId} {n : Node} (hn : s.nodes.get? x = some n)
    (hx : x ∉ t.ids) : ∃ m, s'.nodes.get? x = some m ∧ m.parent = n.parent ∧
      m.parentSlot = n.parentSlot := by
  by_cases hp : t.root.parent = some x
  · obtain ⟨slot, m, -, -, hm, hm'⟩ := h.holder x hp
    obtain rfl := Option.some.inj (hn.symm.trans hm)
    exact ⟨_, hm', rfl, rfl⟩
  · exact ⟨n, (h.others x hx (h.notMem_new hn) hp).trans hn, rfl, rfl⟩

/-- The ids after a graft. -/
theorem has_iff (h : s.Grafts t u s') (x : NodeId) :
    s'.nodes.has x = true ↔ s.nodes.has x = true ∧ x ∉ s'.removed ∨ x ∈ s'.added := by
  rw [h.removed, h.added, Forest.has_eq_isSome, Forest.has_eq_isSome]
  by_cases hu : x ∈ u.ids
  · obtain ⟨n, hn, rfl⟩ := Plant.mem_ids_iff_nodes.1 hu
    simp [h.new.get?_of_mem_nodes hn, hu]
  · by_cases ht : x ∈ t.ids
    · simp [h.gone x ht, ht, hu]
    · by_cases hp : t.root.parent = some x
      · obtain ⟨slot, m, -, -, hm, hm'⟩ := h.holder x hp
        simp [hm, hm', ht]
      · simp [h.others x ht hu hp, ht, hu]

/-- What a node outside the old plant holds in another slot than the old plant is there after a
graft. -/
theorem exists_held (h : s.Grafts t u s') (hF : s.nodes.Hung lo) {x c : NodeId} {n : Node}
    {slot : String} (hn : s.nodes.get? x = some n) (hc : n.slots.get? slot = some c) (hx : x ∉ t.ids)
    (hslot : t.root.parent = some x → t.root.parentSlot ≠ some slot) :
    ∃ m, s'.nodes.get? c = some m ∧ m.parent = some x ∧ m.parentSlot = some slot := by
  obtain ⟨k, hk, hp, hs⟩ := hF.held x n slot c hn hc
  have hct : c ∉ t.ids := by
    intro hmem
    obtain ⟨v, hv, rfl⟩ := Plant.mem_ids_iff.1 hmem
    obtain rfl := Option.some.inj ((h.old.of_mem_subs hv).get?_id.symm.trans hk)
    rcases Plant.eq_or_mem_parts hv with rfl | ⟨w, hw, hvw⟩
    · exact hslot hp hs
    · obtain ⟨-, -, hparent, -⟩ := (h.joined_old w hw).exists_entry hvw
      rw [hp, Option.some.injEq] at hparent
      exact hx (hparent ▸ Plant.mem_ids_iff.2 ⟨w, hw, rfl⟩)
  obtain ⟨m, hm, hmp, hms⟩ := h.exists_get? hk hct
  exact ⟨m, hm, hmp.trans hp, hms.trans hs⟩

/-- A graft of ids below a bound leaves a forest hung. -/
theorem hung (h : s.Grafts t u s') (hF : s.nodes.Hung lo) (hhi : lo ≤ hi)
    (hu : ∀ x : Nat, x ∈ u.ids → x < hi) : s'.nodes.Hung hi where
  lt x n hx := by
    rcases h.get?_cases hx with ⟨v, hv, rfl, -⟩ | ⟨m, -, hm, -⟩
    · exact hu _ (Plant.mem_ids_iff.2 ⟨v, hv, rfl⟩)
    · exact Nat.lt_of_lt_of_le (hF.lt x m hm) hhi
  parent_lt x n hx p hp := by
    rcases h.get?_cases hx with ⟨v, hv, -, rfl⟩ | ⟨m, -, hm, hn⟩
    · rcases Plant.eq_or_mem_parts hv with rfl | ⟨w, hw, hvw⟩
      · exact Nat.lt_of_lt_of_le (hF.parent_lt _ _ h.old.get?_id p (h.parent ▸ hp)) hhi
      · obtain ⟨-, -, hparent, -⟩ := (h.joined_new w hw).exists_entry hvw
        rw [hp, Option.some.injEq] at hparent
        exact hparent ▸ hu _ (Plant.mem_ids_iff.2 ⟨w, hw, rfl⟩)
    · refine Nat.lt_of_lt_of_le (hF.parent_lt x m hm p ?_) hhi
      rcases hn with ⟨-, rfl⟩ | ⟨slot, -, -, rfl⟩ <;> exact hp
  held x n slot c hx hc := by
    rcases h.get?_cases hx with ⟨v, hv, rfl, rfl⟩ | ⟨m, hxt, hm, ⟨hne, rfl⟩ | ⟨slot', hp, hs, rfl⟩⟩
    · obtain ⟨q, hq, rfl, hparent, hslot⟩ :=
        (h.joined_new v hv).exists_part (Slots.get?_eq_some_iff.1 hc)
      exact ⟨q.root, (h.new.of_mem_subs
        (Plant.mem_subs_trans (Plant.mem_subs_of_mem_parts hq) hv)).get?_id, hparent, hslot⟩
    · exact h.exists_held hF hm hc hxt fun hp => absurd hp hne
    · change (m.slots.set slot' u.id).get? slot = some c at hc
      rw [Slots.get?_set] at hc
      split at hc
      · next e =>
        cases hc
        exact ⟨u.root, h.new.get?_id, h.parent.trans hp, e ▸ h.parentSlot.trans hs⟩
      · next hne =>
        refine h.exists_held hF hm hc hxt fun _ hs' => hne ?_
        exact Option.some.inj (hs'.symm.trans hs)

end Grafts

/-! ### Literals -/

/-- The forest with a root held in the place of a redex is plain if the one without was, and has no
literal where the redex has its parent. -/
theorem plain_of_holdInPlace {J : Forest} {root : NodeId} {added removed : List NodeId}
    (hs : s.nodes.Plain) (hJ : J.Plain) (hparent : ∀ r p m, s.nodes.get? redex = some r →
      r.parent = some p → J.get? p = some m → ¬m.kind.IsLiteral)
    (h : s.holdInPlace redex J root added removed = .ok s') : s'.nodes.Plain := by
  obtain ⟨r, hr, hheld⟩ := bind_eq_ok_iff.1 h
  obtain ⟨n, hn, hrest⟩ := bind_eq_ok_iff.1 hheld
  rw [Forest.find_eq_ok_iff] at hr hn
  obtain rfl := Forest.id_of_get? hn
  have hK := hJ.insert_same (n := { n with parent := r.parent, parentSlot := r.parentSlot }) hn rfl
    ((hJ.nodes _ n hn).congr rfl rfl rfl) (hs.parentSlots _ r hr) fun p m hp => hparent r p m hr hp
  dsimp only at hrest
  split at hrest
  · next p slot hp hslot =>
    obtain ⟨k, hk, hrest⟩ := bind_eq_ok_iff.1 hrest
    cases hrest
    rw [Forest.find_eq_ok_iff] at hk
    obtain rfl := Forest.id_of_get? hk
    refine hK.insert_other (n := k.withSlot slot n.id) ?_ (hK.parentSlots _ k hk)
      fun q m => hK.parents _ k q m hk
    exact hK.parents n.id _ k.id k (Forest.get?_insert_self ..) hp hk
  · cases hrest
  · cases hrest
    exact hK

/-- A graft of a new root leaves a plain forest plain. -/
theorem plain_of_graft (hF : s.nodes.Hung lo) (hs : s.nodes.Plain)
    (hw : s.nodes.AddsRoot w.forest lo hi w.root) (h : s.graft redex w = .ok s') :
    s'.nodes.Plain := by
  rw [graft_eq] at h
  obtain ⟨_, -, h⟩ := bind_eq_ok_iff.1 h
  obtain ⟨_, -, h⟩ := bind_eq_ok_iff.1 h
  refine plain_of_holdInPlace hs (((hw.extension.plain hs).eraseAll _).eraseAll _) ?_ h
  intro r p m hr hp hm
  -- the parent of the redex was there before
  have hm' := (Forest.get?_eraseAll_eq_some_iff.1 (Forest.get?_eraseAll_eq_some_iff.1 hm).2).2
  rw [hw.extension.below p (hF.parent_lt _ r hr p hp)] at hm'
  exact hs.parents _ r p m hr hp hm'

/-! ### Steps -/

theorem addsRoot_begin (hF : s.nodes.Hung lo) (S : Signature) (most : Int64) (target : NodeId) :
    (s.begin S most target).Meets lo
      (fun p hi => p.AddsRoot s.nodes lo hi ∧
        ∀ r, p.redex? = some r → S.redex s.nodes target = .ok (some r))
      fun _ => True := by
  unfold State.begin
  refine .readFault_bind fun n _ => .readFault_bind fun root _ => .guard (fun _ => trivial) fun _ => ?_
  split
  · exact .pure ⟨trivial, nofun⟩
  · refine .readFault_bind fun o ho => ?_
    cases o with
    | none => exact .pure ⟨trivial, nofun⟩
    | some redex =>
      refine .readFault_bind fun r _ => .readFault_bind fun _ _ => .read_bind fun _ _ => ?_
      refine (addsRoot_reduce hF S most r).bind ?_
      rintro (w | e | _) hi - hw
      · exact .pure ⟨hw, fun _ hr => Option.some.inj hr ▸ ho⟩
      · exact .pure ⟨trivial, fun _ hr => Option.some.inj hr ▸ ho⟩
      · exact .pure ⟨trivial, nofun⟩

/-- The second phase of a step puts a plant of ids that were new to its first phase in the place of
the redex. It may come later, when more ids have been handed out. -/
theorem grafts_complete {next : Nat} (hF : s.nodes.Hung lo) (S : Signature) {p : Plan}
    (hp : p.AddsRoot s.nodes lo hi) (hlo : lo ≤ hi) (hhi : hi ≤ next) :
    (s.complete S p).Meets next
      (fun o next' => ∀ s', o = some s' → ∃ t u : Plant, p.redex? = some t.id ∧ s.Grafts t u s' ∧
        ∀ x : Nat, x ∈ u.ids → lo ≤ x ∧ x < next')
      fun _ => True := by
  cases p with
  | nothing => exact .pure nofun
  | ready redex w =>
    refine .read_bind fun s' hs' => .pure ?_
    rintro _ ⟨⟩
    obtain ⟨t, v, rfl, -, -, hgrafts, hids⟩ := grafts_of_graft hF hp hs'
    rw [← v.ids_inPlaceOf t.root] at hids
    exact ⟨t, _, rfl, hgrafts, fun x hx => ⟨(hids x hx).1, by have := (hids x hx).2; lia⟩⟩
  | deferred redex e =>
    refine (S.addsRoot_finish (hF.mono (Nat.le_trans hlo hhi)) e).bind ?_
    intro w next' hnext hw
    refine .read_bind fun s' hs' => .pure ?_
    rintro _ ⟨⟩
    obtain ⟨t, v, rfl, -, -, hgrafts, hids⟩ :=
      grafts_of_graft (hF.mono (Nat.le_trans hlo hhi)) hw hs'
    rw [← v.ids_inPlaceOf t.root] at hids
    exact ⟨t, _, rfl, hgrafts, fun x hx => ⟨by have := (hids x hx).1; lia, (hids x hx).2⟩⟩

/-- The second phase of a step leaves a plain forest plain, whenever it comes. -/
theorem plain_complete {next : Nat} (hF : s.nodes.Hung lo) (hs : s.nodes.Plain) (S : Signature)
    {p : Plan} (hp : p.AddsRoot s.nodes lo hi) (hlo : lo ≤ hi) (hhi : hi ≤ next) :
    (s.complete S p).Meets next (fun o _ => ∀ s', o = some s' → s'.nodes.Plain) fun _ => True := by
  cases p with
  | nothing => exact .pure nofun
  | ready redex w =>
    refine .read_bind fun s' hs' => .pure ?_
    rintro _ ⟨⟩
    exact plain_of_graft hF hs hp hs'
  | deferred redex e =>
    have hF' := hF.mono (Nat.le_trans hlo hhi)
    refine (S.addsRoot_finish hF' e).bind fun w next' _ hw => .read_bind fun s' hs' => .pure ?_
    rintro _ ⟨⟩
    exact plain_of_graft hF' hs hw hs'

theorem plain_step (hF : s.nodes.Hung lo) (hs : s.nodes.Plain) (S : Signature) (most : Int64)
    (target : NodeId) :
    (s.step S most target).Meets lo (fun o _ => ∀ s', o = some s' → s'.nodes.Plain)
      fun _ => True := by
  refine (addsRoot_begin hF S most target).bind fun p mid hmid ⟨hp, _⟩ => .liftSupply ?_
  exact (plain_complete hF hs S hp hmid (Nat.le_refl _)).imp (fun _ _ _ ho => ho) fun _ h => h

theorem grafts_step (hF : s.nodes.Hung lo) (S : Signature) (most : Int64) (target : NodeId) :
    (s.step S most target).Meets lo
      (fun o hi => ∀ s', o = some s' → ∃ t u : Plant,
        S.redex s.nodes target = .ok (some t.id) ∧ s.Grafts t u s' ∧
        ∀ x : Nat, x ∈ u.ids → lo ≤ x ∧ x < hi)
      fun _ => True := by
  refine (addsRoot_begin hF S most target).bind fun p mid hmid ⟨hp, hredex⟩ => .liftSupply ?_
  refine (grafts_complete hF S hp hmid (Nat.le_refl _)).imp (fun o hi _ ho s' hs' => ?_) fun _ h => h
  obtain ⟨t, u, ht, hrest⟩ := ho s' hs'
  exact ⟨t, u, hredex _ ht, hrest⟩

end State

end TermForest
