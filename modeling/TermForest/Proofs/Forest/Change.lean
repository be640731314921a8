import TermForest.Proofs.Forest.Linked

/-!
# Changes of linked forests

Three changes keep a forest linked, and the moves of a game are put together from them: a plant of
new nodes is added beside the others, a whole tree is dropped, and a child changes places with the
root of another tree.
-/

namespace TermForest

/-- What hangs in a plant is the plant itself or a part of something in it. -/
theorem Plant.eq_or_mem_parts {t v : Plant} (h : v ∈ t.subs) :
    v = t ∨ ∃ w ∈ t.subs, v ∈ w.parts := by
  induction t using Plant.induct with
  | step root parts ih =>
    rcases Plant.mem_subs_mk.1 h with rfl | ⟨p, hp, hv⟩
    · exact .inl rfl
    · rcases ih p hp hv with rfl | ⟨w, hw, hv⟩
      · exact .inr ⟨_, Plant.mem_subs_self _, hp⟩
      · exact .inr ⟨w, Plant.mem_subs_mk.2 (.inr ⟨p, hp, hw⟩), hv⟩

namespace Forest

variable {F G : Forest} {t u : Plant} {x y a r : NodeId} {k : Nat}

/-! ### Ways up in two forests -/

/-- A way up is there in each forest that gives the nodes on it the same parents. -/
theorem Ascends.of_parents (h : F.Ascends x k a)
    (hG : ∀ y n, (∃ j, F.Ascends x j y) → F.get? y = some n →
      ∃ m, G.get? y = some m ∧ m.parent = n.parent) : G.Ascends x k a := by
  induction h with
  | refl get =>
    obtain ⟨m, hm, -⟩ := hG _ _ ⟨0, .refl get⟩ get
    exact .refl hm
  | up get parent climb ih =>
    obtain ⟨n, hn⟩ := climb.exists_start
    obtain ⟨m, hm, hp⟩ := hG _ _ ⟨0, .refl get⟩ get
    exact .up hm (hp.trans parent) (ih fun y m ⟨j, hj⟩ => hG y m ⟨j + 1, .up get parent hj⟩)

theorem RootOf.of_parents (h : F.RootOf x r)
    (hG : ∀ y n, (∃ j, F.Ascends x j y) → F.get? y = some n →
      ∃ m, G.get? y = some m ∧ m.parent = n.parent) : G.RootOf x r := by
  obtain ⟨⟨n, hn, hp⟩, k, hk⟩ := h
  obtain ⟨m, hm, hmp⟩ := hG r n ⟨k, hk⟩ hn
  exact ⟨⟨m, hm, hmp.trans hp⟩, k, hk.of_parents hG⟩

/-- The root of a plant stands above all of it. -/
theorem Holds.ascends (h : F.Holds t) (hj : t.Joined) (hx : x ∈ t.ids) :
    ∃ j, F.Ascends x j t.id := by
  induction h with
  | @mk root parts get children held ih =>
    obtain ⟨hroot, hparts⟩ := Plant.joined_mk_iff.1 hj
    rw [Plant.ids_mk, List.mem_append, List.mem_flatMap, List.mem_singleton] at hx
    rcases hx with ⟨p, hp, hx⟩ | rfl
    · obtain ⟨j, hj⟩ := ih p hp (hparts p hp) hx
      obtain ⟨slot, -, hparent, -⟩ := hroot.exists_entry hp
      exact ⟨_, hj.trans (.up (held p hp).get?_id hparent (.refl get))⟩
    · exact ⟨0, .refl get⟩

theorem Holds.rootOf (h : F.Holds t) (hj : t.Joined) (hf : t.Free) (hx : x ∈ t.ids) :
    F.RootOf x t.id :=
  ⟨⟨t.root, h.get?_id, hf.1⟩, h.ascends hj hx⟩

/-! ### Adding a plant -/

section insertAll

variable (hn : u.ids.Nodup) (hfresh : ∀ y ∈ u.ids, F.get? y = none)

include hn in
theorem get?_insertAll_nodes {v : Plant} (hv : v ∈ u.subs) :
    (F.insertAll u.nodes).get? v.id = some v.root :=
  get?_insertAll_of_mem (by rwa [Plant.map_id_nodes]) (Plant.mem_nodes_iff.2 ⟨v, hv, rfl⟩)

include hfresh in
/-- A node that was there stays as it is. -/
theorem get?_insertAll_of_get? {n : Node} (hx : F.get? x = some n) :
    (F.insertAll u.nodes).get? x = some n := by
  rw [get?_insertAll_of_notMem, hx]
  intro hmem
  rw [Plant.map_id_nodes] at hmem
  rw [hfresh x hmem] at hx
  cases hx

include hn in
theorem get?_insertAll_cases {n : Node} (hx : (F.insertAll u.nodes).get? x = some n) :
    (∃ v ∈ u.subs, v.id = x ∧ v.root = n) ∨ F.get? x = some n := by
  by_cases hmem : x ∈ u.ids
  · obtain ⟨v, hv, rfl⟩ := Plant.mem_ids_iff.1 hmem
    rw [get?_insertAll_nodes hn hv, Option.some.injEq] at hx
    exact .inl ⟨v, hv, rfl, hx⟩
  · rw [get?_insertAll_of_notMem (by rwa [Plant.map_id_nodes])] at hx
    exact .inr hx

include hfresh in
theorem RootOf.insertAll (h : F.RootOf x r) : (F.insertAll u.nodes).RootOf x r :=
  h.of_parents fun _ n _ hn => ⟨n, get?_insertAll_of_get? hfresh hn, rfl⟩

include hn hfresh in
/-- A forest stays linked when a plant of new nodes is added. -/
theorem Linked.insertAll (h : F.Linked) (hj : u.Joined) (hfree : u.Free) :
    (F.insertAll u.nodes).Linked where
  inverse p slot c := by
    rw [childAt_eq_some_iff, holderOf_eq_some_iff]
    constructor
    · rintro ⟨n, hp, hc⟩
      rcases get?_insertAll_cases hn hp with ⟨v, hv, rfl, rfl⟩ | hp
      · obtain ⟨q, hq, rfl, hparent, hslot⟩ :=
          (hj v hv).exists_part (Slots.get?_eq_some_iff.1 hc)
        exact ⟨q.root, get?_insertAll_nodes hn
          (Plant.mem_subs_trans (Plant.mem_subs_of_mem_parts hq) hv), hparent, hslot⟩
      · obtain ⟨m, hm, hparent, hslot⟩ := h.exists_held hp hc
        exact ⟨m, get?_insertAll_of_get? hfresh hm, hparent, hslot⟩
    · rintro ⟨n, hc, hparent, hslot⟩
      rcases get?_insertAll_cases hn hc with ⟨v, hv, rfl, rfl⟩ | hc
      · rcases Plant.eq_or_mem_parts hv with rfl | ⟨w, hw, hvw⟩
        · rw [hfree.1] at hparent
          cases hparent
        · obtain ⟨slot', hmem, hparent', hslot'⟩ := (hj w hw).exists_entry hvw
          rw [hparent', Option.some.injEq] at hparent
          rw [hslot', Option.some.injEq] at hslot
          subst hparent hslot
          exact ⟨w.root, get?_insertAll_nodes hn hw, Slots.get?_eq_some_iff.2 hmem⟩
      · obtain ⟨slot', m, hslot', hm, hget⟩ := h.exists_holder hc hparent
        rw [hslot, Option.some.injEq] at hslot'
        exact ⟨m, get?_insertAll_of_get? hfresh hm, hslot' ▸ hget⟩
  parentSlot x n hx := by
    rcases get?_insertAll_cases hn hx with ⟨v, hv, rfl, rfl⟩ | hx
    · rcases Plant.eq_or_mem_parts hv with rfl | ⟨w, hw, hvw⟩
      · rw [hfree.1, hfree.2]
        rfl
      · obtain ⟨slot, -, hparent, hslot⟩ := (hj w hw).exists_entry hvw
        rw [hparent, hslot]
        rfl
    · exact h.parentSlot x n hx
  rooted x n hx := by
    rcases get?_insertAll_cases hn hx with ⟨v, hv, rfl, rfl⟩ | hx
    · exact ⟨u.id, (holds_insertAll hj hn).rootOf hj hfree (Plant.mem_ids_iff.2 ⟨v, hv, rfl⟩)⟩
    · obtain ⟨r, hr⟩ := h.rooted x n hx
      exact ⟨r, hr.insertAll hfresh⟩

end insertAll

/-! ### Dropping a tree -/

section eraseAll

variable (hx : F.IsRoot a) (hids : ∀ y, y ∈ t.ids ↔ ∃ j, F.Ascends y j a)

theorem get?_eraseAll_eq_some_iff {ids : List NodeId} {n : Node} :
    (F.eraseAll ids).get? x = some n ↔ x ∉ ids ∧ F.get? x = some n := by
  rw [get?_eraseAll]
  split <;> simp_all

include hx hids in
/-- A node hangs in a tree just when its parent does. -/
theorem mem_ids_iff_parent {n : Node} {p : NodeId} (hn : F.get? x = some n)
    (hp : n.parent = some p) : x ∈ t.ids ↔ p ∈ t.ids := by
  rw [hids, hids]
  constructor
  · rintro ⟨j, hj⟩
    cases hj with
    | refl get =>
      obtain ⟨m, hm, hnone⟩ := hx
      rw [hn, Option.some.injEq] at hm
      subst hm
      rw [hp] at hnone
      cases hnone
    | up get parent climb =>
      rw [hn, Option.some.injEq] at get
      subst get
      rw [hp, Option.some.injEq] at parent
      subst parent
      exact ⟨_, climb⟩
  · rintro ⟨j, hj⟩
    exact ⟨_, .up hn hp hj⟩

include hx hids in
theorem RootOf.eraseAll (h : F.RootOf x r) (hr : r ≠ a) : (F.eraseAll t.ids).RootOf x r := by
  refine h.of_parents fun y n ⟨j, hj⟩ hn => ⟨n, get?_eraseAll_eq_some_iff.2 ⟨fun hy => ?_, hn⟩, rfl⟩
  -- what is above a node of another tree is in the other tree
  obtain ⟨i, hi⟩ := (hids y).1 hy
  exact hr (h.unique ⟨hx, _, hj.trans hi⟩)

include hx hids in
/-- A forest stays linked when a whole tree is dropped. -/
theorem Linked.eraseAll (h : F.Linked) : (F.eraseAll t.ids).Linked where
  inverse p slot c := by
    rw [childAt_eq_some_iff, holderOf_eq_some_iff]
    constructor
    · rintro ⟨m, hp, hc⟩
      obtain ⟨hmem, hp⟩ := get?_eraseAll_eq_some_iff.1 hp
      obtain ⟨n, hn, hparent, hslot⟩ := h.exists_held hp hc
      exact ⟨n, get?_eraseAll_eq_some_iff.2
        ⟨mt (mem_ids_iff_parent hx hids hn hparent).1 hmem, hn⟩, hparent, hslot⟩
    · rintro ⟨n, hc, hparent, hslot⟩
      obtain ⟨hmem, hc⟩ := get?_eraseAll_eq_some_iff.1 hc
      obtain ⟨slot', m, hslot', hm, hget⟩ := h.exists_holder hc hparent
      rw [hslot, Option.some.injEq] at hslot'
      exact ⟨m, get?_eraseAll_eq_some_iff.2
        ⟨mt (mem_ids_iff_parent hx hids hc hparent).2 hmem, hm⟩, hslot' ▸ hget⟩
  parentSlot y n hy := h.parentSlot y n (get?_eraseAll_eq_some_iff.1 hy).2
  rooted y n hy := by
    obtain ⟨hmem, hy⟩ := get?_eraseAll_eq_some_iff.1 hy
    obtain ⟨r, hr⟩ := h.rooted y n hy
    refine ⟨r, hr.eraseAll hx hids ?_⟩
    rintro rfl
    exact hmem ((hids y).2 hr.2)

end eraseAll

/-! ### Exchanging a child for a root -/

/-- The root `n'` comes into the slot of `p` that held `n`, which becomes a root. -/
def exchange (F : Forest) (p : Node) (slot : String) (n n' : Node) : Forest :=
  ((F.insert (p.withSlot slot n'.id)).insert n.detached).insert (n'.heldBy p.id slot)

/-- A slot of `p` holds `n`, and `n'` is the root of another tree. -/
structure Exchangeable (F : Forest) (p : Node) (slot : String) (n n' : Node) (r : NodeId) :
    Prop where
  holder : F.get? p.id = some p
  child : F.get? n.id = some n
  other : F.get? n'.id = some n'
  parent : n.parent = some p.id
  parentSlot : n.parentSlot = some slot
  isRoot : n'.parent = none
  rootOf : F.RootOf p.id r
  ne : r ≠ n'.id

namespace Exchangeable

variable {p n n' : Node} {slot : String} (e : F.Exchangeable p slot n n' r)

include e

theorem isRoot_other : F.IsRoot n'.id := ⟨n', e.other, e.isRoot⟩

theorem holder_ne_other : p.id ≠ n'.id := by
  intro h
  obtain ⟨hr, k, hk⟩ := e.rootOf
  exact e.ne ((h ▸ hk).eq_zero_of_isRoot e.isRoot_other).2

theorem child_ne_other : n.id ≠ n'.id := by
  intro h
  obtain rfl : n = n' := Option.some.inj (e.child.symm.trans (h ▸ e.other))
  have hp := e.parent
  rw [e.isRoot] at hp
  cases hp

theorem holder_ne_child (h : F.Linked) : p.id ≠ n.id := by
  intro hpn
  have hup : F.Ascends n.id 1 p.id := .up e.child e.parent (.refl e.holder)
  rw [hpn] at hup
  exact absurd (h.eq_zero_of_ascends_self hup) (by omega)

theorem get?_slot (h : F.Linked) : p.slots.get? slot = some n.id :=
  h.get?_slot e.child e.parent e.parentSlot e.holder

end Exchangeable

theorem get?_exchange (p : Node) (slot : String) (n n' : Node) (y : NodeId) :
    (F.exchange p slot n n').get? y =
      if y = n'.id then some (n'.heldBy p.id slot) else if y = n.id then some n.detached
      else if y = p.id then some (p.withSlot slot n'.id) else F.get? y := by
  rw [exchange, get?_insert, get?_insert, get?_insert]
  simp only [Node.id_heldBy, Node.id_detached, Node.id_withSlot, eq_comm (b := y)]

namespace Exchangeable

variable {p n n' : Node} {slot : String} (e : F.Exchangeable p slot n n' r)

include e

/-- A node keeps its parent unless it is one of the two. -/
theorem get?_exchange_of_ne {m : Node} (hy : F.get? y = some m) (hn : y ≠ n.id)
    (hn' : y ≠ n'.id) : ∃ m', (F.exchange p slot n n').get? y = some m' ∧ m'.parent = m.parent ∧
      m'.parentSlot = m.parentSlot := by
  rw [get?_exchange, if_neg hn', if_neg hn]
  split
  · next hp =>
    rw [hp, e.holder, Option.some.injEq] at hy
    exact ⟨_, rfl, hy ▸ rfl, hy ▸ rfl⟩
  · exact ⟨m, hy, rfl, rfl⟩

/-- An exchange changes links and one slot, and leaves the rest of a node as it is. -/
theorem frame_of_get?_exchange (h : F.Linked) {m : Node}
    (hx : (F.exchange p slot n n').get? x = some m) :
    ∃ m₀, F.get? x = some m₀ ∧ m.kind = m₀.kind ∧ m.fields = m₀.fields ∧
      m.slots.names = m₀.slots.names ∧ m.locked = m₀.locked := by
  rw [get?_exchange] at hx
  split at hx
  · next hy =>
    cases hx
    exact ⟨n', hy ▸ e.other, rfl, rfl, rfl, rfl⟩
  · split at hx
    · next hy =>
      cases hx
      exact ⟨n, hy ▸ e.child, rfl, rfl, rfl, rfl⟩
    · split at hx
      · next hy =>
        cases hx
        have hname : slot ∈ p.slots.names := Slots.mem_names_iff.2 ⟨_, e.get?_slot h⟩
        exact ⟨p, hy ▸ e.holder, rfl, rfl, Slots.names_set hname _, rfl⟩
      · exact ⟨m, hx, rfl, rfl, rfl, rfl⟩

/-- An exchange makes a root of the child and no root of the other node. -/
theorem isRoot_exchange_iff (h : F.Linked) :
    (F.exchange p slot n n').IsRoot x ↔ x = n.id ∨ F.IsRoot x ∧ x ≠ n'.id := by
  constructor
  · rintro ⟨m, hm, hp⟩
    by_cases hxn : x = n.id
    · exact .inl hxn
    · have hxn' : x ≠ n'.id := by
        rintro rfl
        rw [get?_exchange, if_pos rfl, Option.some.injEq] at hm
        rw [← hm] at hp
        cases hp
      obtain ⟨m₀, hm₀, -⟩ := e.frame_of_get?_exchange h hm
      obtain ⟨m', hm', hp', -⟩ := e.get?_exchange_of_ne hm₀ hxn hxn'
      obtain rfl : m' = m := Option.some.inj (hm'.symm.trans hm)
      exact .inr ⟨⟨m₀, hm₀, hp'.symm.trans hp⟩, hxn'⟩
  · rintro (rfl | ⟨⟨m, hm, hp⟩, hne⟩)
    · exact ⟨n.detached, by rw [get?_exchange, if_neg e.child_ne_other, if_pos rfl], rfl⟩
    · have hxn : x ≠ n.id := by
        rintro rfl
        rw [e.child, Option.some.injEq] at hm
        rw [← hm, e.parent] at hp
        cases hp
      obtain ⟨m', hm', hp', -⟩ := e.get?_exchange_of_ne hm hxn hne
      exact ⟨m', hm', hp'.trans hp⟩

theorem childAt_exchange (h : F.Linked) (y : NodeId) (s : String) :
    (F.exchange p slot n n').childAt y s =
      if y = p.id ∧ s = slot then some n'.id else F.childAt y s := by
  rw [childAt, childAt, get?_exchange]
  by_cases hn' : y = n'.id
  · rw [if_pos hn', if_neg fun hy => e.holder_ne_other (hy.1.symm.trans hn'), hn', e.other]
    rfl
  · rw [if_neg hn']
    by_cases hn : y = n.id
    · rw [if_pos hn, if_neg fun hy => e.holder_ne_child h (hy.1.symm.trans hn), hn, e.child]
      rfl
    · rw [if_neg hn]
      by_cases hp : y = p.id
      · rw [if_pos hp, hp, e.holder]
        by_cases hs : s = slot <;> simp [Node.withSlot, hs]
      · rw [if_neg hp, if_neg fun hy => hp hy.1]

theorem holderOf_exchange (c : NodeId) :
    (F.exchange p slot n n').holderOf c =
      if c = n'.id then some (p.id, slot) else if c = n.id then none else F.holderOf c := by
  rw [holderOf, holderOf, get?_exchange]
  by_cases hn' : c = n'.id
  · rw [if_pos hn', if_pos hn']
    rfl
  · rw [if_neg hn', if_neg hn']
    by_cases hn : c = n.id
    · rw [if_pos hn, if_pos hn]
      rfl
    · rw [if_neg hn, if_neg hn]
      by_cases hp : c = p.id
      · rw [if_pos hp, hp, e.holder]
        rfl
      · rw [if_neg hp]

/-- The holder keeps its root. -/
theorem rootOf_holder (h : F.Linked) : (F.exchange p slot n n').RootOf p.id r := by
  refine e.rootOf.of_parents fun y m ⟨j, hj⟩ hy => ?_
  have hn : y ≠ n.id := by
    rintro rfl
    exact absurd (h.eq_zero_of_ascends_self (hj.trans (.up e.child e.parent (.refl e.holder))))
      (by omega)
  have hn' : y ≠ n'.id := by
    rintro rfl
    exact e.ne (e.rootOf.unique ⟨e.isRoot_other, j, hj⟩)
  obtain ⟨m', hm', hp, -⟩ := e.get?_exchange_of_ne hy hn hn'
  exact ⟨m', hm', hp⟩

/-- What hung below `n` has it for its root, what hung below `n'` has the root of the holder, and all
else keeps its root. -/
theorem rootOf_exchange (h : F.Linked) {r' : NodeId} (hx : F.RootOf x r') :
    (r' ≠ n'.id ∧ (F.exchange p slot n n').RootOf x r') ∨
      (r' = r ∧ (F.exchange p slot n n').RootOf x n.id) ∨
      (r' = n'.id ∧ (F.exchange p slot n n').RootOf x r) := by
  obtain ⟨hr, k, hk⟩ := hx
  have hchild : (F.exchange p slot n n').get? n.id = some n.detached := by
    rw [get?_exchange, if_neg e.child_ne_other, if_pos rfl]
  have hother : (F.exchange p slot n n').get? n'.id = some (n'.heldBy p.id slot) := by
    rw [get?_exchange, if_pos rfl]
  induction hk with
  | @refl x m get =>
    by_cases hn' : x = n'.id
    · rw [hn']
      exact .inr (.inr ⟨rfl, (e.rootOf_holder h).up hother rfl⟩)
    · refine .inl ⟨hn', ?_⟩
      obtain ⟨m₀, hm₀, hp₀⟩ := hr
      obtain rfl : m₀ = m := Option.some.inj (hm₀.symm.trans get)
      have hn : x ≠ n.id := by
        rintro rfl
        rw [e.child, Option.some.injEq] at get
        rw [← get, e.parent] at hp₀
        cases hp₀
      obtain ⟨m', hm', hp', -⟩ := e.get?_exchange_of_ne get hn hn'
      exact ⟨⟨m', hm', hp'.trans hp₀⟩, 0, .refl hm'⟩
  | @up x q r' m k get parent climb ih =>
    by_cases hn : x = n.id
    · subst hn
      rw [e.child, Option.some.injEq] at get
      subst get
      rw [e.parent, Option.some.injEq] at parent
      subst parent
      exact .inr (.inl ⟨RootOf.unique ⟨hr, k, climb⟩ e.rootOf, ⟨⟨_, hchild, rfl⟩, 0, .refl hchild⟩⟩)
    · have hn' : x ≠ n'.id := by
        rintro rfl
        rw [e.other, Option.some.injEq] at get
        rw [← get, e.isRoot] at parent
        cases parent
      obtain ⟨m', hm', hp', -⟩ := e.get?_exchange_of_ne get hn hn'
      have hp := hp'.trans parent
      exact (ih hr).imp (fun ⟨hne, h'⟩ => ⟨hne, h'.up hm' hp⟩)
        (Or.imp (fun ⟨heq, h'⟩ => ⟨heq, h'.up hm' hp⟩) fun ⟨heq, h'⟩ => ⟨heq, h'.up hm' hp⟩)

/-- A forest stays linked when a child is exchanged for a root. -/
theorem linked_exchange (h : F.Linked) : (F.exchange p slot n n').Linked where
  inverse y s c := by
    rw [e.childAt_exchange h, e.holderOf_exchange]
    have hslot : F.holderOf n.id = some (p.id, slot) :=
      holderOf_eq_some_iff.2 ⟨n, e.child, e.parent, e.parentSlot⟩
    have hroot : F.holderOf n'.id = none := by
      rw [holderOf, e.other]
      simp [e.isRoot]
    by_cases hys : y = p.id ∧ s = slot
    · obtain ⟨rfl, rfl⟩ := hys
      have hheld := h.inverse p.id s c
      rw [(h.inverse p.id s n.id).2 hslot] at hheld
      by_cases hc : c = n'.id
      · simp [hc]
      · by_cases hc' : c = n.id
        · simp [hc', e.child_ne_other, e.child_ne_other.symm]
        · simpa [hc, hc', eq_comm] using hheld
    · have hheld := h.inverse y s c
      by_cases hc : c = n'.id
      · rw [hc, hroot] at hheld
        simpa [hys, hc, eq_comm (a := p.id), eq_comm (a := slot)] using hheld
      · by_cases hc' : c = n.id
        · rw [hc', hslot] at hheld
          simpa [hys, hc, hc', eq_comm (a := p.id), eq_comm (a := slot)] using hheld
        · simpa [hys, hc, hc'] using hheld
  parentSlot x m hx := by
    rw [get?_exchange] at hx
    split at hx
    · cases hx
      rfl
    · split at hx
      · cases hx
        rfl
      · split at hx
        · cases hx
          exact h.parentSlot p.id p e.holder
        · exact h.parentSlot x m hx
  rooted x m hx := by
    have hget : ∃ m₀, F.get? x = some m₀ := by
      rw [get?_exchange] at hx
      split at hx
      · next hy => exact ⟨n', hy ▸ e.other⟩
      · split at hx
        · next hy => exact ⟨n, hy ▸ e.child⟩
        · split at hx
          · next hy => exact ⟨p, hy ▸ e.holder⟩
          · exact ⟨m, hx⟩
    obtain ⟨m₀, hm₀⟩ := hget
    obtain ⟨r', hr'⟩ := h.rooted x m₀ hm₀
    obtain ⟨-, h'⟩ | ⟨-, h'⟩ | ⟨-, h'⟩ := e.rootOf_exchange h hr'
    · exact ⟨r', h'⟩
    · exact ⟨n.id, h'⟩
    · exact ⟨r, h'⟩

end Exchangeable

end Forest

end TermForest
