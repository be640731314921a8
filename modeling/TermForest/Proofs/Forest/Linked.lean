import TermForest.Forest.Root
import TermForest.Proofs.Forest.Joined

/-!
# Linked forests

In a linked forest slots and parent links say the same, and every chain of parent links ends at a
root. Such a forest is a set of finite trees: what hangs below an id is a plant, and looking for the
root of a node succeeds.
-/

namespace TermForest

namespace Forest

/-! ### Links -/

/-- The child in a slot of the node of an id. -/
def childAt (F : Forest) (p : NodeId) (slot : String) : Option NodeId :=
  (F.get? p).bind fun n => n.slots.get? slot

/-- The parent and the slot that the node of an id names. -/
def holderOf (F : Forest) (c : NodeId) : Option (NodeId × String) :=
  (F.get? c).bind fun n => n.parent.bind fun p => n.parentSlot.map fun slot => (p, slot)

/-- A number of moves along parent links leads from a node to another. -/
inductive Ascends (F : Forest) : NodeId → Nat → NodeId → Prop where
  | refl {x : NodeId} {n : Node} (get : F.get? x = some n) : Ascends F x 0 x
  | up {x p a : NodeId} {n : Node} {k : Nat} (get : F.get? x = some n) (parent : n.parent = some p)
      (climb : Ascends F p k a) : Ascends F x (k + 1) a

/-- A node without a parent. -/
def IsRoot (F : Forest) (r : NodeId) : Prop := ∃ n, F.get? r = some n ∧ n.parent = none

/-- The tree that holds a node has a root. -/
def RootOf (F : Forest) (x r : NodeId) : Prop := F.IsRoot r ∧ ∃ k, F.Ascends x k r

/-- Slots and parent links are inverse to each other, and chains of parent links end. -/
structure Linked (F : Forest) : Prop where
  inverse : ∀ p slot c, F.childAt p slot = some c ↔ F.holderOf c = some (p, slot)
  parentSlot : ∀ x n, F.get? x = some n → n.parentSlot.isSome = n.parent.isSome
  rooted : ∀ x n, F.get? x = some n → ∃ r, F.RootOf x r

variable {F G : Forest} {x y a b r : NodeId} {j k : Nat}

theorem linked_empty : (∅ : Forest).Linked where
  inverse := by simp [childAt, holderOf]
  parentSlot x n hx := by simp at hx
  rooted x n hx := by simp at hx

theorem holderOf_eq_some_iff {c p : NodeId} {slot : String} :
    F.holderOf c = some (p, slot) ↔
      ∃ n, F.get? c = some n ∧ n.parent = some p ∧ n.parentSlot = some slot := by
  simp only [holderOf, Option.bind_eq_some_iff, Option.map_eq_some_iff, Prod.mk.injEq]
  constructor
  · rintro ⟨n, hn, p', hp, slot', hs, rfl, rfl⟩
    exact ⟨n, hn, hp, hs⟩
  · rintro ⟨n, hn, hp, hs⟩
    exact ⟨n, hn, p, hp, slot, hs, rfl, rfl⟩

theorem childAt_eq_some_iff {c p : NodeId} {slot : String} :
    F.childAt p slot = some c ↔ ∃ n, F.get? p = some n ∧ n.slots.get? slot = some c := by
  simp [childAt, Option.bind_eq_some_iff]

/-! ### Ascending -/

theorem Ascends.exists_start (h : F.Ascends x k a) : ∃ n, F.get? x = some n := by
  cases h with
  | refl get => exact ⟨_, get⟩
  | up get => exact ⟨_, get⟩

theorem Ascends.trans (h : F.Ascends x j a) (h' : F.Ascends a k b) : F.Ascends x (j + k) b := by
  induction h with
  | refl => simpa using h'
  | @up x p a n j get parent _ ih =>
    rw [Nat.add_right_comm]
    exact .up get parent (ih h')

/-- As many moves lead to one node only. -/
theorem Ascends.unique (h : F.Ascends x k a) (h' : F.Ascends x k b) : a = b := by
  induction h with
  | refl =>
    cases h'
    rfl
  | up get parent _ ih =>
    cases h' with
    | up get' parent' climb' =>
      rw [get, Option.some.injEq] at get'
      subst get'
      rw [parent, Option.some.injEq] at parent'
      subst parent'
      exact ih climb'

/-- A way up that passes a node goes on from there to the root. -/
theorem Ascends.remaining (hr : F.IsRoot r) (h : F.Ascends x k r) (h' : F.Ascends x j a) :
    ∃ i, k = j + i ∧ F.Ascends a i r := by
  induction h' generalizing k with
  | refl => exact ⟨k, by simp, h⟩
  | up get parent _ ih =>
    cases h with
    | refl get' =>
      obtain ⟨m, hm, hnone⟩ := hr
      rw [get, Option.some.injEq] at hm
      subst hm
      rw [parent] at hnone
      cases hnone
    | up get' parent' climb =>
      rw [get, Option.some.injEq] at get'
      subst get'
      rw [parent, Option.some.injEq] at parent'
      subst parent'
      obtain ⟨i, rfl, hi⟩ := ih climb
      exact ⟨i, Nat.add_right_comm _ _ _, hi⟩

theorem Ascends.length_unique (hr : F.IsRoot r) (h : F.Ascends x k r) (h' : F.Ascends x j r) :
    j = k := by
  obtain ⟨i, rfl, hi⟩ := h.remaining hr h'
  obtain ⟨i', hi', -⟩ := (Ascends.refl hr.choose_spec.1).remaining hr hi
  omega

theorem Ascends.eq_zero_of_isRoot (hx : F.IsRoot x) (h : F.Ascends x k a) : k = 0 ∧ a = x := by
  cases h with
  | refl => exact ⟨rfl, rfl⟩
  | up get parent _ =>
    obtain ⟨m, hm, hnone⟩ := hx
    rw [get, Option.some.injEq] at hm
    subst hm
    rw [parent] at hnone
    cases hnone

theorem RootOf.unique (h : F.RootOf x a) (h' : F.RootOf x b) : a = b := by
  obtain ⟨ha, k, hk⟩ := h
  obtain ⟨hb, j, hj⟩ := h'
  obtain ⟨i, -, hi⟩ := hk.remaining ha hj
  exact (hi.eq_zero_of_isRoot hb).2

theorem RootOf.of_ascends (h : F.Ascends x k a) (ha : F.RootOf a r) : F.RootOf x r := by
  obtain ⟨hr, j, hj⟩ := ha
  exact ⟨hr, _, h.trans hj⟩

theorem RootOf.up {n : Node} {p : NodeId} (h : F.RootOf p r) (hn : F.get? x = some n)
    (hp : n.parent = some p) : F.RootOf x r := by
  obtain ⟨hr, k, hk⟩ := h
  exact ⟨hr, k + 1, .up hn hp hk⟩

/-- The nodes on a way to the root are all different. -/
theorem Ascends.exists_path (hr : F.IsRoot r) (h : F.Ascends x k r) :
    ∃ path : List NodeId, path.length = k + 1 ∧ path.Nodup ∧
      ∀ y ∈ path, ∃ j, j ≤ k ∧ F.Ascends y j r := by
  induction h with
  | @refl r n get => exact ⟨[r], rfl, by simp, fun y hy => ⟨0, by simp, by
      rw [List.mem_singleton.1 hy]
      exact .refl get⟩⟩
  | @up x p r n k get parent climb ih =>
    obtain ⟨path, hlen, hn, hpath⟩ := ih hr
    refine ⟨x :: path, by rw [List.length_cons, hlen], ?_, fun y hy => ?_⟩
    · refine List.nodup_cons.2 ⟨fun hx => ?_, hn⟩
      obtain ⟨j, hj, hxj⟩ := hpath x hx
      obtain ⟨i, hi, -⟩ := hxj.remaining hr (.up get parent climb)
      omega
    · rcases List.mem_cons.1 hy with rfl | hy
      · exact ⟨k + 1, Nat.le_refl _, .up get parent climb⟩
      · obtain ⟨j, hj, hyj⟩ := hpath y hy
        exact ⟨j, Nat.le_succ_of_le hj, hyj⟩

/-- A way to the root has fewer moves than there are nodes. -/
theorem Ascends.lt_size (hr : F.IsRoot r) (h : F.Ascends x k r) : k < F.size := by
  obtain ⟨path, hlen, hn, hpath⟩ := h.exists_path hr
  have hle := length_le_size hn fun y hy => by
    obtain ⟨j, -, hj⟩ := hpath y hy
    exact hj.exists_start
  rw [hlen] at hle
  exact hle

theorem Ascends.climb (hr : F.IsRoot r) (h : F.Ascends x k r) {n : Node} (hn : F.get? x = some n)
    {moves : Nat} (hm : k ≤ moves) (start : NodeId) : F.climb start moves n = .ok r := by
  induction h generalizing n moves with
  | refl =>
    obtain ⟨m, hm, hnone⟩ := hr
    rw [hn, Option.some.injEq] at hm
    subst hm
    rw [Forest.climb.eq_def]
    dsimp only
    rw [hnone, id_of_get? hn]
  | up get parent climb ih =>
    rw [get, Option.some.injEq] at hn
    subst hn
    obtain ⟨up, hup⟩ := climb.exists_start
    obtain ⟨moves, rfl⟩ : ∃ m, moves = m + 1 := ⟨moves - 1, by omega⟩
    rw [Forest.climb.eq_def]
    dsimp only
    rw [parent]
    dsimp only
    rw [find_eq_ok_iff.2 hup, ok_bind]
    exact ih hr hup (by omega)

/-- Looking for the root of a node finds it. -/
theorem RootOf.rootOf_eq (h : F.RootOf x r) : F.rootOf x = .ok r := by
  obtain ⟨hr, k, hk⟩ := h
  obtain ⟨n, hn⟩ := hk.exists_start
  rw [Forest.rootOf, find_eq_ok_iff.2 hn, ok_bind]
  exact hk.climb hr hn (Nat.le_of_lt (hk.lt_size hr)) x

/-! ### What hangs below a node -/

namespace Linked

theorem exists_holder (h : F.Linked) {n : Node} {p : NodeId} (hn : F.get? x = some n)
    (hp : n.parent = some p) :
    ∃ slot m, n.parentSlot = some slot ∧ F.get? p = some m ∧ m.slots.get? slot = some x := by
  obtain ⟨slot, hs⟩ := Option.isSome_iff_exists.1 (h.parentSlot x n hn ▸ hp ▸ rfl :
    n.parentSlot.isSome = true)
  obtain ⟨m, hm, hc⟩ := childAt_eq_some_iff.1
    ((h.inverse p slot x).2 (holderOf_eq_some_iff.2 ⟨n, hn, hp, hs⟩))
  exact ⟨slot, m, hs, hm, hc⟩

/-- The slot that a node names holds it. -/
theorem get?_slot (h : F.Linked) {n q : Node} {p : NodeId} {slot : String} (hn : F.get? x = some n)
    (hparent : n.parent = some p) (hslot : n.parentSlot = some slot) (hp : F.get? p = some q) :
    q.slots.get? slot = some x := by
  obtain ⟨slot', m, hslot', hm, hc⟩ := h.exists_holder hn hparent
  obtain rfl := Option.some.inj (hslot.symm.trans hslot')
  obtain rfl := Option.some.inj (hp.symm.trans hm)
  exact hc

theorem exists_held (h : F.Linked) {n : Node} {slot : String} {c : NodeId}
    (hn : F.get? x = some n) (hc : n.slots.get? slot = some c) :
    ∃ m, F.get? c = some m ∧ m.parent = some x ∧ m.parentSlot = some slot :=
  holderOf_eq_some_iff.1 ((h.inverse x slot c).1 (childAt_eq_some_iff.2 ⟨n, hn, hc⟩))

/-- Nobody stands above itself. -/
theorem eq_zero_of_ascends_self (h : F.Linked) (hk : F.Ascends x k x) : k = 0 := by
  obtain ⟨n, hn⟩ := hk.exists_start
  obtain ⟨r, hr, j, hj⟩ := h.rooted x n hn
  have := hj.length_unique hr (hk.trans hj)
  omega

/-- The parent of a node does not hang below it. -/
theorem parent_notMem (h : F.Linked) {n : Node} {p : NodeId} {ids : List NodeId}
    (hids : ∀ y, y ∈ ids ↔ ∃ j, F.Ascends y j x) (hn : F.get? x = some n)
    (hp : n.parent = some p) : p ∉ ids := by
  intro hmem
  obtain ⟨j, hj⟩ := (hids p).1 hmem
  exact absurd (h.eq_zero_of_ascends_self (Ascends.up hn hp hj)) (by omega)

/-- No child stands twice in a node. -/
theorem nodup_children (h : F.Linked) {n : Node} (hn : F.get? x = some n) :
    n.slots.children.Nodup := by
  refine (List.Nodup.of_map _ n.slots.nodup).map_on fun e he e' he' hc => ?_
  obtain ⟨m, hm, -, hs⟩ := h.exists_held hn (Slots.get?_eq_some_iff.2 he)
  obtain ⟨m', hm', -, hs'⟩ := h.exists_held hn (Slots.get?_eq_some_iff.2 he')
  rw [← hc, hm, Option.some.injEq] at hm'
  subst hm'
  rw [hs, Option.some.injEq] at hs'
  exact Prod.ext hs' hc

/-- A node is below one child at most. -/
theorem child_unique (h : F.Linked) {n m m' : Node} {c c' : NodeId} (hn : F.get? a = some n)
    (hm : F.get? c = some m) (hm' : F.get? c' = some m') (hp : m.parent = some a)
    (hp' : m'.parent = some a) (hc : F.Ascends y j c) (hc' : F.Ascends y k c') : c = c' := by
  obtain ⟨r, hr, i, hi⟩ := h.rooted a n hn
  have heq := (hc.trans (.up hm hp hi)).length_unique hr (hc'.trans (.up hm' hp' hi))
  obtain rfl : k = j := by omega
  exact hc.unique hc'

/-- What hangs below a node whose way up has `k` moves is a plant. The induction is on how many more
moves a way up can have. -/
theorem exists_plant_of_le (h : F.Linked) (hr : F.IsRoot r) (d : Nat) {k : Nat}
    (hd : F.size ≤ k + d) {n : Node} (hn : F.get? x = some n) (hx : F.Ascends x k r) :
    ∃ t : Plant, t.root = n ∧ F.Holds t ∧ t.Joined ∧ t.ids.Nodup ∧
      ∀ y ∈ t.ids, ∃ j, F.Ascends y j x := by
  induction d generalizing k x n with
  | zero => exact absurd (hx.lt_size hr) (by omega)
  | succ d ih =>
    obtain rfl := id_of_get? hn
    have hchild : ∀ e ∈ n.slots.entries, ∃ p : Plant, p.id = e.2 ∧
        (p.root.parent = some n.id ∧ p.root.parentSlot = some e.1) ∧ F.Holds p ∧ p.Joined ∧
        p.ids.Nodup ∧ ∀ y ∈ p.ids, ∃ j, F.Ascends y j e.2 := by
      intro e he
      obtain ⟨m, hm, hp, hs⟩ := h.exists_held hn (Slots.get?_eq_some_iff.2 he)
      obtain ⟨t, rfl, ht⟩ := ih (by omega) hm (.up hm hp hx)
      exact ⟨t, id_of_get? hm, ⟨hp, hs⟩, ht⟩
    have : Nonempty Plant := ⟨.mk n []⟩
    choose! part hid hlink hheld hjoined hnodup habove using hchild
    have hc : n.Carries (n.slots.entries.map part) := by
      rw [Node.Carries, List.forall₂_map_right_iff, List.forall₂_same]
      exact fun e he => ⟨hid e he, hlink e he⟩
    have hmem : ∀ p ∈ n.slots.entries.map part, ∃ e ∈ n.slots.entries, part e = p :=
      fun p hp => List.mem_map.1 hp
    have hparts : ∀ p ∈ n.slots.entries.map part, F.Holds p ∧ p.Joined ∧ p.ids.Nodup := by
      intro p hp
      obtain ⟨e, he, rfl⟩ := hmem p hp
      exact ⟨hheld e he, hjoined e he, hnodup e he⟩
    have hbelow : ∀ p ∈ n.slots.entries.map part, ∀ y ∈ p.ids, ∃ j, F.Ascends y j p.id := by
      intro p hp y hy
      obtain ⟨e, he, rfl⟩ := hmem p hp
      exact hid e he ▸ habove e he y hy
    have hpoint : ∀ p ∈ n.slots.entries.map part, p.root.parent = some n.id := by
      intro p hp
      obtain ⟨e, he, rfl⟩ := hmem p hp
      exact (hlink e he).1
    refine ⟨.mk n _, rfl, .mk hn hc.children fun p hp => (hparts p hp).1,
      Plant.joined_mk_iff.2 ⟨hc, fun p hp => (hparts p hp).2.1⟩, ?_, fun y hy => ?_⟩
    · have hdistinct : (n.slots.entries.map part).Pairwise fun p q => p.id ≠ q.id := by
        have := h.nodup_children hn
        rwa [hc.children, List.nodup_iff_pairwise_ne, List.pairwise_map] at this
      rw [Plant.ids_mk, List.nodup_append, List.nodup_flatMap]
      refine ⟨⟨fun p hp => (hparts p hp).2.2, ?_⟩, by simp, ?_⟩
      · refine hdistinct.imp_of_mem fun {p q} hp hq hne y hy hy' => hne ?_
        obtain ⟨i, hi⟩ := hbelow p hp y hy
        obtain ⟨j, hj⟩ := hbelow q hq y hy'
        exact h.child_unique hn (hparts p hp).1.get?_id (hparts q hq).1.get?_id (hpoint p hp)
          (hpoint q hq) hi hj
      · rintro y hy _ hy' rfl
        obtain rfl := List.mem_singleton.1 hy'
        obtain ⟨p, hp, hy⟩ := List.mem_flatMap.1 hy
        obtain ⟨i, hi⟩ := hbelow p hp _ hy
        have := h.eq_zero_of_ascends_self
          (hi.trans (.up (hparts p hp).1.get?_id (hpoint p hp) (.refl hn)))
        omega
    · rw [Plant.ids_mk, List.mem_append, List.mem_flatMap, List.mem_singleton] at hy
      rcases hy with ⟨p, hp, hy⟩ | rfl
      · obtain ⟨j, hj⟩ := hbelow p hp y hy
        exact ⟨_, hj.trans (.up (hparts p hp).1.get?_id (hpoint p hp) (.refl hn))⟩
      · exact ⟨0, .refl hn⟩

/-- What hangs below a node is a plant: its nodes are those above which the node stands. -/
theorem exists_plant (h : F.Linked) {n : Node} (hn : F.get? x = some n) :
    ∃ t : Plant, t.root = n ∧ F.Holds t ∧ t.Joined ∧ t.ids.Nodup ∧
      ∀ y, y ∈ t.ids ↔ ∃ j, F.Ascends y j x := by
  obtain ⟨r, hr, k, hk⟩ := h.rooted x n hn
  obtain ⟨t, rfl, ht, hj, hnodup, hup⟩ :=
    h.exists_plant_of_le hr F.size (Nat.le_add_left _ _) hn hk
  obtain rfl := id_of_get? hn
  refine ⟨t, rfl, ht, hj, hnodup, fun y => ⟨hup y, ?_⟩⟩
  rintro ⟨j, hj⟩
  generalize hx : t.root.id = x at hj
  induction hj with
  | refl => exact hx ▸ t.id_mem_ids
  | @up y p a m j hm hp _ ih =>
    -- the parent is in the plant, and so is what it holds
    obtain ⟨v, hv, hvid⟩ := Plant.mem_ids_iff.1 (ih hx)
    obtain ⟨slot, q, -, hq, hc⟩ := h.exists_holder hm hp
    have hheld := ht.of_mem_subs hv
    rw [← hvid, hheld.get?_id, Option.some.injEq] at hq
    subst hq
    have hmem := Slots.mem_children_iff.2 ⟨slot, hc⟩
    rw [hheld.children, List.mem_map] at hmem
    obtain ⟨w, hw, rfl⟩ := hmem
    exact Plant.ids_subset_of_mem_subs (Plant.mem_subs_trans (Plant.mem_subs_of_mem_parts hw) hv)
      w.id_mem_ids

end Linked

end Forest

end TermForest
