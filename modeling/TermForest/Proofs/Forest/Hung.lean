import TermForest.Proofs.Forest.Change

/-!
# Hung forests

In a hung forest every child is there and names the node and the slot that hold it. A node may name a
parent that does not hold it, so this is less than being linked, and it is kept by edits and by files
that leave such nodes behind. It is enough for a walk that ends to meet no node twice.
-/

namespace TermForest

/-- What hangs in a plant has no more nodes than the plant. -/
theorem Plant.length_nodes_le {t u : Plant} (h : u ∈ t.subs) :
    u.nodes.length ≤ t.nodes.length := by
  induction t using Plant.induct with
  | step root parts ih =>
    rcases Plant.mem_subs_mk.1 h with rfl | ⟨p, hp, hu⟩
    · exact Nat.le_refl _
    · exact Nat.le_trans (ih p hp hu) (Nat.le_of_lt (Plant.length_nodes_lt root hp))

/-- A node carries the plants at its children when these point at its slots. -/
theorem Node.carries_of_children {n : Node} {parts : List Plant}
    (hc : n.slots.children = parts.map Plant.id)
    (h : ∀ e ∈ n.slots.entries, ∀ p ∈ parts, p.id = e.2 →
      p.root.parent = some n.id ∧ p.root.parentSlot = some e.1) : n.Carries parts := by
  unfold Node.Carries
  unfold Slots.children at hc
  generalize n.slots.entries = entries at hc h
  induction entries generalizing parts with
  | nil =>
    rw [List.map_nil, eq_comm, List.map_eq_nil_iff] at hc
    exact hc ▸ .nil
  | cons e entries ih =>
    cases parts with
    | nil => cases hc
    | cons p parts =>
      rw [List.map_cons, List.map_cons, List.cons.injEq] at hc
      exact .cons ⟨hc.1.symm, h e List.mem_cons_self p List.mem_cons_self hc.1.symm⟩
        (ih hc.2 fun e he p hp => h e (List.mem_cons_of_mem _ he) p (List.mem_cons_of_mem _ hp))

namespace Forest

/-- Children name the slots that hold them, and all ids lie below `next`. -/
structure Hung (next : Nat) (F : Forest) : Prop where
  lt : ∀ (x : Nat) n, F.get? x = some n → x < next
  parent_lt : ∀ x n, F.get? x = some n → ∀ p : Nat, n.parent = some p → p < next
  held : ∀ x n slot c, F.get? x = some n → n.slots.get? slot = some c →
    ∃ m, F.get? c = some m ∧ m.parent = some x ∧ m.parentSlot = some slot

variable {F G : Forest} {next next' : Nat} {t u : Plant} {x : NodeId} {n : Node}

theorem get?_insert_self (F : Forest) (n : Node) : (F.insert n).get? n.id = some n :=
  (get?_insert ..).trans (if_pos rfl)

theorem get?_insert_of_ne (h : x ≠ n.id) : (F.insert n).get? x = F.get? x :=
  (get?_insert ..).trans (if_neg h.symm)

theorem Linked.hung (h : F.Linked) (hlt : ∀ (x : Nat) n, F.get? x = some n → x < next) :
    F.Hung next where
  lt := hlt
  parent_lt x n hx p hp := by
    obtain ⟨_, m, -, hm, -⟩ := h.exists_holder hx hp
    exact hlt p m hm
  held _ _ _ _ := h.exists_held

namespace Hung

theorem mono (h : F.Hung next) (hn : next ≤ next') : F.Hung next' where
  lt x n hx := Nat.lt_of_lt_of_le (h.lt x n hx) hn
  parent_lt x n hx p hp := Nat.lt_of_lt_of_le (h.parent_lt x n hx p hp) hn
  held := h.held

/-- Ids that are not handed out yet have no node. -/
theorem get?_eq_none (h : F.Hung next) {y : Nat} (hy : next ≤ y) : F.get? y = none := by
  rw [Option.eq_none_iff_forall_ne_some]
  exact fun n hn => absurd (h.lt y n hn) (Nat.not_lt.2 hy)

theorem exists_child (h : F.Hung next) (hn : F.get? x = some n) {c : NodeId}
    (hc : c ∈ n.slots.children) : ∃ m, F.get? c = some m ∧ m.parent = some x := by
  obtain ⟨slot, hc⟩ := Slots.mem_children_iff.1 hc
  obtain ⟨m, hm, hp, -⟩ := h.held x n slot c hn hc
  exact ⟨m, hm, hp⟩

/-- No child stands twice in a node. -/
theorem nodup_children (h : F.Hung next) (hn : F.get? x = some n) : n.slots.children.Nodup := by
  refine (List.Nodup.of_map _ n.slots.nodup).map_on fun e he e' he' hc => ?_
  obtain ⟨m, hm, -, hs⟩ := h.held x n _ _ hn (Slots.get?_eq_some_iff.2 he)
  obtain ⟨m', hm', -, hs'⟩ := h.held x n _ _ hn (Slots.get?_eq_some_iff.2 he')
  rw [← hc, hm, Option.some.injEq] at hm'
  subst hm'
  rw [hs, Option.some.injEq] at hs'
  exact Prod.ext hs' hc

/-! ### Single nodes -/

/-- A forest stays hung when a node is put in that holds children of its own and names what holds
it. -/
theorem insert_of_holder (h : F.Hung next) (hlt : n.id < next)
    (hparent : ∀ p : Nat, n.parent = some p → p < next)
    (hholder : ∀ x m slot, x ≠ n.id → F.get? x = some m → m.slots.get? slot = some n.id →
      n.parent = some x ∧ n.parentSlot = some slot)
    (hslots : ∀ slot c, n.slots.get? slot = some c →
      ∃ m, (F.insert n).get? c = some m ∧ m.parent = some n.id ∧ m.parentSlot = some slot) :
    (F.insert n).Hung next where
  lt x m hx := by
    rw [get?_insert] at hx
    split at hx
    · next e => exact e ▸ hlt
    · exact h.lt x m hx
  parent_lt x m hx p hp := by
    rw [get?_insert] at hx
    split at hx
    · cases hx
      exact hparent p hp
    · exact h.parent_lt x m hx p hp
  held x m slot c hx hc := by
    rw [get?_insert] at hx
    split at hx
    · next e =>
      cases hx
      exact e ▸ hslots slot c hc
    · next hne =>
      obtain ⟨k, hk, hp, hs⟩ := h.held x m slot c hx hc
      rw [get?_insert]
      split
      · next e =>
        subst e
        exact ⟨n, rfl, hholder x m slot (Ne.symm hne) hx hc⟩
      · exact ⟨k, hk, hp, hs⟩

/-- A forest stays hung when a node is put in that holds children of its own and takes no other place
than that of a root or of a node with the same parent. -/
theorem insert (h : F.Hung next) (hlt : n.id < next) (hparent : ∀ p : Nat, n.parent = some p → p < next)
    (hplace : ∀ m, F.get? n.id = some m →
      m.parent = none ∨ m.parent = n.parent ∧ m.parentSlot = n.parentSlot)
    (hslots : ∀ slot c, n.slots.get? slot = some c →
      ∃ m, (F.insert n).get? c = some m ∧ m.parent = some n.id ∧ m.parentSlot = some slot) :
    (F.insert n).Hung next := by
  refine h.insert_of_holder hlt hparent (fun x m slot _ hx hc => ?_) hslots
  obtain ⟨k, hk, hp, hs⟩ := h.held x m slot _ hx hc
  rcases hplace k hk with hnone | ⟨hsame, hsame'⟩
  · rw [hnone] at hp
    cases hp
  · exact ⟨hsame ▸ hp, hsame' ▸ hs⟩

/-- A new node without slots. -/
theorem insert_leaf (h : F.Hung next) (hn : n.id < next) (hnew : F.get? n.id = none)
    (hp : n.parent = none) (hs : n.slots.entries = []) : (F.insert n).Hung next := by
  refine h.insert hn (by simp [hp]) (by simp [hnew]) fun slot c hc => ?_
  rw [Slots.get?, hs] at hc
  cases hc

/-- A root may be pointed at any parent. -/
theorem heldBy (h : F.Hung next) (slot : String) (hn : F.get? x = some n) {p : Nat} (hp : p < next)
    (hroot : n.parent = none ∨ n.parent = some p ∧ n.parentSlot = some slot) :
    (F.insert (n.heldBy p slot)).Hung next := by
  obtain rfl := id_of_get? hn
  refine h.insert (h.lt _ n hn) (fun q hq => ?_) (fun m hm => ?_) fun s c hc => ?_
  · cases hq
    exact hp
  · obtain rfl : n = m := Option.some.inj (hn.symm.trans hm)
    exact hroot
  · obtain ⟨m, hm, hmp, hms⟩ := h.held _ n s c hn hc
    rw [get?_insert]
    split
    · next e =>
      -- a node that holds itself has a parent, so it was pointed at this one before
      obtain rfl : n = m := Option.some.inj (hn.symm.trans (e ▸ hm :))
      rcases hroot with hnone | ⟨hp', hs'⟩
      · rw [hnone] at hmp
        cases hmp
      · exact ⟨_, rfl, hp'.symm.trans hmp, hs'.symm.trans hms⟩
    · exact ⟨m, hm, hmp, hms⟩

end Hung

/-! ### Ways up -/

theorem RootOf.of_parent {p r : NodeId} (h : F.RootOf x r) (hn : F.get? x = some n)
    (hp : n.parent = some p) : F.RootOf p r := by
  obtain ⟨hr, k, hk⟩ := h
  cases hk with
  | refl =>
    obtain ⟨m, hm, hnone⟩ := hr
    rw [hn, Option.some.injEq] at hm
    rw [← hm, hp] at hnone
    cases hnone
  | up get parent climb =>
    rw [hn, Option.some.injEq] at get
    rw [← get, hp, Option.some.injEq] at parent
    exact parent ▸ ⟨hr, _, climb⟩

/-- A node below a root is not its own parent. -/
theorem RootOf.parent_ne {r : NodeId} (h : F.RootOf x r) (hn : F.get? x = some n) :
    n.parent ≠ some x := by
  obtain ⟨hr, k, hk⟩ := h
  intro hp
  exact absurd ((Ascends.up hn hp hk).length_unique hr hk) (by lia)

theorem rootOf_of_climb {start r : NodeId} {moves : Nat} (hn : F.get? n.id = some n)
    (h : F.climb start moves n = .ok r) : F.RootOf n.id r := by
  fun_induction Forest.climb F start moves n with
  | case1 moves n hp =>
    cases h
    exact ⟨⟨n, hn, hp⟩, 0, .refl hn⟩
  | case2 moves n p hp ih =>
    obtain ⟨m, hm, hclimb⟩ := bind_eq_ok_iff.1 h
    rw [find_eq_ok_iff] at hm
    obtain rfl := id_of_get? hm
    cases moves with
    | zero => cases hclimb
    | succ moves => exact (ih m hm hclimb).up hn hp

/-- A root that is found is above the node. -/
theorem rootOf_of_rootOf_eq {r : NodeId} (h : F.rootOf x = .ok r) : F.RootOf x r := by
  obtain ⟨n, hn, h⟩ := bind_eq_ok_iff.1 h
  rw [find_eq_ok_iff] at hn
  obtain rfl := id_of_get? hn
  exact rootOf_of_climb hn h

/-! ### Walks that end -/

/-- Finite trees below the children of a node make one below the node. -/
theorem exists_shows (depth : Nat) (hn : F.get? x = some n)
    (h : ∀ c ∈ n.slots.children,
      ∃ t : Plant, t.id = c ∧ F.Holds t ∧ (F.unfold depth c).Shows t) :
    ∃ t : Plant, t.id = x ∧ F.Holds t ∧ (F.unfold (depth + 1) x).Shows t := by
  obtain rfl := id_of_get? hn
  have : Nonempty Plant := ⟨.mk n []⟩
  choose! part hid hheld hshown using h
  have hchildren : n.slots.children = (n.slots.children.map part).map Plant.id := by
    rw [List.map_map]
    exact ((List.map_congr_left hid).trans (List.map_id _)).symm
  have hpart : ∀ p ∈ n.slots.children.map part, F.Holds p ∧ (F.unfold depth p.id).Shows p := by
    intro p hp
    obtain ⟨c, hc, rfl⟩ := List.mem_map.1 hp
    exact ⟨hheld c hc, (hid c hc).symm ▸ hshown c hc⟩
  refine ⟨.mk n (n.slots.children.map part), rfl, .mk hn hchildren fun p hp => (hpart p hp).1, ?_⟩
  rw [unfold, hn]
  exact .node hchildren fun p hp => (hpart p hp).2

/-- A search that ends has walked over a plant. -/
theorem exists_plant_of_selectOnto {wanted : Node → Bool} {depth : Nat} {found result : List Node}
    (h : (F.unfold depth x).selectOnto wanted (fun _ => true) found = .ok result) :
    ∃ t : Plant, t.id = x ∧ F.Holds t ∧ (F.unfold depth x).Shows t := by
  induction depth generalizing x found result with
  | zero => cases h
  | succ depth ih =>
    cases hn : F.get? x with
    | none =>
      rw [unfold, hn] at h
      cases h
    | some n =>
      rw [unfold, hn] at h
      simp only [Tree.selectOnto, if_true] at h
      obtain ⟨result', h, -⟩ := bind_eq_ok_iff.1 h
      refine exists_shows depth hn fun c hc => ?_
      obtain ⟨found', found'', hc⟩ := exists_ok_of_foldlM_ok h hc
      exact ih hc

theorem exists_plant_of_findAll {wanted : Node → Bool} {nodes : List Node}
    (h : F.findAll x wanted = .ok nodes) :
    ∃ t : Plant, t.id = x ∧ F.Holds t ∧ (F.tree x).Shows t ∧ nodes = t.nodes.filter wanted := by
  obtain ⟨result, hresult, -⟩ := bind_eq_ok_iff.1 (show (F.tree x).select _ _ = _ from h)
  obtain ⟨t, hid, ht, hshows⟩ := exists_plant_of_selectOnto hresult
  replace hshows : (F.tree x).Shows t := hshows
  rw [findAll, hshows.select, Except.ok.injEq] at h
  exact ⟨t, hid, ht, hshows, h.symm⟩

theorem exists_plant_of_idsUnder {ids : List NodeId} (h : F.idsUnder x = .ok ids) :
    ∃ t : Plant, t.id = x ∧ F.Holds t ∧ t.ids = ids := by
  obtain ⟨nodes, hnodes, hids⟩ := bind_eq_ok_iff.1 h
  obtain ⟨t, rfl, ht, -, rfl⟩ := exists_plant_of_findAll hnodes
  rw [pure_eq_ok, Except.ok.injEq, List.filter_true, Plant.map_id_nodes] at hids
  exact ⟨t, rfl, ht, hids⟩

/-! ### Plants -/

/-- A plant is in none of its parts. -/
theorem Holds.id_notMem_parts (ht : F.Holds t) {p : Plant} (hp : p ∈ t.parts) : t.id ∉ p.ids := by
  intro hmem
  obtain ⟨v, hv, hid⟩ := Plant.mem_ids_iff.1 hmem
  obtain rfl := (ht.of_mem_subs
    (Plant.mem_subs_trans hv (Plant.mem_subs_of_mem_parts hp))).unique ht hid
  have hle := Plant.length_nodes_le hv
  obtain ⟨root, parts⟩ := v
  exact Nat.not_lt.2 hle (Plant.length_nodes_lt root hp)

namespace Hung

variable {p q : Plant}

theorem joined (h : F.Hung next) (ht : F.Holds t) : t.Joined := by
  intro v hv
  have hheld := ht.of_mem_subs hv
  refine Node.carries_of_children hheld.children fun e he p hp hid => ?_
  obtain ⟨m, hm, hparent, hslot⟩ :=
    h.held _ _ _ _ hheld.get?_id (Slots.get?_eq_some_iff.2 he)
  have hget := (hheld.of_mem_subs (Plant.mem_subs_of_mem_parts hp)).get?_id
  rw [hid, hm, Option.some.injEq] at hget
  exact hget ▸ ⟨hparent, hslot⟩

/-- A plant that has a part of another has its whole, or has the part for its root. -/
theorem id_mem_of_part_mem (h : F.Hung next) (ht : F.Holds t) (hq : F.Holds q) (hp : p ∈ t.parts)
    (hmem : p.id ∈ q.ids) : p.id = q.id ∨ t.id ∈ q.ids := by
  obtain ⟨v, hv, hid⟩ := Plant.mem_ids_iff.1 hmem
  rcases Plant.eq_or_mem_parts hv with rfl | ⟨w, hw, hvw⟩
  · exact .inl hid.symm
  · obtain rfl := (hq.of_mem_subs hv).unique (ht.of_mem_subs (Plant.mem_subs_of_mem_parts hp)) hid
    obtain ⟨-, -, hparent, -⟩ := (h.joined ht t t.mem_subs_self).exists_entry hp
    obtain ⟨-, -, hparent', -⟩ := (h.joined hq w hw).exists_entry hvw
    have he : t.id = w.id := Option.some.inj (hparent.symm.trans hparent')
    exact .inr (he ▸ Plant.mem_ids_iff.2 ⟨w, hw, rfl⟩)

/-- Of two plants with a node in common one is in the other. -/
theorem id_mem_or_id_mem (h : F.Hung next) (ht : F.Holds t) (hq : F.Holds q) {y : NodeId}
    (hy : y ∈ t.ids) (hy' : y ∈ q.ids) : t.id ∈ q.ids ∨ q.id ∈ t.ids := by
  induction t using Plant.induct with
  | step root parts ih =>
    rw [Plant.ids_mk, List.mem_append, List.mem_flatMap, List.mem_singleton] at hy
    rcases hy with ⟨p, hp, hy⟩ | rfl
    · have hsub := Plant.ids_subset_of_mem_subs
        (Plant.mem_subs_of_mem_parts (t := .mk root parts) hp)
      rcases ih p hp (ht.of_mem_subs (Plant.mem_subs_of_mem_parts hp)) hy with hmem | hmem
      · rcases h.id_mem_of_part_mem ht hq hp hmem with he | hmem'
        · exact .inr (he ▸ hsub p.id_mem_ids)
        · exact .inl hmem'
      · exact .inr (hsub hmem)
    · exact .inl hy'

/-- The plants at two roots have no id in common. -/
theorem disjoint_of_roots (h : F.Hung next) (ht : F.Holds t) (hq : F.Holds q)
    (hroot : t.root.parent = none) (hroot' : q.root.parent = none) (hne : t.id ≠ q.id) :
    ∀ y ∈ t.ids, y ∉ q.ids := by
  have hout : ∀ {t q : Plant}, F.Holds t → F.Holds q → t.root.parent = none → t.id ≠ q.id →
      t.id ∉ q.ids := by
    intro t q ht hq hroot hne hmem
    obtain ⟨v, hv, hid⟩ := Plant.mem_ids_iff.1 hmem
    obtain rfl := (hq.of_mem_subs hv).unique ht hid
    rcases Plant.eq_or_mem_parts hv with rfl | ⟨w, hw, hvw⟩
    · exact hne rfl
    · obtain ⟨-, -, hparent, -⟩ := (h.joined hq w hw).exists_entry hvw
      cases hroot.symm.trans hparent
  intro y hy hy'
  rcases h.id_mem_or_id_mem ht hq hy hy' with hmem | hmem
  · exact hout ht hq hroot hne hmem
  · exact hout hq ht hroot' hne.symm hmem

/-- No id stands twice in a plant. -/
theorem nodup_ids (h : F.Hung next) (ht : F.Holds t) : t.ids.Nodup := by
  induction t using Plant.induct with
  | step root parts ih =>
    have hpart : ∀ p ∈ parts, F.Holds p := fun p hp =>
      ht.of_mem_subs (Plant.mem_subs_of_mem_parts hp)
    have hdistinct : parts.Pairwise fun p q => p.id ≠ q.id := by
      have := h.nodup_children ht.get?_id
      rwa [ht.children, List.nodup_iff_pairwise_ne, List.pairwise_map] at this
    have hout : ∀ p ∈ parts, ∀ q ∈ parts, p.id ≠ q.id → p.id ∉ q.ids := by
      intro p hp q hq hne hmem
      rcases h.id_mem_of_part_mem ht (hpart q hq) hp hmem with he | hmem
      · exact hne he
      · exact ht.id_notMem_parts hq hmem
    rw [Plant.ids_mk, List.nodup_append, List.nodup_flatMap]
    refine ⟨⟨fun p hp => ih p hp (hpart p hp), ?_⟩, by simp, ?_⟩
    · refine hdistinct.imp_of_mem fun {p q} hp hq hne y hy hy' => ?_
      rcases h.id_mem_or_id_mem (hpart p hp) (hpart q hq) hy hy' with hmem | hmem
      · exact hout p hp q hq hne hmem
      · exact hout q hq p hp hne.symm hmem
    · rintro y hy _ hy' rfl
      obtain ⟨p, hp, hy⟩ := List.mem_flatMap.1 hy
      rw [List.mem_singleton.1 hy'] at hy
      exact ht.id_notMem_parts hp hy

/-! ### Dropping nodes -/

/-- A forest stays hung when a node is dropped that no node holds. -/
theorem erase (h : F.Hung next)
    (hx : ∀ y m slot, F.get? y = some m → m.slots.get? slot ≠ some x) : (F.erase x).Hung next where
  lt y n hy := by
    rw [get?_erase] at hy
    split at hy
    · cases hy
    · exact h.lt y n hy
  parent_lt y n hy := by
    rw [get?_erase] at hy
    split at hy
    · cases hy
    · exact h.parent_lt y n hy
  held y n slot c hy hc := by
    rw [get?_erase] at hy
    split at hy
    · cases hy
    · obtain ⟨m, hm, hp, hs⟩ := h.held y n slot c hy hc
      refine ⟨m, ?_, hp, hs⟩
      rw [get?_erase, if_neg (fun e : x = c => hx y n slot hy (e ▸ hc)), hm]

/-- A forest stays hung when what it has of a tree of a hung forest is dropped. -/
theorem eraseAll (h : G.Hung next) (hF : F.Hung next') (ht : F.Holds t)
    (hroot : t.root.parent = none)
    (hsame : ∀ y ∈ t.ids, ∀ n, G.get? y = some n → F.get? y = some n) :
    (G.eraseAll t.ids).Hung next where
  lt y n hy := h.lt y n (get?_eraseAll_eq_some_iff.1 hy).2
  parent_lt y n hy := h.parent_lt y n (get?_eraseAll_eq_some_iff.1 hy).2
  held y n slot c hy hc := by
    rw [get?_eraseAll_eq_some_iff] at hy
    obtain ⟨m, hm, hp, hs⟩ := h.held y n slot c hy.2 hc
    refine ⟨m, get?_eraseAll_eq_some_iff.2 ⟨fun hmem => hy.1 ?_, hm⟩, hp, hs⟩
    -- a child in the tree would have its parent in the tree
    obtain ⟨v, hv, rfl⟩ := Plant.mem_ids_iff.1 hmem
    obtain rfl : v.root = m :=
      Option.some.inj ((ht.of_mem_subs hv).get?_id.symm.trans (hsame _ hmem m hm))
    rcases Plant.eq_or_mem_parts hv with rfl | ⟨w, hw, hvw⟩
    · rw [hroot] at hp
      cases hp
    · obtain ⟨-, -, hparent, -⟩ := (hF.joined ht w hw).exists_entry hvw
      rw [hp, Option.some.injEq] at hparent
      exact hparent ▸ Plant.mem_ids_iff.2 ⟨w, hw, rfl⟩

end Hung

end Forest

end TermForest
