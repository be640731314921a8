import TermForest.Proofs.Forest.Kept

/-!
# Replacing trees

A plant that has sprouted beside a kept forest takes the place of a tree or of a subtree of it. What
was replaced is dropped, and the forest stays kept.
-/

namespace TermForest

namespace Forest

variable {F G : Forest} {lo hi : Nat} {u : Plant} {x : NodeId}

theorem has_eq_isSome (F : Forest) (id : NodeId) : F.has id = (F.get? id).isSome :=
  Std.ExtTreeMap.contains_eq_isSome_getElem?

theorem nodup_ids (F : Forest) : F.ids.Nodup := Std.ExtTreeMap.nodup_keys

theorem mem_ids_iff : x ∈ F.ids ↔ ∃ n, F.get? x = some n := by
  rw [← Option.isSome_iff_exists]
  exact Std.ExtTreeMap.mem_keys.trans Std.ExtTreeMap.mem_iff_isSome_getElem?

/-- What an edit brings beside a plant is left over; without it, the plant alone is added. -/
theorem eraseAll_leftOver (hbelow : ∀ x : Nat, x < lo → G.get? x = F.get? x) (hu : G.Holds u)
    (hn : u.ids.Nodup) (hlt : ∀ (x : Nat) n, F.get? x = some n → x < lo) :
    G.eraseAll (G.ids.filter fun id => !F.has id && id ∉ Std.ExtTreeSet.ofList u.ids) =
      F.insertAll u.nodes := by
  refine Forest.ext fun x => ?_
  have hmem : x ∈ G.ids.filter (fun id => !F.has id && id ∉ Std.ExtTreeSet.ofList u.ids) ↔
      (∃ n, G.get? x = some n) ∧ F.get? x = none ∧ x ∉ u.ids := by
    simp [mem_ids_iff, has_eq_isSome, Std.ExtTreeSet.mem_ofList]
  by_cases hx : x ∈ u.ids
  · rw [get?_eraseAll, if_neg fun hx' => (hmem.1 hx').2.2 hx]
    obtain ⟨v, hv, rfl⟩ := Plant.mem_ids_iff.1 hx
    rw [get?_insertAll_nodes hn hv, (hu.of_mem_subs hv).get?_id]
  · rw [get?_insertAll_of_notMem (by rwa [Plant.map_id_nodes])]
    cases hF : F.get? x with
    | some n =>
      rw [get?_eraseAll, if_neg fun hx' => nomatch hF.symm.trans (hmem.1 hx').2.1]
      exact (hbelow x (hlt x n hF)).trans hF
    | none =>
      rw [get?_eraseAll]
      split
      · rfl
      · next hx' =>
        rw [hmem] at hx'
        cases hG : G.get? x with
        | none => rfl
        | some n => exact absurd ⟨⟨n, hG⟩, hF, hx⟩ hx'

theorem Sprouts.eraseAll_leftOver (h : F.Sprouts G lo hi u)
    (hlt : ∀ (x : Nat) n, F.get? x = some n → x < lo) :
    G.eraseAll (G.ids.filter fun id => !F.has id && id ∉ Std.ExtTreeSet.ofList u.ids) =
      F.insertAll u.nodes :=
  Forest.eraseAll_leftOver h.below h.held h.grown.nodup hlt

/-- Dropping what an exchanged child brought out leaves a root in its place. -/
theorem eraseAll_exchange {p n n' : Node} (slot : String) {ids : List NodeId} (hn : n.id ∈ ids)
    (hp : p.id ∉ ids) (hn' : n'.id ∉ ids) (hne : p.id ≠ n'.id) :
    (F.exchange p slot n n').eraseAll ids =
      ((F.eraseAll ids).insert (n'.heldBy p.id slot)).insert (p.withSlot slot n'.id) := by
  refine Forest.ext fun y => ?_
  rw [get?_eraseAll, get?_exchange, get?_insert, get?_insert, get?_eraseAll, Node.id_heldBy,
    Node.id_withSlot]
  by_cases hy : y ∈ ids
  · have hyp : p.id ≠ y := fun e => hp (e ▸ hy)
    have hyn' : n'.id ≠ y := fun e => hn' (e ▸ hy)
    simp [hy, hyp, hyn']
  · have hyn : y ≠ n.id := fun e => hy (e ▸ hn)
    by_cases hyn' : y = n'.id
    · simp [hn', hyn', hne]
    · by_cases hyp : y = p.id
      · simp [hp, hyp, hne, hyp ▸ hyn]
      · simp [hy, hyn, hyn', hyp, Ne.symm hyn', Ne.symm hyp]

namespace Kept

variable {roots roots' defs : List NodeId} {next next' : Nat} {r : NodeId} {t : Plant}

section grown

variable (h : F.Kept (Node.Formed next) roots defs next) (hu : u.Grown next next')
  (hfree : u.Free)
include h hu

theorem get?_of_grown : ∀ y ∈ u.ids, F.get? y = none := fun y hy => h.get?_eq_none (hu.le y hy)

theorem id_notMem_roots : u.id ∉ roots := by
  intro hmem
  obtain ⟨m, hm, -⟩ := h.exists_root hmem
  rw [h.get?_of_grown hu _ u.id_mem_ids] at hm
  cases hm

include hfree

/-- A grown plant adds its root. -/
theorem insertGrown (hnext : next ≤ next') (hpos : 1 ≤ next) :
    (F.insertAll u.nodes).Kept (Node.Formed next') (u.id :: roots) defs next' :=
  h.insertAll hu.joined hu.nodup hfree hpos hu.le hu.lt hnext hu.formed hu.unlocked nofun
    (List.nodup_cons.2 ⟨h.id_notMem_roots hu, h.nodup⟩) (fun x => List.mem_cons) (fun x => by simp)

/-- The older trees stay as they are. -/
theorem rootOf_insertAll_iff (hr : r ∈ roots) : (F.insertAll u.nodes).RootOf x r ↔ F.RootOf x r := by
  refine ⟨fun hx => ?_, RootOf.insertAll (h.get?_of_grown hu)⟩
  obtain ⟨j, hj⟩ := hx.2
  obtain ⟨n, hn⟩ := hj.exists_start
  rcases get?_insertAll_cases hu.nodup hn with ⟨v, hv, rfl, -⟩ | hn
  · have hroot := (holds_insertAll (F := F) hu.joined hu.nodup).rootOf hu.joined hfree
      (Plant.mem_ids_iff.2 ⟨v, hv, rfl⟩)
    exact absurd (hx.unique hroot ▸ hr) (h.id_notMem_roots hu)
  · obtain ⟨r', hr'⟩ := h.linked.rooted x n hn
    rwa [hx.unique (hr'.insertAll (h.get?_of_grown hu))]

/-- A grown plant takes the place of a tree. -/
theorem replaceRoot (hnext : next ≤ next') (hr : r ∈ roots) (hdefs : r ∉ defs)
    (hids : ∀ y, y ∈ t.ids ↔ ∃ j, F.Ascends y j r) (hnodup : roots'.Nodup)
    (hroots : ∀ x, x ∈ roots' ↔ x = u.id ∨ x ∈ roots ∧ x ≠ r) :
    ((F.insertAll u.nodes).eraseAll t.ids).Kept (Node.Formed next') roots' defs next' := by
  obtain ⟨n, hn, -⟩ := h.exists_root hr
  have hA := h.insertGrown hu hfree hnext (h.one_le hn)
  have hrA : r ∈ u.id :: roots := List.mem_cons_of_mem _ hr
  have hidsA : ∀ y, y ∈ t.ids ↔ ∃ j, (F.insertAll u.nodes).Ascends y j r := fun y =>
    calc y ∈ t.ids
      _ ↔ F.RootOf y r := (hids y).trans ⟨fun hj => ⟨(h.mem_roots_iff r).1 hr, hj⟩, And.right⟩
      _ ↔ (F.insertAll u.nodes).RootOf y r := (h.rootOf_insertAll_iff hu hfree hr).symm
      _ ↔ _ := ⟨And.right, fun hj => ⟨(hA.mem_roots_iff r).1 hrA, hj⟩⟩
  have hne : u.id ≠ r := fun e => h.id_notMem_roots hu (e ▸ hr)
  refine hA.eraseAll hrA hidsA hnodup (fun x => ?_) fun x => ?_
  · rw [hroots, List.mem_cons]
    constructor
    · rintro (rfl | ⟨hx, hxr⟩)
      · exact ⟨.inl rfl, hne⟩
      · exact ⟨.inr hx, hxr⟩
    · rintro ⟨rfl | hx, hxr⟩
      · exact .inl rfl
      · exact .inr ⟨hx, hxr⟩
  · exact ⟨fun hx => ⟨hx, fun e => hdefs (e ▸ hx)⟩, And.left⟩

/-- A grown plant takes the place of a child, which becomes a root. -/
theorem replaceChild (hnext : next ≤ next') {p n : Node} {slot : String}
    (hn : F.get? n.id = some n) (hp : F.get? p.id = some p) (hparent : n.parent = some p.id)
    (hslot : n.parentSlot = some slot) (hroot : F.RootOf n.id r) (hr : r ∉ defs)
    (hnodup : roots'.Nodup) (hroots : ∀ x, x ∈ roots' ↔ x = n.id ∨ x ∈ roots) :
    ((F.insertAll u.nodes).exchange p slot n u.root).Kept (Node.Formed next') roots' defs
      next' := by
  have hfresh := h.get?_of_grown hu
  have hout : u.root.id ∉ roots := h.id_notMem_roots hu
  have hholder : F.RootOf p.id r := by
    obtain ⟨r', hr'⟩ := h.linked.rooted p.id p hp
    rwa [hroot.unique (hr'.up hn hparent)]
  have he : (F.insertAll u.nodes).Exchangeable p slot n u.root r :=
    { holder := get?_insertAll_of_get? hfresh hp
      child := get?_insertAll_of_get? hfresh hn
      other := get?_insertAll_nodes hu.nodup u.mem_subs_self
      parent := hparent
      parentSlot := hslot
      isRoot := hfree.1
      rootOf := hholder.insertAll hfresh
      ne := fun heq => hout (heq ▸ (h.mem_roots_iff r).2 hroot.1) }
  refine (h.insertGrown hu hfree hnext (h.one_le hn)).exchange he hr
    (fun hmem => hout (h.defs_subset hmem)) hnodup fun x => ?_
  rw [hroots, List.mem_cons]
  constructor
  · rintro (hx | hx)
    · exact .inl hx
    · exact .inr ⟨.inr hx, fun hxu => hout (hxu ▸ hx)⟩
  · rintro (hx | ⟨hx | hx, hxu⟩)
    · exact .inl hx
    · exact absurd hx hxu
    · exact .inr hx

/-- A grown plant takes the place of a subtree, which is dropped. -/
theorem replaceSubtree (hnext : next ≤ next') {p : Node} {slot : String} (ht : F.Holds t)
    (htn : t.ids.Nodup) (hids : ∀ y, y ∈ t.ids ↔ ∃ j, F.Ascends y j t.id)
    (hp : F.get? p.id = some p) (hparent : t.root.parent = some p.id)
    (hslot : t.root.parentSlot = some slot) (hroot : F.RootOf t.id r) (hr : r ∉ defs) :
    ((((F.insertAll u.nodes).eraseAll t.ids).insert (u.root.heldBy p.id slot)).insert
      (p.withSlot slot u.id)).Kept (Node.Formed next') roots defs next' := by
  have hout : t.id ∉ roots := fun hmem => by
    obtain ⟨m, hm, hnone, -⟩ := h.exists_root hmem
    rw [ht.get?_id, Option.some.injEq] at hm
    rw [← hm, hparent] at hnone
    cases hnone
  have hE := h.replaceChild hu hfree hnext ht.get?_id hp hparent hslot hroot hr
    (List.nodup_cons.2 ⟨hout, h.nodup⟩) fun x => List.mem_cons
  have hpmem : p.id ∉ t.ids := h.linked.parent_notMem hids ht.get?_id hparent
  have humem : ∀ y ∈ u.ids, y ∉ t.ids := fun y hy hmem => by
    obtain ⟨n, hn⟩ := ((hids y).1 hmem).choose_spec.exists_start
    rw [h.get?_of_grown hu y hy] at hn
    cases hn
  have hne : ∀ y ∈ t.ids, y ≠ u.root.id := fun y hy e =>
    humem u.root.id u.id_mem_ids (e ▸ hy)
  have hget : ((F.insertAll u.nodes).exchange p slot t.root u.root).get? t.id =
      some t.root.detached := by
    rw [get?_exchange, if_neg (hne _ t.id_mem_ids)]
    exact if_pos rfl
  -- below its root the dropped tree is as before
  have hheld : ((F.insertAll u.nodes).exchange p slot t.root u.root).Holds t.detached := by
    refine .mk hget ht.children fun q hq => (ht.of_mem_subs
      (Plant.mem_subs_of_mem_parts hq)).congr fun x hx => ?_
    have hxt := Plant.ids_subset_of_mem_subs (Plant.mem_subs_of_mem_parts hq) hx
    have hxr : x ≠ t.root.id := Plant.ne_id_of_mem_parts htn hq hx
    have hxp : x ≠ p.id := fun e => hpmem (e ▸ hxt)
    rw [get?_exchange, if_neg (hne x hxt), if_neg hxr, if_neg hxp,
      get?_insertAll_of_notMem fun hmem => humem x (by rwa [Plant.map_id_nodes] at hmem) hxt]
  obtain ⟨t', ht', hheld', -, -, hids', -⟩ := hE.exists_plant hget
  obtain rfl : t.detached = t' := hheld.unique hheld' (congrArg Node.id ht'.symm)
  rw [Plant.ids_detached] at hids'
  have hD := hE.eraseAll List.mem_cons_self hids' h.nodup
    (fun x => by
      rw [List.mem_cons]
      exact ⟨fun hx => ⟨.inr hx, fun e => hout (e ▸ hx)⟩, fun hx => hx.1.resolve_left hx.2⟩)
    fun x => ⟨fun hx => ⟨hx, fun e => hout (e ▸ h.defs_subset hx)⟩, And.left⟩
  have hpu : p.id ≠ u.root.id := fun e => by
    rw [e, Plant.id_root, h.get?_of_grown hu _ u.id_mem_ids] at hp
    cases hp
  exact (eraseAll_exchange slot t.id_mem_ids hpmem (humem _ u.id_mem_ids) hpu ▸ hD :)

end grown

end Kept

end Forest

end TermForest
