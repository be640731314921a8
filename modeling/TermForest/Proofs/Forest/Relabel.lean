import TermForest.Proofs.Forest.Revise

/-!
# Relabelled plants

A revision that only sets names leaves ids, links and slots as they are. What a forest holds after it
is the plant it held before, with other names on some nodes.
-/

namespace TermForest

/-- A node with the same name or another one. -/
def Node.Relabels (n n' : Node) : Prop := n' = n ∨ ∃ s, n' = n.withField "name" (.text s)

namespace Node

variable {n n' m : Node}

theorem relabels_withName (n : Node) (s : String) : n.Relabels (n.withField "name" (.text s)) :=
  .inr ⟨s, rfl⟩

/-- Setting a name leaves the rest of a node as it is. -/
theorem Relabels.frame (h : n.Relabels n') :
    n'.id = n.id ∧ n'.kind = n.kind ∧ n'.parent = n.parent ∧ n'.parentSlot = n.parentSlot ∧
      n'.slots = n.slots ∧ n'.locked = n.locked := by
  rcases h with rfl | ⟨s, rfl⟩ <;> exact ⟨rfl, rfl, rfl, rfl, rfl, rfl⟩

theorem Relabels.id_eq (h : n.Relabels n') : n'.id = n.id := h.frame.1

theorem Relabels.slots_eq (h : n.Relabels n') : n'.slots = n.slots := h.frame.2.2.2.2.1

theorem field?_withField (n : Node) (key : String) (value : Datum) (key' : String) :
    (n.withField key value).field? key' = if key' = key then some value else n.field? key' := by
  by_cases h : key' = key
  · simp [field?, withField, h]
  · simp [field?, withField, h, Std.ExtTreeMap.get?_eq_getElem?, Std.ExtTreeMap.getElem?_insert,
      Ne.symm h]

theorem Formed.relabels {next : Nat} (h : n.Formed next) (hr : n.Relabels n') :
    n'.Formed next := by
  rcases hr with rfl | ⟨s, rfl⟩
  · exact h
  · have hother : ∀ key, key ≠ "name" →
        (n.withField "name" (.text s)).field? key = n.field? key := fun key hk => by
      rw [field?_withField, if_neg hk]
    obtain ⟨⟨ht, ho⟩, hd, he⟩ := h
    refine ⟨⟨fun key hkey => ?_, fun hk => ?_⟩, fun hk => ?_, fun hk => ?_⟩
    · by_cases hname : key = "name"
      · subst hname
        exact ⟨.text s, by rw [field?_withField, if_pos rfl], by simp [Kind.takes, Datum.text?]⟩
      · rw [hother key hname]
        exact ht key hkey
    · rw [text?, hother "op" (by decide)]
      exact ho hk
    · refine (hd hk).trans ?_
      rw [declaredSlots, declaredSlots]
      simp only [int?, parameters, hother "length" (by decide), hother "params" (by decide)]
      rfl
    · rw [int?, hother "length" (by decide)]
      exact he hk

theorem Relabels.exists_name (h : n.Relabels n') {s : String} (hs : n.name? = some s) :
    ∃ s', n'.name? = some s' := by
  rcases h with rfl | ⟨s', rfl⟩
  · exact ⟨s, hs⟩
  · exact ⟨s', by rw [name?, text?, field?_withField, if_pos rfl]; rfl⟩

end Node

/-! ### Changing the nodes of a plant -/

namespace Plant

mutual

/-- A plant with other nodes in the same places. -/
def mapNodes (f : Node → Node) : Plant → Plant
  | .mk root parts => .mk (f root) (mapParts f parts)

/-- Some plants with other nodes in the same places. -/
def mapParts (f : Node → Node) : List Plant → List Plant
  | [] => []
  | t :: ts => t.mapNodes f :: mapParts f ts

end

theorem mapParts_eq_map (f : Node → Node) (ts : List Plant) :
    mapParts f ts = ts.map (mapNodes f) := by
  induction ts with
  | nil => rfl
  | cons t ts ih => rw [mapParts, ih, List.map_cons]

theorem mapNodes_mk (f : Node → Node) (root : Node) (parts : List Plant) :
    (mk root parts).mapNodes f = mk (f root) (parts.map (mapNodes f)) := by
  rw [mapNodes, mapParts_eq_map]

variable {f : Node → Node}

@[simp] theorem root_mapNodes (t : Plant) : (t.mapNodes f).root = f t.root := by
  obtain ⟨root, parts⟩ := t
  rw [mapNodes_mk, root_mk, root_mk]

theorem id_mapNodes {t : Plant} (h : (f t.root).id = t.id) : (t.mapNodes f).id = t.id :=
  (congrArg Node.id (root_mapNodes t)).trans h

@[simp] theorem parts_mapNodes (t : Plant) :
    (t.mapNodes f).parts = t.parts.map (mapNodes f) := by
  obtain ⟨root, parts⟩ := t
  rw [mapNodes_mk, parts_mk, parts_mk]

theorem subs_mapNodes (t : Plant) : (t.mapNodes f).subs = t.subs.map (mapNodes f) := by
  induction t using induct with
  | step root parts ih =>
    rw [mapNodes_mk, subs_mk, subs_mk, List.map_append, List.map_cons, List.map_nil, mapNodes_mk,
      List.flatMap_map, List.map_flatMap]
    congr 1
    rw [List.flatMap_def, List.flatMap_def]
    exact congrArg _ (List.map_congr_left ih)

theorem nodes_mapNodes (t : Plant) : (t.mapNodes f).nodes = t.nodes.map f := by
  rw [nodes, subs_mapNodes, nodes, List.map_map, List.map_map]
  exact List.map_congr_left fun u _ => root_mapNodes u

variable {t : Plant} {lo hi : Nat}

theorem mapNodes_congr {f g : Node → Node} (h : ∀ n ∈ t.nodes, f n = g n) :
    t.mapNodes f = t.mapNodes g := by
  induction t using induct with
  | step root parts ih =>
    rw [mapNodes_mk, mapNodes_mk, h root (root_mem_nodes _)]
    congr 1
    apply List.map_congr_left
    intro p hp
    exact ih p hp fun n hn =>
      h n (nodes_subset_of_mem_subs (mem_subs_of_mem_parts (t := mk root parts) hp) hn)

theorem mapNodes_id (t : Plant) : t.mapNodes (fun n => n) = t := by
  induction t using induct with
  | step root parts ih => rw [mapNodes_mk, List.map_congr_left ih, List.map_id']

theorem ids_mapNodes (h : ∀ n ∈ t.nodes, (f n).id = n.id) : (t.mapNodes f).ids = t.ids := by
  rw [← map_id_nodes, nodes_mapNodes, ← map_id_nodes, List.map_map]
  exact List.map_congr_left h

/-- A grown plant with other names is grown. -/
theorem Grown.mapNodes (h : t.Grown lo hi) (hf : ∀ n ∈ t.nodes, n.Relabels (f n)) :
    (t.mapNodes f).Grown lo hi := by
  have hids := ids_mapNodes fun n hn => (hf n hn).id_eq
  refine ⟨hids ▸ h.nodup, hids ▸ h.le, hids ▸ h.lt, fun v hv => ?_, fun n hn => ?_, fun n hn => ?_⟩
  · rw [subs_mapNodes] at hv
    obtain ⟨u, hu, rfl⟩ := List.mem_map.1 hv
    have hroot := hf u.root (nodes_subset_of_mem_subs hu u.root_mem_nodes)
    have hcarries := h.joined u hu
    unfold Node.Carries at hcarries ⊢
    rw [root_mapNodes, parts_mapNodes, hroot.slots_eq, hroot.id_eq]
    obtain ⟨hlen, hlinks⟩ := List.forall₂_iff_zip.1 hcarries
    refine List.forall₂_map_right_iff.2 (List.forall₂_iff_zip.2 ⟨hlen, fun {e p} hm => ?_⟩)
    obtain ⟨hid, hparent, hslot⟩ := hlinks hm
    have hp := mem_subs_trans (mem_subs_of_mem_parts (List.of_mem_zip hm).2) hu
    obtain ⟨hid', -, hparent', hslot', -⟩ :=
      (hf p.root (nodes_subset_of_mem_subs hp p.root_mem_nodes)).frame
    rw [root_mapNodes, hparent', hslot']
    exact ⟨(id_mapNodes hid').trans hid, hparent, hslot⟩
  · rw [nodes_mapNodes] at hn
    obtain ⟨m, hm, rfl⟩ := List.mem_map.1 hn
    exact (h.formed m hm).relabels (hf m hm)
  · rw [nodes_mapNodes] at hn
    obtain ⟨m, hm, rfl⟩ := List.mem_map.1 hn
    rw [(hf m hm).frame.2.2.2.2.2]
    exact h.unlocked m hm

end Plant

/-! ### Forests with other names -/

namespace Forest

variable {F G H : Forest} {lo next : Nat} {t : Plant} {f : Node → Node}

/-- A plant is held with other names once they have been set. -/
theorem Holds.mapNodes (ht : G.Holds t) (hH : ∀ n ∈ t.nodes, H.get? n.id = some (f n))
    (hf : ∀ n ∈ t.nodes, n.Relabels (f n)) : H.Holds (t.mapNodes f) := by
  induction ht with
  | @mk root parts get children held ih =>
    have hpart : ∀ p ∈ parts, ∀ n ∈ p.nodes, n ∈ (Plant.mk root parts).nodes := fun p hp n hn =>
      Plant.nodes_subset_of_mem_subs (Plant.mem_subs_of_mem_parts (t := .mk root parts) hp) hn
    have hroot := hf root (Plant.root_mem_nodes _)
    rw [Plant.mapNodes_mk]
    refine .mk (by rw [hroot.id_eq]; exact hH root (Plant.root_mem_nodes _)) ?_ fun q hq => ?_
    · rw [hroot.slots_eq, children, List.map_map]
      apply List.map_congr_left
      intro p hp
      exact (Plant.id_mapNodes (hf p.root (hpart p hp _ p.root_mem_nodes)).id_eq).symm
    · obtain ⟨p, hp, rfl⟩ := List.mem_map.1 hq
      exact ih p hp (fun n hn => hH n (hpart p hp n hn)) fun n hn => hf n (hpart p hp n hn)

/-- A plant that sprouts still does after names have been set on it. -/
theorem Sprouts.mapNodes (ht : F.Sprouts G lo next t)
    (hH : ∀ n ∈ t.nodes, H.get? n.id = some (f n)) (hsame : ∀ x, x ∉ t.ids → H.get? x = G.get? x)
    (hf : ∀ n ∈ t.nodes, n.Relabels (f n)) : F.Sprouts H lo next (t.mapNodes f) := by
  have hroot := (hf t.root t.root_mem_nodes).frame
  refine ⟨fun x hx => ?_, ht.held.mapNodes hH hf, ht.grown.mapNodes hf, ?_⟩
  · rw [← ht.below x hx]
    refine hsame x fun hx' => ?_
    have := ht.grown.le x hx'
    lia
  · unfold Plant.Free
    rw [Plant.root_mapNodes, hroot.2.2.1, hroot.2.2.2.1]
    exact ht.free

end Forest

/-! ### What a revision comes to -/

namespace Plant

mutual

/-- The ids of the nodes in a plant that a revision edits, by what it enters. -/
def reached (entered : Shape → Bool) : Plant → List NodeId
  | .mk root parts =>
    if entered (mk root parts).shape then reachedAll entered parts ++ [root.id] else []

/-- The ids of the nodes in some plants that a revision edits. -/
def reachedAll (entered : Shape → Bool) : List Plant → List NodeId
  | [] => []
  | t :: ts => t.reached entered ++ reachedAll entered ts

end

variable (entered : Shape → Bool)

theorem reachedAll_eq_flatMap (ts : List Plant) :
    reachedAll entered ts = ts.flatMap (reached entered) := by
  induction ts with
  | nil => rfl
  | cons t ts ih => rw [reachedAll, ih, List.flatMap_cons]

theorem reached_mk (root : Node) (parts : List Plant) : (mk root parts).reached entered =
    if entered (mk root parts).shape then parts.flatMap (reached entered) ++ [root.id] else [] := by
  rw [reached, reachedAll_eq_flatMap]

theorem reached_subset (t : Plant) : t.reached entered ⊆ t.ids := by
  induction t using induct with
  | step root parts ih =>
    intro x hx
    rw [reached_mk] at hx
    split at hx
    · rw [ids_mk]
      rcases List.mem_append.1 hx with hx | hx
      · obtain ⟨p, hp, hx⟩ := List.mem_flatMap.1 hx
        exact List.mem_append_left _ (List.mem_flatMap.2 ⟨p, hp, ih p hp hx⟩)
      · exact List.mem_append_right _ hx
    · cases hx

/-- Changes the nodes that a revision comes to. -/
def relabelling (g : Node → Node) (t : Plant) (n : Node) : Node :=
  if n.id ∈ t.reached entered then g n else n

variable {entered} {root : Node} {parts : List Plant} {t p : Plant} {g : Node → Node} {x : NodeId}

theorem relabels_relabelling (hg : ∀ n : Node, n.Relabels (g n)) (n : Node) :
    n.Relabels (t.relabelling entered g n) := by
  unfold relabelling
  split
  · exact hg n
  · exact .inl rfl

theorem relabelling_of_notMem {n : Node} (hn : n.id ∉ t.ids) : t.relabelling entered g n = n :=
  if_neg fun hmem => hn (reached_subset entered t hmem)

/-- A revision that enters a plant comes to a node of a part when it comes to it in the part. -/
theorem mem_reached_iff_of_mem_parts (hn : (mk root parts).ids.Nodup)
    (he : entered (mk root parts).shape) (hp : p ∈ parts) (hx : x ∈ p.ids) :
    x ∈ (mk root parts).reached entered ↔ x ∈ p.reached entered := by
  rw [reached_mk, if_pos he, List.mem_append, List.mem_flatMap, List.mem_singleton]
  constructor
  · rintro (⟨q, hq, hxq⟩ | rfl)
    · exact eq_of_mem_ids hn hp hq hx (reached_subset entered q hxq) ▸ hxq
    · exact absurd rfl (ne_id_of_mem_parts hn hp hx)
  · exact fun hx => .inl ⟨p, hp, hx⟩

/-- Changing the nodes that a revision comes to revises the shape. -/
theorem shape_mapNodes_relabelling {edit : Shape → Shape}
    (hg : ∀ n names parts, Shape.mk (g n).kind (g n).fields names parts =
      edit (.mk n.kind n.fields names parts))
    (hslots : ∀ n, (g n).slots = n.slots) (hn : t.ids.Nodup) :
    (t.mapNodes (t.relabelling entered g)).shape = t.shape.revise entered edit := by
  induction t using induct with
  | step root parts ih =>
    by_cases he : entered (mk root parts).shape
    · have hparts : (parts.map (mapNodes ((mk root parts).relabelling entered g))).map shape =
          (parts.map shape).map (Shape.revise entered edit) := by
        rw [List.map_map, List.map_map]
        apply List.map_congr_left
        intro p hp
        have hsub := mem_subs_of_mem_parts (t := mk root parts) hp
        rw [Function.comp_apply, Function.comp_apply, ← ih p hp (nodup_ids_of_mem_subs hn hsub)]
        congr 1
        apply mapNodes_congr
        intro n hmem
        have hx : n.id ∈ p.ids := mem_ids_iff_nodes.2 ⟨n, hmem, rfl⟩
        exact if_congr (mem_reached_iff_of_mem_parts hn he hp hx) rfl rfl
      have hroot : (mk root parts).relabelling entered g root = g root := by
        apply if_pos
        rw [reached_mk, if_pos he]
        simp
      rw [mapNodes_mk, shape_mk, hparts, hroot, hg, hslots]
      rw [shape_mk] at he ⊢
      rw [Shape.revise_mk, if_pos he]
    · have hself : ∀ n ∈ (mk root parts).nodes, (mk root parts).relabelling entered g n = n := by
        intro n _
        apply if_neg
        rw [reached_mk, if_neg he]
        exact List.not_mem_nil
      rw [mapNodes_congr hself, mapNodes_id]
      rw [shape_mk] at he ⊢
      rw [Shape.revise_mk, if_neg he]

end Plant

/-! ### Revisions that set names -/

namespace Revision

variable {r : Revision} {g : Node → Node} {entered : Shape → Bool} {H : Forest} {t : Plant}

/-- The nodes of some ids are changed, and no others. -/
def ChangesAt (g : Node → Node) (ids : List NodeId) (H H' : Forest) : Prop :=
  ∀ x, H'.get? x = if x ∈ ids then (H.get? x).map g else H.get? x

/-- A revision that sets names in each of some plants sets them in one after the other. -/
theorem exists_run_mapM {depth : Nat} {ps : List Plant}
    (hp : ∀ p ∈ ps, ∀ (H : Forest) (edited : List NodeId), H.Holds p → ∃ H' edited',
      ((r.runTo depth p.id).run edited).run H = pure ((p.id, edited'), H') ∧
        ChangesAt g (p.reached entered) H H')
    (hn : (ps.flatMap Plant.ids).Nodup) (hheld : ∀ p ∈ ps, H.Holds p) (edited : List NodeId) :
    ∃ H' edited', (((ps.map Plant.id).mapM fun child => r.runTo depth child).run edited).run H =
        pure ((ps.map Plant.id, edited'), H') ∧
      ChangesAt g (ps.flatMap (Plant.reached entered)) H H' := by
  induction ps generalizing H edited with
  | nil => exact ⟨H, edited, rfl, fun x => (if_neg List.not_mem_nil).symm⟩
  | cons p ps ih =>
    rw [List.flatMap_cons, List.nodup_append] at hn
    have hapart : ∀ x ∈ p.reached entered, x ∉ ps.flatMap Plant.ids := fun x hx hx' =>
      hn.2.2 x (Plant.reached_subset entered p hx) x hx' rfl
    obtain ⟨H', edited', hrun, hH'⟩ :=
      hp p List.mem_cons_self H edited (hheld p List.mem_cons_self)
    -- the plants that follow are as before
    have hheld' : ∀ q ∈ ps, H'.Holds q := by
      intro q hq
      apply (hheld q (List.mem_cons_of_mem _ hq)).congr
      intro x hx
      rw [hH', if_neg fun hx' => hapart x hx' (List.mem_flatMap.2 ⟨q, hq, hx⟩)]
    obtain ⟨H'', edited'', hrun', hH''⟩ :=
      ih (fun q hq => hp q (List.mem_cons_of_mem _ hq)) hn.2.1 hheld' edited'
    refine ⟨H'', edited'', ?_, fun x => ?_⟩
    · rw [List.map_cons, List.mapM_cons, StateT.run_bind, StateT.run_bind, hrun, pure_bind,
        StateT.run_bind, StateT.run_bind, hrun', pure_bind]
      rfl
    · rw [hH'', hH', List.flatMap_cons]
      by_cases hx : x ∈ p.reached entered
      · have hx' : x ∉ ps.flatMap (Plant.reached entered) := by
          intro hmem
          obtain ⟨q, hq, hmem⟩ := List.mem_flatMap.1 hmem
          exact hapart x hx (List.mem_flatMap.2 ⟨q, hq, Plant.reached_subset entered q hmem⟩)
        rw [if_neg hx', if_pos hx, if_pos (List.mem_append_left _ hx)]
      · simp only [List.mem_append, hx, false_or, if_false]

/-- A revision that sets names sets them on the nodes it comes to and leaves the plant where it is. -/
theorem exists_run_runTo (hr : ∀ n, r.edit n = pure (g n)) (hg : ∀ n : Node, n.Relabels (g n))
    (he : ∀ v ∈ t.subs, r.entered v.root = entered v.shape) (ht : H.Holds t) (hn : t.ids.Nodup)
    (hj : t.Joined) {depth : Nat} (hd : t.nodes.length ≤ depth) (edited : List NodeId) :
    ∃ H' edited', ((r.runTo depth t.id).run edited).run H = pure ((t.id, edited'), H') ∧
      ChangesAt g (t.reached entered) H H' := by
  induction depth generalizing H t edited with
  | zero =>
    obtain ⟨root, parts⟩ := t
    simp at hd
  | succ depth ih =>
    obtain ⟨root, parts⟩ := t
    obtain ⟨hget, hchildren, hheld⟩ := Forest.holds_mk_iff.1 ht
    obtain ⟨hnodup, -, hroot⟩ := List.nodup_append.1 (Plant.ids_mk root parts ▸ hn)
    have hentered := he _ (Plant.mem_subs_self _)
    rw [Plant.root_mk] at hentered
    rw [Plant.reached_mk, ← hentered, Plant.id_mk]
    cases henter : r.entered root with
    | true =>
      rw [run_runTo_of_entered hget henter, hchildren, if_pos rfl]
      have hpart : ∀ p ∈ parts, ∀ (H : Forest) (edited : List NodeId), H.Holds p → ∃ H' edited',
          ((r.runTo depth p.id).run edited).run H = pure ((p.id, edited'), H') ∧
            ChangesAt g (p.reached entered) H H' := by
        intro p hp H edited hheld
        have hsub := Plant.mem_subs_of_mem_parts (t := .mk root parts) hp
        have hlt := Plant.length_nodes_lt root hp
        exact ih (fun v hv => he v (Plant.mem_subs_trans hv hsub)) hheld
          (Plant.nodup_ids_of_mem_subs hn hsub) (hj.of_mem_subs hsub) (by lia) edited
      obtain ⟨H', edited', hrun, hH'⟩ := exists_run_mapM hpart hnodup hheld edited
      -- the children already point at the node
      have hpoint : H'.PointsTo (g root).id (g root).slots.entries := by
        intro e hmem
        rw [(hg root).slots_eq] at hmem
        obtain ⟨p, hp, hid, hparent, hslot⟩ := (hj _ (Plant.mem_subs_self _)).exists_part hmem
        rw [hH', ← hid, (hheld p hp).get?_id, (hg root).id_eq]
        split
        · obtain ⟨-, -, hparent', hslot', -⟩ := (hg p.root).frame
          exact ⟨_, rfl, hparent'.trans hparent, hslot'.trans hslot⟩
        · exact ⟨_, rfl, hparent, hslot⟩
      refine ⟨H'.insert (g root), root.id :: edited', ?_, fun x => ?_⟩
      · have hself : { root with slots := root.slots.withChildren (parts.map Plant.id) } = root := by
          rw [← hchildren, Slots.withChildren_children]
        simp only [hrun, pure_bind, hself, hr, StateT.run_pure, Editing.run_attachAll_self hpoint]
        rw [(hg root).id_eq]
      · rw [Forest.get?_insert, (hg root).id_eq]
        by_cases hx : root.id = x
        · subst hx
          rw [if_pos rfl, if_pos (by simp), hget]
          rfl
        · rw [if_neg hx, hH']
          simp [Ne.symm hx]
    | false =>
      rw [run_runTo_of_not_entered hget henter]
      exact ⟨H, edited, rfl, fun x => (if_neg List.not_mem_nil).symm⟩

/-- Running a revision that sets names leaves the plant where it is. -/
theorem exists_run_run (hr : ∀ n, r.edit n = pure (g n)) (hg : ∀ n : Node, n.Relabels (g n))
    (he : ∀ v ∈ t.subs, r.entered v.root = entered v.shape) (ht : H.Holds t) (hn : t.ids.Nodup)
    (hj : t.Joined) :
    ∃ H' edited, (r.run t.id).run H = pure (⟨t.id, edited⟩, H') ∧
      ChangesAt g (t.reached entered) H H' := by
  have hd := length_nodes_le_depth ht hn
  obtain ⟨H', edited, hrun, hH'⟩ := exists_run_runTo hr hg he ht hn hj hd []
  refine ⟨H', edited.reverse, ?_, hH'⟩
  rw [run_run, hrun, pure_bind]

end Revision

end TermForest
