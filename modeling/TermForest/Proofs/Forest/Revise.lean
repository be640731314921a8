import TermForest.Proofs.Forest.Sprout
import TermForest.Forest.Revise

/-!
# Revisions of plants

A revision of a grown plant gives a grown plant when its edits keep the place of a node or sprout a
plant instead. Nodes outside the plant stay as they are.
-/

namespace TermForest

open Supply (Meets)

/-! ### Revising shapes -/

namespace Shape

mutual

/-- A shape after a revision, by what is entered and how a node is edited whose parts are done. -/
def revise (entered : Shape → Bool) (edit : Shape → Shape) : Shape → Shape
  | .mk kind fields names parts =>
    if entered (.mk kind fields names parts) then
      edit (.mk kind fields names (reviseAll entered edit parts))
    else .mk kind fields names parts

/-- Some shapes after a revision. -/
def reviseAll (entered : Shape → Bool) (edit : Shape → Shape) : List Shape → List Shape
  | [] => []
  | t :: ts => t.revise entered edit :: reviseAll entered edit ts

end

variable (entered : Shape → Bool) (edit : Shape → Shape)

theorem reviseAll_eq_map (ts : List Shape) :
    reviseAll entered edit ts = ts.map (revise entered edit) := by
  induction ts with
  | nil => rfl
  | cons t ts ih => rw [reviseAll, ih, List.map_cons]

theorem revise_mk (kind : Kind) (fields : Fields) (names : List String) (parts : List Shape) :
    (mk kind fields names parts).revise entered edit =
      if entered (mk kind fields names parts) then
        edit (mk kind fields names (parts.map (revise entered edit)))
      else mk kind fields names parts := by
  rw [revise, reviseAll_eq_map]

end Shape

/-! ### Pointing plants at a parent -/

/-- Plants that are held by a node, each in a slot. -/
def Plant.heldIn (holder : NodeId) (entries : List (String × NodeId)) (ps : List Plant) :
    List Plant :=
  List.zipWith (fun e p => p.heldBy holder e.1) entries ps

namespace Plant

/-- What does not depend on the parent of a plant is the same of plants in slots. -/
theorem map_heldIn {α : Type} {f : Plant → α} (hf : ∀ p holder slot, f (heldBy p holder slot) = f p)
    (holder : NodeId) {entries : List (String × NodeId)} {ps : List Plant}
    (h : entries.map Prod.snd = ps.map id) : (heldIn holder entries ps).map f = ps.map f := by
  induction entries generalizing ps with
  | nil =>
    rw [List.map_nil, eq_comm, List.map_eq_nil_iff] at h
    subst h
    rfl
  | cons e entries ih =>
    cases ps with
    | nil => cases h
    | cons p ps =>
      rw [List.map_cons, List.map_cons, List.cons.injEq] at h
      rw [heldIn, List.zipWith_cons_cons, List.map_cons, List.map_cons, hf]
      exact congrArg _ (ih h.2)

theorem ids_heldIn (holder : NodeId) {entries : List (String × NodeId)} {ps : List Plant}
    (h : entries.map Prod.snd = ps.map id) :
    (heldIn holder entries ps).flatMap ids = ps.flatMap ids := by
  rw [List.flatMap_def, List.flatMap_def, map_heldIn ids_heldBy holder h]

theorem carries_heldIn {n : Node} {ps : List Plant} (h : n.slots.children = ps.map id) :
    n.Carries (heldIn n.id n.slots.entries ps) := by
  unfold Node.Carries
  unfold Slots.children at h
  generalize n.slots.entries = entries at h
  induction entries generalizing ps with
  | nil => exact .nil
  | cons e entries ih =>
    cases ps with
    | nil => cases h
    | cons p ps =>
      rw [List.map_cons, List.map_cons, List.cons.injEq] at h
      exact .cons ⟨h.1.symm, rfl, rfl⟩ (ih h.2)

theorem mem_heldIn {holder : NodeId} {entries : List (String × NodeId)} {ps : List Plant}
    {q : Plant} (h : q ∈ heldIn holder entries ps) :
    ∃ p ∈ ps, ∃ slot, q = p.heldBy holder slot := by
  obtain ⟨i, hi, rfl⟩ := List.mem_iff_getElem.1 h
  simp only [heldIn, List.getElem_zipWith]
  exact ⟨_, List.getElem_mem _, _, rfl⟩

end Plant

/-- What hangs at slots of a node is there and points at the node. -/
def Forest.PointsTo (F : Forest) (holder : NodeId) (entries : List (String × NodeId)) : Prop :=
  ∀ e ∈ entries, ∃ m, F.get? e.2 = some m ∧ m.parent = some holder ∧ m.parentSlot = some e.1

namespace Editing

variable {F G H : Forest} {lo next : Nat} {t u : Plant}

/-- Pointing the children of a node at its slots again changes nothing. -/
theorem run_attachAll_self {holder : NodeId} {entries : List (String × NodeId)}
    (he : G.PointsTo holder entries) :
    (entries.forM fun e => attach e.2 holder e.1).run G = pure ((), G) := by
  induction entries with
  | nil => rfl
  | cons e entries ih =>
    obtain ⟨m, hm, hp, hs⟩ := he e List.mem_cons_self
    have hsame : m.heldBy holder e.1 = m := by rw [Node.heldBy, ← hp, ← hs]
    have hget : G.get? m.id = some m := by rw [Forest.id_of_get? hm, hm]
    show (attach e.2 holder e.1 >>= fun _ =>
      entries.forM fun e => attach e.2 holder e.1).run G = _
    rw [StateT.run_bind, run_attach hm, pure_bind, hsame, Forest.insert_of_get? hget,
      ih fun e he' => he e (List.mem_cons_of_mem _ he')]

/-- Pointing plants at the slots of a node holds them there. -/
theorem exists_run_attachAll {holder : NodeId} {entries : List (String × NodeId)}
    {ps : List Plant} (he : entries.map Prod.snd = ps.map Plant.id) (hheld : ∀ p ∈ ps, H.Holds p)
    (hn : (ps.flatMap Plant.ids).Nodup) :
    ∃ H', (entries.forM fun e => attach e.2 holder e.1).run H = pure ((), H') ∧
      (∀ q ∈ Plant.heldIn holder entries ps, H'.Holds q) ∧
      ∀ x, x ∉ ps.map Plant.id → H'.get? x = H.get? x := by
  induction entries generalizing ps H with
  | nil => exact ⟨H, rfl, nofun, fun _ _ => rfl⟩
  | cons e entries ih =>
    cases ps with
    | nil => cases he
    | cons p ps =>
      rw [List.map_cons, List.map_cons, List.cons.injEq] at he
      rw [List.flatMap_cons, List.nodup_append] at hn
      obtain ⟨hp, hps, hd⟩ := hn
      have hrest : ∀ q ∈ ps, (H.insert (p.root.heldBy holder e.1)).Holds q := by
        intro q hq
        refine (hheld q (List.mem_cons_of_mem _ hq)).insert_of_notMem fun hx => ?_
        exact hd p.id p.id_mem_ids p.id (List.mem_flatMap.2 ⟨q, hq, hx⟩) rfl
      obtain ⟨H', hrun, hheld', hsame⟩ := ih he.2 hrest hps
      refine ⟨H', ?_, ?_, fun x hx => ?_⟩
      · rw [List.forM, StateT.run_bind, he.1,
          run_attach (hheld p List.mem_cons_self).get?_id, pure_bind, hrun]
      · intro q hq
        rw [Plant.heldIn, List.zipWith_cons_cons, List.mem_cons] at hq
        rcases hq with rfl | hq
        · refine ((hheld p List.mem_cons_self).heldBy hp holder e.1).congr fun x hx => hsame x ?_
          rw [Plant.ids_heldBy] at hx
          intro hx'
          obtain ⟨q, hq, rfl⟩ := List.mem_map.1 hx'
          exact hd q.id hx q.id (List.mem_flatMap.2 ⟨q, hq, q.id_mem_ids⟩) rfl
        · exact hheld' q hq
      · rw [List.map_cons, List.mem_cons, not_or] at hx
        rw [hsame x hx.2, Forest.get?_insert, if_neg]
        exact fun e => hx.1 e.symm

/-- Pointing plants at a node and adding the node makes one plant. -/
theorem exists_run_finish {hi : Nat} {n : Node} {ps : List Plant}
    (hc : n.slots.children = ps.map Plant.id) (hheld : ∀ p ∈ ps, H.Holds p)
    (hgrown : ∀ p ∈ ps, p.Grown lo hi) (hnodup : (ps.flatMap Plant.ids).Nodup)
    (hn : n.id ∉ ps.flatMap Plant.ids) (hlo : lo ≤ n.id) (hhi : n.id < hi) (hf : n.Formed hi)
    (hl : n.locked = false) :
    ∃ H', (n.slots.entries.forM fun e => attach e.2 n.id e.1).run H = pure ((), H') ∧
      ∃ qs, (H'.insert n).Holds (.mk n qs) ∧ (Plant.mk n qs).Grown lo hi ∧
        qs.flatMap Plant.ids = ps.flatMap Plant.ids ∧ qs.map Plant.shape = ps.map Plant.shape ∧
        ∀ x, x ∉ ps.flatMap Plant.ids → x ≠ n.id → (H'.insert n).get? x = H.get? x := by
  obtain ⟨H', hrun, hheld', hsame⟩ := exists_run_attachAll hc hheld hnodup
  have hids := Plant.ids_heldIn n.id hc
  have hcarries := Plant.carries_heldIn hc
  refine ⟨H', hrun, _, Forest.holds_insert hcarries.children hheld' (hids ▸ hn), ?_, hids,
    Plant.map_heldIn Plant.shape_heldBy n.id hc, ?_⟩
  · refine .of_parts (fun q hq => ?_) (hids ▸ hnodup) (hids ▸ hn) hlo hhi hcarries hf hl
    obtain ⟨p, hp, slot, rfl⟩ := Plant.mem_heldIn hq
    exact (hgrown p hp).heldBy _ _
  · intro x hx hne
    rw [Forest.get?_insert, if_neg (Ne.symm hne), hsame x fun hx' => hx ?_]
    obtain ⟨p, hp, rfl⟩ := List.mem_map.1 hx'
    exact List.mem_flatMap.2 ⟨p, hp, p.id_mem_ids⟩

end Editing

/-! ### Revising a plant -/

/-- Each edit of a revision leaves a node as it is or sprouts a plant instead, as the edit of shapes
says, wherever the forest is `F` below `lo`. -/
def Revision.Sprouting (r : Revision) (F : Forest) (lo : Nat) (edit : Shape → Shape) : Prop :=
  ∀ n G next, lo ≤ next → (∀ x : Nat, x < lo → G.get? x = F.get? x) →
    ((r.edit n).run G).Meets next
      (fun o next' => (o = (n, G) ∧ ∀ names parts,
          edit (.mk n.kind n.fields names parts) = .mk n.kind n.fields names parts) ∨
        ∃ u : Plant, o.1 = u.root ∧ G.Sprouts o.2 next next' u ∧
          ∀ names parts, edit (.mk n.kind n.fields names parts) = u.shape)
      fun _ => False

/-- `H` is `G` outside some plants, and holds others instead, of the ids of these plants and of new
ones. -/
structure Forest.Revises (G H : Forest) (lo next next' : Nat) (ps us : List Plant) : Prop where
  held : ∀ u ∈ us, H.Holds u
  grown : ∀ u ∈ us, u.Grown lo next'
  nodup : (us.flatMap Plant.ids).Nodup
  ids : ∀ x : Nat, x ∈ us.flatMap Plant.ids → x ∈ ps.flatMap Plant.ids ∨ next ≤ x
  same : ∀ x : Nat, x < next → x ∉ ps.flatMap Plant.ids → H.get? x = G.get? x

namespace Forest.Revises

variable {G H I : Forest} {lo next mid next' : Nat} {p u : Plant} {ps us : List Plant}

theorem mono (h : G.Revises H lo next mid ps us) (hmid : mid ≤ next') :
    G.Revises H lo next next' ps us where
  held := h.held
  grown u hu := (h.grown u hu).mono (Nat.le_refl _) hmid
  nodup := h.nodup
  ids := h.ids
  same := h.same

/-- Nodes below the ids of the plants stay as they are. -/
theorem below (h : G.Revises H lo next mid ps us) (hps : ∀ p ∈ ps, p.Grown lo next)
    (hlo : lo ≤ next) {x : Nat} (hx : x < lo) : H.get? x = G.get? x := by
  apply h.same x (by lia)
  intro hmem
  obtain ⟨p, hp, hmem⟩ := List.mem_flatMap.1 hmem
  have hle := (hps p hp).le x hmem
  lia

/-- Plants that are revised one after the other do not get into each other's way. -/
theorem cons (hp : G.Revises H lo next mid [p] [u]) (hps : H.Revises I lo mid next' ps us)
    (hgrown : ∀ q ∈ p :: ps, q.Grown lo next) (hd : ∀ x ∈ p.ids, x ∉ ps.flatMap Plant.ids)
    (hmid : next ≤ mid) (hnext : mid ≤ next') :
    G.Revises I lo next next' (p :: ps) (u :: us) := by
  obtain ⟨hpheld, hpgrown, -, hpids, hpsame⟩ := hp
  simp only [List.mem_singleton, forall_eq, List.flatMap_cons, List.flatMap_nil,
    List.append_nil] at hpheld hpgrown hpids hpsame
  have hlt : ∀ x : Nat, x ∈ ps.flatMap Plant.ids → x < next := by
    intro x hx
    obtain ⟨q, hq, hx⟩ := List.mem_flatMap.1 hx
    exact (hgrown q (List.mem_cons_of_mem _ hq)).lt x hx
  have hapart : ∀ x : Nat, x ∈ u.ids → x ∉ ps.flatMap Plant.ids := by
    intro x hx hx'
    rcases hpids x hx with hx'' | hx''
    · exact hd x hx'' hx'
    · have := hlt x hx'
      lia
  refine ⟨?_, ?_, ?_, ?_, ?_⟩
  · intro v hv
    rcases List.mem_cons.1 hv with rfl | hv
    · exact hpheld.congr fun x hx => hps.same x (hpgrown.lt x hx) (hapart x hx)
    · exact hps.held v hv
  · intro v hv
    rcases List.mem_cons.1 hv with rfl | hv
    · exact hpgrown.mono (Nat.le_refl _) hnext
    · exact hps.grown v hv
  · rw [List.flatMap_cons, List.nodup_append]
    refine ⟨hpgrown.nodup, hps.nodup, fun a ha b hb e => ?_⟩
    subst e
    rcases hps.ids a hb with hx | hx
    · exact hapart a ha hx
    · have := hpgrown.lt a ha
      lia
  · intro x hx
    rw [List.flatMap_cons, List.mem_append] at hx ⊢
    rcases hx with hx | hx
    · exact (hpids x hx).imp .inl id
    · rcases hps.ids x hx with hx | hx
      · exact .inl (.inr hx)
      · exact .inr (by lia)
  · intro x hx hx'
    rw [List.flatMap_cons, List.mem_append, not_or] at hx'
    rw [hps.same x (by lia) hx'.2, hpsame x hx hx'.1]

end Forest.Revises

namespace Revision

theorem run_forM_lift {α : Type} (f : α → Editing PUnit) (as : List α) (edited : List NodeId) :
    (as.forM fun a => (monadLift (f a) : StateT (List NodeId) Editing PUnit)).run edited =
      as.forM f >>= fun _ => pure ((), edited) := by
  induction as with
  | nil => simp [List.forM]
  | cons a as ih =>
    simp only [List.forM, StateT.run_bind, StateT.run_monadLift, monadLift_self, bind_assoc,
      pure_bind, ih]

section runTo

variable {r : Revision} {G : Forest} {depth : Nat} {n : Node}

/-- A node that is not entered is left alone. -/
theorem run_runTo_of_not_entered (hget : G.get? n.id = some n) (h : r.entered n = false)
    (edited : List NodeId) :
    ((r.runTo (depth + 1) n.id).run edited).run G = pure ((n.id, edited), G) := by
  simp [runTo, StateT.run_bind, liftM, StateT.run_monadLift, Editing.run_find hget, h]

/-- A node that is entered is edited once its children are done, the children of what the edit gives are
pointed at it, and it is put in. -/
theorem run_runTo_of_entered (hget : G.get? n.id = some n) (h : r.entered n = true)
    (edited : List NodeId) :
    ((r.runTo (depth + 1) n.id).run edited).run G =
      ((n.slots.children.mapM fun child => r.runTo depth child).run edited).run G >>= fun o =>
        (r.edit { n with slots := n.slots.withChildren o.1.1 }).run o.2 >>= fun p =>
          (p.1.slots.entries.forM fun e => Editing.attach e.2 p.1.id e.1).run p.2 >>= fun q =>
            pure ((p.1.id, n.id :: o.1.2), q.2.insert p.1) := by
  simp only [runTo, StateT.run_bind, liftM, StateT.run_monadLift, monadLift_self, StateT.run_pure,
    Editing.run_find hget, pure_bind, h, if_true, bind_assoc, run_forM_lift, Editing.run_insert,
    StateT.run_modify]

theorem run_run (id : NodeId) : (r.run id).run G =
    ((r.runTo ((G.size + 1) * (G.size + 1)) id).run []).run G >>= fun o =>
      pure (⟨o.1.1, o.1.2.reverse⟩, o.2) := by
  simp only [run, StateT.run_bind, StateT.run_get, pure_bind, StateT.run_pure]

end runTo

/-- A revision goes deeper than a plant that has no id twice is high. -/
theorem length_nodes_le_depth {G : Forest} {t : Plant} (h : G.Holds t) (hn : t.ids.Nodup) :
    t.nodes.length ≤ (G.size + 1) * (G.size + 1) :=
  calc t.nodes.length ≤ G.size + 1 := Nat.le_succ_of_le (h.length_nodes_le hn)
    _ ≤ (G.size + 1) * (G.size + 1) := Nat.le_mul_of_pos_left _ (Nat.succ_pos _)

/-- What is left to do once a node has been edited: the node is put above the plants at its slots. -/
theorem meets_finish {G H : Forest} {lo next mid : Nat} {t : Plant} {n : Node} {ps : List Plant}
    (hc : n.slots.children = ps.map Plant.id) (hheld : ∀ p ∈ ps, H.Holds p)
    (hgrown : ∀ p ∈ ps, p.Grown lo mid) (hnodup : (ps.flatMap Plant.ids).Nodup)
    (hn : n.id ∉ ps.flatMap Plant.ids) (hlo : lo ≤ n.id) (hhi : n.id < mid) (hf : n.Formed mid)
    (hl : n.locked = false) (hids : ∀ x : Nat, x ∈ ps.flatMap Plant.ids → x ∈ t.ids ∨ next ≤ x)
    (hid : n.id ∈ t.ids ∨ next ≤ n.id)
    (hsame : ∀ x : Nat, x < next → x ∉ t.ids → H.get? x = G.get? x)
    (hfree : t.Free → n.parent = none ∧ n.parentSlot = none) (edited : List NodeId) :
    ((n.slots.entries.forM fun e => Editing.attach e.2 n.id e.1).run H >>= fun p =>
      (pure ((n.id, edited), p.2.insert n) :
        Supply Fault ((NodeId × List NodeId) × Forest))).Meets mid
      (fun o next' => ∃ u : Plant, o.1.1 = u.id ∧ G.Revises o.2 lo next next' [t] [u] ∧
        (t.Free → u.Free) ∧ u.shape = .mk n.kind n.fields n.slots.names (ps.map Plant.shape))
      fun _ => False := by
  obtain ⟨H', hrun, qs, hheld', hgrown', hqs, hshapes, hsame'⟩ :=
    Editing.exists_run_finish hc hheld hgrown hnodup hn hlo hhi hf hl
  rw [hrun, pure_bind]
  refine .pure ⟨.mk n qs, rfl, ⟨?_, ?_, ?_, ?_, ?_⟩, hfree, by rw [Plant.shape_mk, hshapes]⟩
  · simpa using hheld'
  · simpa using hgrown'
  · simpa using hgrown'.nodup
  · intro x hx
    simp only [List.flatMap_cons, List.flatMap_nil, List.append_nil, Plant.ids_mk, hqs,
      List.mem_append, List.mem_singleton] at hx ⊢
    rcases hx with hx | rfl
    · exact hids x hx
    · exact hid
  · intro x hx hx'
    simp only [List.flatMap_cons, List.flatMap_nil, List.append_nil] at hx'
    rw [hsame' x, hsame x hx hx']
    · intro hmem
      rcases hids x hmem with h | h
      · exact hx' h
      · lia
    · rintro rfl
      rcases hid with h | h
      · exact hx' h
      · lia

section finish

variable {G H I : Forest} {lo next mid next' : Nat} {root : Node} {parts us : List Plant} {u : Plant}

/-- A node that stays stands above the plants that its children have become. -/
theorem meets_finish_root (hgrown : (Plant.mk root parts).Grown lo next)
    (hus : G.Revises H lo next mid parts us) (hsize : (us.map Plant.id).length = root.slots.size)
    (hmid : next ≤ mid) (edited : List NodeId) :
    (((root.slots.withChildren (us.map Plant.id)).entries.forM fun e =>
        Editing.attach e.2 root.id e.1).run H >>= fun p =>
      (pure ((root.id, edited),
          p.2.insert { root with slots := root.slots.withChildren (us.map Plant.id) }) :
        Supply Fault ((NodeId × List NodeId) × Forest))).Meets mid
      (fun o next' => ∃ u : Plant, o.1.1 = u.id ∧
        G.Revises o.2 lo next next' [.mk root parts] [u] ∧
        ((Plant.mk root parts).Free → u.Free) ∧
        u.shape = .mk root.kind root.fields root.slots.names (us.map Plant.shape))
      fun _ => False := by
  have hlo := hgrown.le root.id (Plant.id_mem_ids _)
  have hlt := hgrown.lt root.id (Plant.id_mem_ids _)
  have hroot : root.id ∉ us.flatMap Plant.ids := by
    intro hx
    rcases hus.ids _ hx with hx | hx
    · obtain ⟨-, -, hroot⟩ := List.nodup_append.1 (Plant.ids_mk root parts ▸ hgrown.nodup)
      exact hroot _ hx _ List.mem_cons_self rfl
    · lia
  have hformed : ({ root with slots := root.slots.withChildren (us.map Plant.id) } : Node).Formed
      mid :=
    (hgrown.formed.root.mono hmid).congr rfl rfl (Slots.names_withChildren hsize)
  rw [← Slots.names_withChildren hsize]
  refine meets_finish (n := { root with slots := root.slots.withChildren (us.map Plant.id) })
    (Slots.children_withChildren hsize) hus.held hus.grown hus.nodup hroot hlo (by lia) hformed
    (hgrown.unlocked root (Plant.root_mem_nodes _)) ?_ (.inl (Plant.id_mem_ids _)) ?_ id _
  · intro x hx
    rw [Plant.ids_mk]
    exact (hus.ids x hx).imp (List.mem_append_left _) id
  · intro x hx hx'
    rw [Plant.ids_mk, List.mem_append, not_or] at hx'
    exact hus.same x hx hx'.1

/-- A plant that has sprouted stands where another one stood. -/
theorem meets_finish_sprout {t : Plant} (hu : H.Sprouts I mid next' u) (hlo : lo ≤ mid)
    (hmid : next ≤ mid) (hsame : ∀ x : Nat, x < next → x ∉ t.ids → H.get? x = G.get? x)
    (edited : List NodeId) :
    ((u.root.slots.entries.forM fun e => Editing.attach e.2 u.root.id e.1).run I >>= fun p =>
      (pure ((u.root.id, edited), p.2.insert u.root) :
        Supply Fault ((NodeId × List NodeId) × Forest))).Meets next'
      (fun o next' => ∃ v : Plant, o.1.1 = v.id ∧ G.Revises o.2 lo next next' [t] [v] ∧
        (t.Free → v.Free) ∧ v.shape = u.shape)
      fun _ => False := by
  obtain ⟨n, ps⟩ := u
  obtain ⟨hcarries, -⟩ := Plant.joined_mk_iff.1 hu.grown.joined
  obtain ⟨hps, -, hn⟩ := List.nodup_append.1 (Plant.ids_mk n ps ▸ hu.grown.nodup)
  have hnlo := hu.grown.le n.id (Plant.id_mem_ids _)
  have hpart : ∀ p ∈ ps, p.Grown lo next' := fun p hp =>
    (hu.grown.of_mem_subs (Plant.mem_subs_of_mem_parts hp)).mono hlo (Nat.le_refl _)
  rw [Plant.shape_mk]
  refine meets_finish hcarries.children (Forest.holds_mk_iff.1 hu.held).2.2 hpart hps
    (fun hx => hn _ hx _ List.mem_cons_self rfl) (Nat.le_trans hlo hnlo)
    (hu.grown.lt n.id (Plant.id_mem_ids _)) hu.grown.formed.root
    (hu.grown.unlocked n (Plant.root_mem_nodes _)) ?_ (.inr (Nat.le_trans hmid hnlo))
    (fun x hx hx' => (hu.below x (by lia)).trans (hsame x hx hx')) (fun _ => hu.free) _
  intro x hx
  have hxlo := hu.grown.le x (Plant.ids_mk n ps ▸ List.mem_append_left _ hx)
  exact .inr (Nat.le_trans hmid hxlo)

end finish

variable {r : Revision} {F G : Forest} {lo next : Nat} {t : Plant} {entered : Shape → Bool}
  {edit : Shape → Shape}

/-- Going through a plant to some depth revises it, wherever it is grown beside the nodes of `F`: it
gives a grown plant of the revised shape, whose root has the parent of the old one or none. -/
def Revises (r : Revision) (F : Forest) (lo : Nat) (entered : Shape → Bool) (edit : Shape → Shape)
    (depth : Nat) (t : Plant) : Prop :=
  ∀ (G : Forest) (next : Nat) (edited : List NodeId), lo ≤ next →
    (∀ x : Nat, x < lo → G.get? x = F.get? x) → G.Holds t → t.Grown lo next →
    (((r.runTo depth t.id).run edited).run G).Meets next
      (fun o next' => ∃ u : Plant, o.1.1 = u.id ∧ G.Revises o.2 lo next next' [t] [u] ∧
        (t.Free → u.Free) ∧ u.shape = t.shape.revise entered edit)
      fun _ => False

/-- Plants with no id in common are revised one after the other. -/
theorem meets_mapM {depth : Nat} {ps : List Plant}
    (hr : ∀ p ∈ ps, r.Revises F lo entered edit depth p) (edited : List NodeId) (hlo : lo ≤ next)
    (hG : ∀ x : Nat, x < lo → G.get? x = F.get? x) (hheld : ∀ p ∈ ps, G.Holds p)
    (hgrown : ∀ p ∈ ps, p.Grown lo next) (hnodup : (ps.flatMap Plant.ids).Nodup) :
    ((((ps.map Plant.id).mapM fun child => r.runTo depth child).run edited).run G).Meets next
      (fun o next' => ∃ us : List Plant, o.1.1 = us.map Plant.id ∧
        us.map Plant.shape = (ps.map Plant.shape).map (Shape.revise entered edit) ∧
        G.Revises o.2 lo next next' ps us)
      fun _ => False := by
  induction ps generalizing G next edited with
  | nil => exact .pure ⟨[], rfl, rfl, nofun, nofun, .nil, nofun, fun _ _ _ => rfl⟩
  | cons p ps ih =>
    rw [List.flatMap_cons, List.nodup_append] at hnodup
    obtain ⟨-, hnodup, hdisjoint⟩ := hnodup
    have happart : ∀ x ∈ p.ids, x ∉ ps.flatMap Plant.ids :=
      fun x hx hx' => hdisjoint x hx x hx' rfl
    rw [List.map_cons, List.mapM_cons, StateT.run_bind, StateT.run_bind]
    refine (hr p List.mem_cons_self G next edited hlo hG (hheld p List.mem_cons_self)
      (hgrown p List.mem_cons_self)).bind ?_
    rintro ⟨⟨_, edited⟩, H⟩ mid hmid ⟨u, rfl, hu, -, hushape⟩
    have hsame : ∀ x : Nat, x < next → x ∉ p.ids → H.get? x = G.get? x := fun x hx hx' =>
      hu.same x hx (by simpa using hx')
    have hHlo : ∀ x : Nat, x < lo → H.get? x = F.get? x := by
      intro x hx
      rw [hu.below (by simpa using hgrown p List.mem_cons_self) hlo hx, hG x hx]
    have hheld' : ∀ q ∈ ps, H.Holds q := by
      intro q hq
      have hq' := List.mem_cons_of_mem p hq
      refine (hheld q hq').congr fun x hx => hsame x ((hgrown q hq').lt x hx) fun hx' => ?_
      exact happart x hx' (List.mem_flatMap.2 ⟨q, hq, hx⟩)
    have hgrown' : ∀ q ∈ ps, q.Grown lo mid := fun q hq =>
      (hgrown q (List.mem_cons_of_mem _ hq)).mono (Nat.le_refl _) hmid
    dsimp only
    rw [StateT.run_bind, StateT.run_bind]
    refine (ih (fun q hq => hr q (List.mem_cons_of_mem _ hq)) edited (by lia) hHlo hheld' hgrown'
      hnodup).bind ?_
    rintro ⟨⟨_, edited'⟩, I⟩ next' hnext ⟨us, rfl, hshapes, hus⟩
    exact .pure ⟨u :: us, rfl, by simp [hushape, hshapes], hu.cons hus hgrown happart hmid hnext⟩

/-- A revision revises plants that are no higher than the depth it goes to. -/
theorem Sprouting.revises (hr : r.Sprouting F lo edit) {depth : Nat} (hd : t.nodes.length ≤ depth)
    (he : ∀ v ∈ t.subs, r.entered v.root = entered v.shape) :
    r.Revises F lo entered edit depth t := by
  induction depth generalizing t with
  | zero =>
    obtain ⟨root, parts⟩ := t
    simp at hd
  | succ depth ih =>
    obtain ⟨root, parts⟩ := t
    intro G next edited hlo hG hheld hgrown
    obtain ⟨hget, hchildren, hparts⟩ := Forest.holds_mk_iff.1 hheld
    obtain ⟨hnodup, -⟩ := List.nodup_append.1 (Plant.ids_mk root parts ▸ hgrown.nodup)
    have hsub : ∀ p ∈ parts, p ∈ (Plant.mk root parts).subs := fun p hp =>
      Plant.mem_subs_mk.2 (.inr ⟨p, hp, p.mem_subs_self⟩)
    have hentered := he _ (Plant.mem_subs_self _)
    rw [Plant.root_mk, Plant.shape_mk] at hentered
    rw [Plant.shape_mk, Shape.revise_mk, ← hentered, Plant.id_mk]
    cases henter : r.entered root with
    | true =>
      rw [run_runTo_of_entered hget henter, hchildren, if_pos rfl]
      have hrevises : ∀ p ∈ parts, r.Revises F lo entered edit depth p := by
        intro p hp
        have hlt := Plant.length_nodes_lt root hp
        exact ih (by lia) fun v hv => he v (Plant.mem_subs_trans hv (hsub p hp))
      have hpart : ∀ p ∈ parts, p.Grown lo next := fun p hp => hgrown.of_mem_subs (hsub p hp)
      refine (meets_mapM hrevises edited hlo hG hparts hpart hnodup).bind ?_
      rintro ⟨⟨_, edited'⟩, H⟩ mid hmid ⟨us, rfl, hshapes, hus⟩
      have hlen : us.length = parts.length := by simpa using congrArg List.length hshapes
      have hHlo : ∀ x : Nat, x < lo → H.get? x = F.get? x := by
        intro x hx
        rw [hus.below hpart hlo hx, hG x hx]
      refine (hr _ H mid (by lia) hHlo).bind ?_
      rintro ⟨n, I⟩ next' hnext hedit
      rcases hedit with ⟨hedit, hshape⟩ | ⟨u, rfl, hu, hshape⟩
      · -- the node stays, above the plants that its children have become
        cases hedit
        have hsize : (us.map Plant.id).length = root.slots.size := by
          rw [← Slots.length_children, hchildren, List.length_map, List.length_map, hlen]
        rw [hshape, ← hshapes]
        exact meets_finish_root hgrown (hus.mono hnext) hsize (by lia) _
      · -- another plant stands instead
        rw [hshape]
        refine meets_finish_sprout hu (by lia) hmid (fun x hx hx' => ?_) _
        rw [Plant.ids_mk, List.mem_append, not_or] at hx'
        exact hus.same x hx hx'.1
    | false =>
      rw [run_runTo_of_not_entered hget henter]
      refine .pure ⟨.mk root parts, rfl, ⟨?_, ?_, ?_, fun x hx => .inl hx, fun _ _ _ => rfl⟩, id,
        Plant.shape_mk ..⟩
      · simpa using hheld
      · simpa using hgrown
      · simpa using hgrown.nodup

/-- Revising a plant that sprouts gives a plant that sprouts, of the revised shape. -/
theorem meets_run (hr : r.Sprouting F lo edit)
    (he : ∀ v ∈ t.subs, r.entered v.root = entered v.shape) (ht : F.Sprouts G lo next t)
    (hlo : lo ≤ next) :
    ((r.run t.id).run G).Meets next
      (fun o next' => ∃ u : Plant, o.1.root = u.id ∧ F.Sprouts o.2 lo next' u ∧
        u.shape = t.shape.revise entered edit)
      fun _ => False := by
  have hd := length_nodes_le_depth ht.held ht.grown.nodup
  rw [run_run]
  refine (hr.revises hd he G next [] hlo ht.below ht.held ht.grown).bind ?_
  rintro ⟨⟨_, edited⟩, H⟩ next' - ⟨u, rfl, hu, hfree, hshape⟩
  refine .pure ⟨u, rfl, ⟨fun x hx => ?_, hu.held u (by simp), hu.grown u (by simp),
    hfree ht.free⟩, hshape⟩
  rw [hu.below (by simpa using ht.grown) hlo hx, ht.below x hx]

end Revision

end TermForest
