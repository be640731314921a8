import TermForest.Forest.Revise
import TermForest.Proofs.Mirror.Tree

/-!
# Mirrored edits

Edits of mirrored forests at ids that go together run alike: they give ids and nodes that go together,
and leave mirrored forests.
-/

namespace TermForest

namespace Mirror

variable {M : Mirror} {F F' : Forest} {x y p q : NodeId} {n n' : Node}

/-- Edits of forests, compared by a mirror. -/
def edits (M : Mirror) : Relator Editing := (M.takes Fault).stateT M.Reflects

/-! ### Changed nodes -/

theorem Nodes.ids (h : M.Nodes n n') : M.Ids n.id n'.id := by
  rw [h.1]
  exact ⟨rfl, h.2.id⟩

theorem Nodes.heldBy (h : M.Nodes n n') (hp : M.Ids p q) (slot : String) :
    M.Nodes (n.heldBy p slot) (n'.heldBy q slot) := by
  rw [h.1, hp.1]
  exact ⟨rfl, h.2.id, h.2.children⟩

theorem Nodes.withField (h : M.Nodes n n') (key : String) (value : Datum) :
    M.Nodes (n.withField key value) (n'.withField key value) := by
  rw [h.1]
  exact ⟨rfl, h.2.id, h.2.children⟩

theorem Nodes.withSlot (h : M.Nodes n n') (slot : String) (hx : M.Ids x y) :
    M.Nodes (n.withSlot slot x) (n'.withSlot slot y) := by
  rw [h.1, hx.1]
  refine ⟨(Node.mapIds_withSlot ..).symm, h.2.id, fun c hc => ?_⟩
  obtain ⟨name, hname⟩ := Slots.mem_children_iff.1 hc
  change (n.slots.set slot x).get? name = some c at hname
  rw [Slots.get?_set] at hname
  split at hname
  · cases hname
    exact hx.2
  · exact h.2.children c (Slots.mem_children_iff.2 ⟨name, hname⟩)

theorem Nodes.withChildren (h : M.Nodes n n') {cs cs' : List NodeId}
    (hcs : List.Forall₂ M.Ids cs cs') :
    M.Nodes { n with slots := n.slots.withChildren cs }
      { n' with slots := n'.slots.withChildren cs' } := by
  obtain ⟨rfl, hseen⟩ := eq_map_of_forall₂ hcs
  rw [h.1]
  refine ⟨?_, h.2.id, fun c hc => hseen c (Slots.mem_of_mem_withChildren hc)⟩
  simp only [Node.mapIds, Slots.map_withChildren]

/-- A new node without children. -/
theorem Ids.leaf (hx : M.Ids x y) (k : Kind) :
    M.Nodes { id := x, kind := k } { id := y, kind := k } := by
  rw [hx.1]
  exact ⟨rfl, hx.2, nofun⟩

/-! ### Operations -/

theorem edits_lift {α β : Type} {P : α → β → Prop} {x : Except Fault α} {y : Except Fault β}
    (h : Agree M.strict P x y) : M.edits.rel P (liftM x) (liftM y) :=
  Relator.rel_lift _ (Relator.takes_lift h)

theorem edits_newId : M.edits.rel M.Ids Editing.newId Editing.newId :=
  Relator.rel_lift _ takes_take

theorem edits_find (hx : M.Ids x y) : M.edits.rel M.Nodes (Editing.find x) (Editing.find y) :=
  M.edits.rel_bind (Relator.rel_get _) fun _ _ hF => edits_lift (hF.find hx)

theorem edits_insert (h : M.Nodes n n') :
    M.edits.rel (fun _ _ => True) (Editing.insert n) (Editing.insert n') :=
  Relator.rel_modify _ fun _ _ hF => hF.insert h

theorem edits_attach (hx : M.Ids x y) (hp : M.Ids p q) (slot : String) :
    M.edits.rel (fun _ _ => True) (Editing.attach x p slot) (Editing.attach y q slot) := by
  refine M.edits.rel_bind (Relator.rel_get _) fun F F' hF => ?_
  refine M.edits.rel_bind (P := M.Reflects) (edits_lift ?_) fun _ _ hF => Relator.rel_set _ hF
  exact (hF.find hx).bind fun _ _ hn => .ok (hF.insert (hn.heldBy hp slot))

theorem edits_fill (h : M.Nodes n n') (slot : String) (hx : M.Ids x y) :
    M.edits.rel M.Nodes (Editing.fill n slot x) (Editing.fill n' slot y) :=
  M.edits.rel_bind (edits_attach hx h.ids slot) fun _ _ _ => M.edits.rel_pure (h.withSlot slot hx)

theorem takes_copy (h : M.Reflects F F') (hx : M.Ids x y) (locked : Bool) :
    (M.takes Fault).rel (fun c c' => M.Nodes c.root c'.root ∧ M.Reflects c.forest c'.forest)
      (F.copy x locked) (F'.copy y locked) := by
  refine (M.takes Fault).rel_bind ((h.tree hx).clone locked none [] [] .nil) ?_
  rintro ⟨root, clones⟩ ⟨root', clones'⟩ ⟨hroot, hclones⟩
  exact (M.takes Fault).rel_pure
    ⟨hroot, (h.insertAll (List.forall₂_reverse_iff.2 hclones)).insert hroot⟩

theorem edits_copy (hx : M.Ids x y) (locked : Bool) :
    M.edits.rel M.Nodes (Editing.copy x locked) (Editing.copy y locked) := by
  refine M.edits.rel_bind (Relator.rel_get _) fun F F' hF => ?_
  refine M.edits.rel_bind (Relator.rel_lift _ (takes_copy hF hx locked)) fun c c' hc => ?_
  exact M.edits.rel_bind (Relator.rel_set _ hc.2) fun _ _ _ => M.edits.rel_pure hc.1

theorem edits_copyOf (hx : M.Ids x y) :
    M.edits.rel M.Ids (Editing.copyOf x) (Editing.copyOf y) :=
  M.edits.rel_bind (edits_copy hx false) fun _ _ hn => M.edits.rel_pure hn.ids

theorem edits_apply (hp : M.Ids p q) (hx : M.Ids x y) :
    M.edits.rel M.Ids (Editing.apply p x) (Editing.apply q y) := by
  refine M.edits.rel_bind edits_newId fun _ _ hid => ?_
  refine M.edits.rel_bind (edits_fill (hid.leaf .apply) "callee" hp) fun _ _ hn => ?_
  refine M.edits.rel_bind (edits_fill hn "argument" hx) fun _ _ hn => ?_
  exact M.edits.rel_bind (edits_insert hn) fun _ _ _ => M.edits.rel_pure hn.ids

/-! ### Revisions -/

/-- Revisions that enter the same nodes and edit them alike. -/
structure Revisions (M : Mirror) (r r' : Revision) : Prop where
  entered : ∀ n n', M.Nodes n n' → r'.entered n' = r.entered n
  edit : ∀ n n', M.Nodes n n' → M.edits.rel M.Nodes (r.edit n) (r'.edit n')

variable {r r' : Revision}

/-- Edits that list what they edit, compared by a mirror; the lists do not count. -/
def revises (M : Mirror) : Relator (StateT (List NodeId) Editing) :=
  M.edits.stateT fun _ _ => True

theorem Revisions.runTo (h : M.Revisions r r') {depth depth' : Nat}
    (hd : M.strict → depth = depth') (hx : M.Ids x y) :
    M.revises.rel M.Ids (r.runTo depth x) (r'.runTo depth' y) := by
  induction depth generalizing depth' x y with
  | zero =>
    by_cases hs : M.strict
    · rw [← hd hs]
      exact fun _ _ _ _ _ _ _ => .fatal nofun nofun
    · exact fun _ _ _ _ _ _ _ => .left hs nofun
  | succ depth ih =>
    cases depth' with
    | zero => exact fun _ _ _ _ _ _ _ => .right (fun hs => nomatch hd hs) nofun
    | succ depth' =>
      unfold Revision.runTo
      refine M.revises.rel_bind (Relator.rel_lift _ (edits_find hx)) fun n n' hn => ?_
      refine M.revises.rel_ite (by rw [h.entered n n' hn]) (fun _ _ => ?_) fun _ _ =>
        M.revises.rel_pure hx
      have hchildren := hn.children.imp fun c c' hc =>
        ih (fun hs => Nat.succ.inj (hd hs)) hc
      refine M.revises.rel_bind (M.revises.rel_mapM hchildren) fun cs cs' hcs => ?_
      refine M.revises.rel_bind (Relator.rel_lift _ (h.edit _ _ (hn.withChildren hcs)))
        fun m m' hm => ?_
      refine M.revises.rel_bind (M.revises.rel_forM ?_) fun _ _ _ => ?_
      · rw [hm.1, Node.slots_mapIds, Slots.entries_map, List.forall₂_map_right_iff,
          List.forall₂_same]
        exact fun e he => Relator.rel_lift _
          (edits_attach ⟨rfl, hm.2.children e.2 (List.mem_map_of_mem he)⟩ ⟨rfl, hm.2.id⟩ e.1)
      refine M.revises.rel_bind (Relator.rel_lift _ (edits_insert hm)) fun _ _ _ => ?_
      refine M.revises.rel_bind (Relator.rel_modify _ fun _ _ _ => trivial) fun _ _ _ => ?_
      exact M.revises.rel_pure hm.ids

theorem Revisions.run (h : M.Revisions r r') (hx : M.Ids x y) :
    M.edits.rel (fun o o' => M.Ids o.root o'.root) (r.run x) (r'.run y) := by
  refine M.edits.rel_bind (Relator.rel_get _) fun F F' hF => ?_
  refine M.edits.rel_bind (h.runTo (fun hs => by rw [hF.size_eq hs]) hx [] [] trivial)
    fun _ _ ho => M.edits.rel_pure ho.1

end Mirror

end TermForest
