import TermForest.Forest.Revise
import TermForest.Proofs.Shift.Tree

/-!
# Edits on shifted ids

Clones, copies and revisions of a shifted forest are those of the forest itself, shifted, if the supply
of ids is shifted as well.
-/

namespace TermForest

open Shift (reads takes edits clones)

variable {k : Nat} (x p : NodeId) (n : Node)

/-! ### Copies -/

theorem Tree.Shifted.clone {T T' : Tree} (h : T.Shifted k T') (locked : Bool)
    (holder : Option (NodeId × String)) :
    (clones k).rel (Image (Node.shift k)) (T.clone locked holder)
      (T'.clone locked (holder.map fun e => (e.1 + k, e.2))) := by
  induction h generalizing holder with
  | @node n below below' _ ih =>
    unfold Tree.clone
    refine (clones k).rel_bind (Relator.rel_lift _ Shift.shifts_take) ?_
    rintro id _ rfl
    rw [Node.slots_shift, Slots.entries_map]
    refine (clones k).rel_bind ((clones k).rel_mapM_map (h := (· + k)) fun e _ => ?_) ?_
    · refine (clones k).rel_bind (ih e.2 (some (id, e.1))) ?_
      rintro c _ rfl
      refine (clones k).rel_bind (Relator.rel_modify _ ?_) fun _ _ _ => (clones k).rel_pure rfl
      rintro found _ rfl
      rfl
    · rintro cs _ rfl
      refine (clones k).rel_pure ?_
      simp only [Image, Node.shift, Node.mapIds, Slots.map_withChildren, Option.map_map]
      rfl
  | absent x =>
    exact Relator.rel_lift _ (Shift.takes_throw (.dangling x))
  | endless x =>
    exact Relator.rel_lift _ (Shift.takes_throw (.broken (.endlessSlots x)))

theorem Forest.copy_shift (F : Forest) (locked : Bool) :
    (takes k).rel (fun c c' => c'.root = c.root.shift k ∧ c'.forest = c.forest.shift k)
      (F.copy x locked) ((F.shift k).copy (x + k) locked) := by
  refine (takes k).rel_bind ((F.tree_shift x).clone locked none [] [] rfl) ?_
  rintro ⟨root, below⟩ ⟨root', below'⟩ ⟨hroot, hbelow⟩
  refine (takes k).rel_pure ⟨hroot, ?_⟩
  dsimp only at hroot hbelow ⊢
  rw [hroot, hbelow, shift_insert, shift_insertAll, List.map_reverse]

namespace Editing

/-! ### Operations -/

theorem find_shift : (edits k).rel (Image (Node.shift k)) (find x) (find (x + k)) := by
  refine (edits k).rel_bind (Relator.rel_get _) ?_
  rintro F _ rfl
  exact Shift.edits_read (F.find_shift x)

theorem insert_shift : (edits k).rel (fun _ _ => True) (insert n) (insert (n.shift k)) := by
  refine Relator.rel_modify _ ?_
  rintro F _ rfl
  exact (F.shift_insert n).symm

theorem attach_shift (slot : String) :
    (edits k).rel (fun _ _ => True) (attach x p slot) (attach (x + k) (p + k) slot) := by
  refine (edits k).rel_bind (Relator.rel_get _) ?_
  rintro F _ rfl
  exact (edits k).rel_bind (Shift.edits_read (F.attach_shift x p slot)) fun _ _ hF =>
    Relator.rel_set _ hF

theorem fill_shift (slot : String) :
    (edits k).rel (Image (Node.shift k)) (fill n slot x) (fill (n.shift k) slot (x + k)) :=
  (edits k).rel_bind (attach_shift x n.id slot) fun _ _ _ =>
    (edits k).rel_pure (n.shift_withSlot slot x).symm

theorem copy_shift (locked : Bool) :
    (edits k).rel (Image (Node.shift k)) (copy x locked) (copy (x + k) locked) := by
  refine (edits k).rel_bind (Relator.rel_get _) ?_
  rintro F _ rfl
  refine (edits k).rel_bind (Relator.rel_lift _ (F.copy_shift x locked)) fun c c' hc => ?_
  exact (edits k).rel_bind (Relator.rel_set _ hc.2) fun _ _ _ => (edits k).rel_pure hc.1

theorem copyOf_shift : (edits k).rel (Image (· + k)) (copyOf x) (copyOf (x + k)) := by
  refine (edits k).rel_bind (copy_shift x false) ?_
  rintro n _ rfl
  exact (edits k).rel_pure rfl

theorem apply_shift : (edits k).rel (Image (· + k)) (apply p x) (apply (p + k) (x + k)) := by
  refine (edits k).rel_bind Shift.edits_newId ?_
  rintro id _ rfl
  refine (edits k).rel_bind (fill_shift p { id, kind := .apply } "callee") ?_
  rintro n _ rfl
  refine (edits k).rel_bind (fill_shift x n "argument") ?_
  rintro n _ rfl
  exact (edits k).rel_bind (insert_shift n) fun _ _ _ => (edits k).rel_pure rfl

end Editing

/-! ### Revisions -/

namespace Revision

/-- The second revision enters the shifted nodes and edits them like the first one. -/
structure Shifted (k : Nat) (r r' : Revision) : Prop where
  entered : ∀ n : Node, r'.entered (n.shift k) = r.entered n
  edit : ∀ n : Node, (edits k).rel (Image (Node.shift k)) (r.edit n) (r'.edit (n.shift k))

/-- Edits that list what they edit; the lists do not count. -/
def revises (k : Nat) : Relator (StateT (List NodeId) Editing) :=
  (edits k).stateT fun _ _ => True

variable {r r' : Revision}

theorem Shifted.runTo (h : r.Shifted k r') (depth : Nat) :
    (revises k).rel (Image (· + k)) (r.runTo depth x) (r'.runTo depth (x + k)) := by
  induction depth generalizing x with
  | zero =>
    exact Relator.rel_lift _ (Relator.rel_lift _ (Shift.takes_throw (.broken (.endlessSlots x))))
  | succ depth ih =>
    unfold Revision.runTo
    refine (revises k).rel_bind (Relator.rel_lift _ (Editing.find_shift x)) ?_
    rintro n _ rfl
    refine (revises k).rel_ite (by rw [h.entered n]) (fun _ _ => ?_) fun _ _ =>
      (revises k).rel_pure rfl
    rw [Node.slots_shift, Slots.children_map]
    refine (revises k).rel_bind ((revises k).rel_mapM_map fun c _ => ih c) ?_
    rintro cs _ rfl
    rw [← Node.slots_shift, ← Node.shift_withChildren]
    refine (revises k).rel_bind (Relator.rel_lift _ (h.edit _)) ?_
    rintro m _ rfl
    rw [Node.slots_shift, Slots.entries_map]
    refine (revises k).rel_bind ((revises k).rel_forM_map fun e _ =>
      Relator.rel_lift _ (Editing.attach_shift e.2 m.id e.1)) fun _ _ _ => ?_
    refine (revises k).rel_bind (Relator.rel_lift _ (Editing.insert_shift m)) fun _ _ _ => ?_
    refine (revises k).rel_bind (Relator.rel_modify _ fun _ _ _ => trivial) fun _ _ _ => ?_
    exact (revises k).rel_pure rfl

theorem Shifted.run (h : r.Shifted k r') :
    (edits k).rel (fun o o' => o'.root = o.root + k) (r.run x) (r'.run (x + k)) := by
  refine (edits k).rel_bind (Relator.rel_get _) ?_
  rintro F _ rfl
  rw [Forest.size_shift]
  exact (edits k).rel_bind (h.runTo x _ [] [] trivial) fun _ _ ho => (edits k).rel_pure ho.1

end Revision

end TermForest
