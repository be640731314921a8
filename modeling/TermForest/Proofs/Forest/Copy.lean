import TermForest.Proofs.Forest.Joined
import TermForest.Proofs.Supply

/-!
# Copies of plants

A copy of a plant that a forest holds is a joined plant of the same shape, of new ids from the next
one on.
-/

namespace TermForest

open Supply (Meets)

namespace Plant

/-! ### Order of ids -/

mutual

/-- The ids of a plant, parents before children. -/
def preorder : Plant → List NodeId
  | .mk root parts => root.id :: preorderOf parts

/-- The ids of some plants, one after the other. -/
def preorderOf : List Plant → List NodeId
  | [] => []
  | t :: ts => t.preorder ++ preorderOf ts

end

theorem preorderOf_eq_flatMap (ts : List Plant) : preorderOf ts = ts.flatMap preorder := by
  induction ts with
  | nil => rfl
  | cons t ts ih => rw [preorderOf, ih, List.flatMap_cons]

theorem preorder_mk (root : Node) (parts : List Plant) :
    (mk root parts).preorder = root.id :: parts.flatMap preorder := by
  rw [preorder, preorderOf_eq_flatMap]

theorem perm_preorder (t : Plant) : t.preorder.Perm t.ids := by
  induction t using induct with
  | step root parts ih =>
    rw [preorder_mk, ids_mk]
    exact ((List.Perm.flatMap_left parts ih).cons _).trans (List.perm_append_singleton _ _).symm

/-! ### Clones -/

/-- A joined plant of the shape of another, with one lock for all nodes. Its ids are those from `lo` up
to but not including `hi`, given to parents before children. -/
structure CloneOf (t : Plant) (locked : Bool) (lo hi : Nat) (u : Plant) : Prop where
  shape : u.shape = t.shape
  joined : u.Joined
  preorder : u.preorder = List.range' lo t.nodes.length
  stop : hi = lo + t.nodes.length
  locked : ∀ n ∈ u.nodes, n.locked = locked

namespace CloneOf

variable {t u : Plant} {locked : Bool} {lo hi : Nat}

theorem mem_ids_iff (h : t.CloneOf locked lo hi u) {x : Nat} : x ∈ u.ids ↔ lo ≤ x ∧ x < hi := by
  rw [← u.perm_preorder.mem_iff, h.preorder, List.mem_range'_1, h.stop]

theorem nodup (h : t.CloneOf locked lo hi u) : u.ids.Nodup := by
  rw [← u.perm_preorder.nodup_iff, h.preorder]
  exact List.nodup_range'

theorem le (h : t.CloneOf locked lo hi u) (x : Nat) (hx : x ∈ u.ids) : lo ≤ x :=
  (h.mem_ids_iff.1 hx).1

theorem lt (h : t.CloneOf locked lo hi u) (x : Nat) (hx : x ∈ u.ids) : x < hi :=
  (h.mem_ids_iff.1 hx).2

theorem grown (h : t.CloneOf false lo hi u) (hf : t.Formed hi) : u.Grown lo hi :=
  ⟨h.nodup, h.le, h.lt, h.joined, hf.of_shape_eq h.shape, h.locked⟩

end CloneOf

/-- Clones of some plants, one after the other, all held by one node. -/
structure ClonesOf (ts : List Plant) (locked : Bool) (holder : NodeId)
    (entries : List (String × NodeId)) (lo hi : Nat) (us : List Plant) : Prop where
  shape : us.map Plant.shape = ts.map Plant.shape
  links : List.Forall₂
    (fun e u => u.root.parent = some holder ∧ u.root.parentSlot = some e.1) entries us
  joined : ∀ u ∈ us, u.Joined
  preorder : us.flatMap Plant.preorder = List.range' lo (ts.flatMap nodes).length
  stop : hi = lo + (ts.flatMap nodes).length
  locked : ∀ n ∈ us.flatMap nodes, n.locked = locked

theorem ClonesOf.cons {t u : Plant} {ts us : List Plant} {locked : Bool} {holder : NodeId}
    {e : String × NodeId} {entries : List (String × NodeId)} {lo mid hi : Nat}
    (hu : t.CloneOf locked lo mid u) (hp : u.root.parent = some holder)
    (hs : u.root.parentSlot = some e.1) (hus : ClonesOf ts locked holder entries mid hi us) :
    ClonesOf (t :: ts) locked holder (e :: entries) lo hi (u :: us) where
  shape := by rw [List.map_cons, List.map_cons, hu.shape, hus.shape]
  links := .cons ⟨hp, hs⟩ hus.links
  joined := List.forall_mem_cons.2 ⟨hu.joined, hus.joined⟩
  preorder := by
    rw [List.flatMap_cons, List.flatMap_cons, hu.preorder, hus.preorder, hu.stop,
      List.range'_append_1, List.length_append]
  stop := by rw [hus.stop, hu.stop, List.flatMap_cons, List.length_append, Nat.add_assoc]
  locked n hn := by
    rw [List.flatMap_cons, List.mem_append] at hn
    rcases hn with hn | hn
    · exact hu.locked n hn
    · exact hus.locked n hn

/-- A root with the first id above the clones of the parts of a plant is a clone of the plant. -/
theorem ClonesOf.cloneOf {root : Node} {parts us : List Plant} {locked : Bool}
    {lo hi : Nat} (h : ClonesOf parts locked lo root.slots.entries (lo + 1) hi us)
    (hc : root.slots.children = parts.map Plant.id) {n : Node}
    (hid : n.id = lo) (hk : n.kind = root.kind) (hf : n.fields = root.fields)
    (hl : n.locked = locked) (hs : n.slots = root.slots.withChildren (us.map Plant.id)) :
    (Plant.mk root parts).CloneOf locked lo hi (.mk n us) where
  shape := by
    have hlen : us.length = root.slots.size := by
      have := congrArg List.length h.shape
      simpa [← Slots.length_children, hc] using this
    rw [shape_mk, shape_mk, hk, hf, h.shape, hs, Slots.names_withChildren (by simpa using hlen)]
  joined := joined_mk_iff.2 ⟨Node.carries_withChildren hs (hid.symm ▸ h.links), h.joined⟩
  preorder := by
    rw [preorder_mk, h.preorder, hid, nodes_mk, List.length_append, List.length_singleton,
      List.range'_succ]
  stop := by
    rw [h.stop, nodes_mk, List.length_append, List.length_singleton]
    lia
  locked m hm := by
    rw [nodes_mk, List.mem_append, List.mem_singleton] at hm
    rcases hm with hm | rfl
    · exact h.locked m hm
    · exact hl

end Plant

/-- Cloning a tree that shows a plant makes a clone of the plant, and keeps what is below its root
with the clones made before. -/
theorem Tree.Shows.clone {T : Tree} {t : Plant} (h : T.Shows t) (locked : Bool)
    (holder : Option (NodeId × String)) (clones : List Node) (next : Nat) :
    ((T.clone locked holder).run clones).Meets next
      (fun r next' => ∃ u : Plant, r = (u.root, (u.parts.flatMap Plant.nodes).reverse ++ clones) ∧
        t.CloneOf locked next next' u ∧ u.root.parent = holder.map Prod.fst ∧
        u.root.parentSlot = holder.map Prod.snd)
      fun _ => False := by
  induction h generalizing holder clones next with
  | @node root below parts children shown ih =>
    -- the clones of the children come one after the other, each added to those before it
    have hloop : ∀ (entries : List (String × NodeId)) (ts : List Plant) (clones : List Node)
        (id : NodeId) (next : Nat), ts ⊆ parts → entries.map Prod.snd = ts.map Plant.id →
        ((entries.mapM fun e => do
          let child ← (below e.2).clone locked (some (id, e.1))
          modify (child :: ·)
          return child.id : Cloning (List NodeId)).run clones).Meets next
          (fun r next' => ∃ us : List Plant,
            r = (us.map Plant.id, (us.flatMap Plant.nodes).reverse ++ clones) ∧
            Plant.ClonesOf ts locked id entries next next' us)
          fun _ => False := by
      intro entries
      induction entries with
      | nil =>
        intro ts clones id next hts he
        rw [List.map_nil, eq_comm, List.map_eq_nil_iff] at he
        subst he
        exact .pure ⟨[], rfl, rfl, .nil, by simp, rfl, rfl, by simp⟩
      | cons e entries ihe =>
        intro ts clones id next hts he
        obtain ⟨t, ts, rfl⟩ : ∃ t ts', ts = t :: ts' := by
          cases ts with
          | nil => cases he
          | cons t ts => exact ⟨t, ts, rfl⟩
        rw [List.map_cons, List.map_cons, List.cons.injEq] at he
        rw [List.cons_subset] at hts
        rw [List.mapM_cons, StateT.run_bind, StateT.run_bind, bind_assoc, he.1]
        refine (ih t hts.1 (some (id, e.1)) clones next).bind ?_
        rintro _ mid - ⟨u, rfl, hu, hp, hs⟩
        refine (ihe ts _ id mid hts.2 he.2).bind ?_
        rintro _ next' - ⟨us, rfl, hus⟩
        refine .pure ⟨u :: us, ?_, .cons hu hp hs hus⟩
        obtain ⟨n, ps⟩ := u
        simp
    simp only [Tree.clone, StateT.run_bind, StateT.run_lift, bind_assoc, pure_bind]
    refine .take_bind ?_
    refine (hloop root.slots.entries parts clones next (next + 1) (List.Subset.refl _)
      children).bind ?_
    rintro _ next' - ⟨us, rfl, hus⟩
    exact .pure ⟨.mk _ us, rfl, hus.cloneOf children rfl rfl rfl rfl rfl, rfl, rfl⟩

/-- Copying what a tree shows adds a clone of it that stands on its own. -/
theorem Tree.Shows.copy {F : Forest} {x : NodeId} {t : Plant} (h : (F.tree x).Shows t) (locked : Bool)
    (next : Nat) :
    (F.copy x locked).Meets next
      (fun c next' => ∃ u : Plant, c.root = u.root ∧ c.below = u.parts.flatMap Plant.nodes ∧
        c.forest = F.insertAll u.nodes ∧ t.CloneOf locked next next' u ∧ u.Free)
      fun _ => False := by
  refine (h.clone locked none [] next).bind ?_
  rintro _ next' - ⟨u, rfl, hu, hp, hs⟩
  refine .pure ⟨u, rfl, by simp, ?_, hu, hp, hs⟩
  obtain ⟨root, parts⟩ := u
  simp [Forest.insertAll]

/-- Copying a plant adds a clone of it that stands on its own. -/
theorem Forest.Holds.copy {F : Forest} {t : Plant} (h : F.Holds t) (hn : t.ids.Nodup)
    (locked : Bool) (next : Nat) :
    (F.copy t.id locked).Meets next
      (fun c next' => ∃ u : Plant, c.root = u.root ∧ c.forest = F.insertAll u.nodes ∧
        t.CloneOf locked next next' u ∧ u.Free)
      fun _ => False :=
  ((h.tree_shows hn).copy locked next).imp
    (fun _ _ _ ⟨u, hroot, _, hforest, hu⟩ => ⟨u, hroot, hforest, hu⟩) fun _ => id

end TermForest
