import TermForest.Proofs.Forest.Clone

/-!
# Comparison of subtrees

Comparing what hangs below two ids, each in a forest of its own, is equality of shapes: of the trees
that are left when ids, links and locks are forgotten. A node may stand in several slots. So comparing
is an equivalence across all forests, a subtree is like each of its copies, and what else the forests
keep does not count.
-/

namespace TermForest

open Relation (ReflTransGen TransGen)

namespace Forest

variable {F G H : Forest} {s t u : Plant} {x y : NodeId} {depth : Nat}

/-! ### Plants in which nodes stand more than once -/

/-- Below a plant that is held the slots run in no circle. -/
theorem Holds.acyclicBelow (ht : F.Holds t) : F.AcyclicBelow t.id := by
  intro y hy hcircle
  obtain ⟨v, hv, rfl⟩ := ht.exists_of_reaches hy
  have hheld := ht.of_mem_subs hv
  -- the way back starts with a part of the plant at `y`, in which that plant is not
  obtain ⟨z, ⟨n, hn, hz⟩, hback⟩ := TransGen.head'_iff.1 hcircle
  obtain rfl := Option.some.inj (hheld.get?_id.symm.trans hn)
  rw [hheld.children, List.mem_map] at hz
  obtain ⟨p, hp, rfl⟩ := hz
  obtain ⟨w, hw, hid⟩ :=
    (hheld.of_mem_subs (Plant.mem_subs_of_mem_parts hp)).exists_of_reaches hback
  exact hheld.id_notMem_parts hp (Plant.mem_ids_iff.2 ⟨w, hw, hid⟩)

/-- A walk shows a plant if it may go further than any path below its root. -/
theorem Holds.shows_of_paths (ht : F.Holds t)
    (hd : ∀ path : List NodeId, (t.id :: path).IsChain F.LeadsTo → path.length < depth) :
    (F.unfold depth t.id).Shows t := by
  induction ht generalizing depth with
  | @mk root parts get children held ih =>
    cases depth with
    | zero => exact absurd (hd [] (.singleton _)) (Nat.not_lt_zero 0)
    | succ depth =>
      rw [Plant.id_mk, unfold, get]
      refine .node children fun p hp => ih p hp fun path hpath => ?_
      have hleads : F.LeadsTo root.id p.id := ⟨root, get, children ▸ List.mem_map_of_mem hp⟩
      exact Nat.lt_of_succ_lt_succ (hd (p.id :: path) (.cons_cons hleads hpath))

/-- The tree at an id shows the plant that is held there, whichever nodes stand in it twice. -/
theorem Holds.shows_tree (ht : F.Holds t) : (F.tree t.id).Shows t :=
  ht.shows_of_paths fun _ hpath => Nat.lt_succ_of_le (ht.acyclicBelow.length_le hpath)

/-! ### Comparing -/

/-- Comparing plants that are held tells whether they have one shape. -/
theorem Holds.exists_sameShape (ht : F.Holds t) (hu : G.Holds u) :
    ∃ same, TermForest.sameShape F t.id G u.id = .ok same ∧ (same = true ↔ t.shape = u.shape) :=
  ht.shows_tree.sameShape hu.shows_tree

theorem Holds.sameShape_eq_ok_true_iff (ht : F.Holds t) (hu : G.Holds u) :
    TermForest.sameShape F t.id G u.id = .ok true ↔ t.shape = u.shape := by
  obtain ⟨same, hsame, hiff⟩ := ht.exists_sameShape hu
  rw [hsame, Except.ok.injEq, hiff]

/-- Plants are compared with the same outcome wherever they are held, and either way round. -/
theorem Holds.sameShape_congr {F' G' : Forest} {t' u' : Plant} (ht : F.Holds t) (hu : G.Holds u)
    (ht' : F'.Holds t') (hu' : G'.Holds u') (h : t'.shape = u'.shape ↔ t.shape = u.shape) :
    TermForest.sameShape F' t'.id G' u'.id = TermForest.sameShape F t.id G u.id := by
  obtain ⟨same, hsame, hiff⟩ := ht.exists_sameShape hu
  obtain ⟨same', hsame', hiff'⟩ := ht'.exists_sameShape hu'
  rw [hsame, hsame', Except.ok.injEq, Bool.eq_iff_iff, hiff', hiff, h]

/-- A plant that is held has a copy, which is like the plant in the forest before. -/
theorem Holds.exists_like_copy (ht : F.Holds t) (locked : Bool) (next : Nat) :
    ∃ (c : Copy) (next' : Nat), (F.copy t.id locked).runFrom next = (.ok c, next') ∧
      TermForest.sameShape F t.id c.forest c.root.id = .ok true ∧
      ((∀ x : Nat, x ∈ t.ids → x < next) →
        TermForest.sameShape c.forest t.id c.forest c.root.id = .ok true) := by
  obtain ⟨c, next', hrun, -, u, hroot, -, hforest, hu, -⟩ :=
    (ht.shows_tree.copy locked next).exists_ok
  have hcopy : c.forest.Holds u := hforest ▸ holds_insertAll hu.joined hu.nodup
  have hid : c.root.id = u.id := congrArg Node.id hroot
  refine ⟨c, next', hrun, ?_, fun hlt => ?_⟩ <;> rw [hid]
  · exact (ht.sameShape_eq_ok_true_iff hcopy).2 hu.shape.symm
  have hkept : c.forest.Holds t := ht.congr fun x hx => by
    rw [hforest]
    refine get?_insertAll_of_notMem fun hmem => ?_
    rw [Plant.map_id_nodes] at hmem
    exact absurd (hlt x hx) (Nat.not_lt.2 (hu.le x hmem))
  exact (hkept.sameShape_eq_ok_true_iff hcopy).2 hu.shape.symm

/-- What comparing says of plants that three forests hold. -/
structure ComparesShapes (F G H : Forest) (s t u : Plant) : Prop where
  /-- The answer is whether the shapes are equal. -/
  answer : ∃ same, sameShape F s.id G t.id = .ok same ∧ (same = true ↔ s.shape = t.shape)
  refl : sameShape F s.id F s.id = .ok true
  symm : sameShape G t.id F s.id = sameShape F s.id G t.id
  trans : sameShape F s.id G t.id = .ok true → sameShape G t.id H u.id = .ok true →
    sameShape F s.id H u.id = .ok true
  /-- A plant can be copied, whatever the next id is. The copy is like the plant in the forest before,
  and also like the one beside it if the new ids are not among those of the plant. -/
  copy : ∀ (locked : Bool) (next : Nat), ∃ (c : Copy) (next' : Nat),
    (F.copy s.id locked).runFrom next = (.ok c, next') ∧
      sameShape F s.id c.forest c.root.id = .ok true ∧
      ((∀ x : Nat, x ∈ s.ids → x < next) → sameShape c.forest s.id c.forest c.root.id = .ok true)
  /-- Nodes outside the two plants do not count. -/
  frame : ∀ F' G' : Forest, (∀ x ∈ s.ids, F'.get? x = F.get? x) →
    (∀ x ∈ t.ids, G'.get? x = G.get? x) → sameShape F' s.id G' t.id = sameShape F s.id G t.id

/-- Comparing what hangs below two ids is equality of shapes. -/
theorem Holds.comparesShapes (hs : F.Holds s) (ht : G.Holds t) (hu : H.Holds u) :
    ComparesShapes F G H s t u where
  answer := hs.exists_sameShape ht
  refl := (hs.sameShape_eq_ok_true_iff hs).2 rfl
  symm := hs.sameShape_congr ht ht hs eq_comm
  trans h h' := (hs.sameShape_eq_ok_true_iff hu).2
    (((hs.sameShape_eq_ok_true_iff ht).1 h).trans ((ht.sameShape_eq_ok_true_iff hu).1 h'))
  copy := hs.exists_like_copy
  frame _ _ hF hG := hs.sameShape_congr ht (hs.congr hF) (ht.congr hG) Iff.rfl

/-- An application of a truth value to another that is the same. -/
def paired : Plant :=
  .mk { id := 7, kind := .apply, slots := ⟨[("callee", 8), ("argument", 9)], by decide⟩ }
    [.mk { id := 8, kind := .boolean, locked := true } [], .mk { id := 9, kind := .boolean } []]

theorem holds_paired : (insertAll ∅ paired.nodes).Holds paired := by
  refine .mk (by rfl) rfl (List.forall_mem_cons.2 ⟨?_, List.forall_mem_singleton.2 ?_⟩) <;>
    exact .mk (by rfl) rfl (List.forall_mem_nil _)

/-- One node in two slots is like two nodes. -/
theorem comparesShapes_doubled :
    (insertAll ∅ doubled.nodes).Holds doubled ∧ (insertAll ∅ paired.nodes).Holds paired ∧
      ComparesShapes (insertAll ∅ doubled.nodes) (insertAll ∅ paired.nodes)
        (insertAll ∅ doubled.nodes) doubled paired doubled ∧
      sameShape (insertAll ∅ doubled.nodes) 1 (insertAll ∅ paired.nodes) 7 = .ok true := by
  have hcompares := Holds.comparesShapes holds_doubled holds_paired holds_doubled
  obtain ⟨same, hsame, hiff⟩ := hcompares.answer
  have hshape : doubled.shape = paired.shape := by rfl
  exact ⟨holds_doubled, holds_paired, hcompares, hsame.trans (congrArg _ (hiff.2 hshape))⟩

end Forest

end TermForest
