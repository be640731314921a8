import TermForest.Forest.Copy
import TermForest.Proofs.Mirror.Basic
import TermForest.Rule.Names

/-!
# Mirrored walks

Trees unfolded from forests of which one reflects the other have the same nodes up to renaming, as far
down as both reach. Searches, comparisons and clones of such trees run alike.
-/

namespace TermForest

namespace Mirror

/-- Two trees have the same nodes, up to renaming. Where the comparison is not strict, one of them may
be given up before the other. -/
inductive Trees (M : Mirror) : Tree → Tree → Prop where
  | node {n n' : Node} {below below' : NodeId → Tree} (root : M.Nodes n n')
    (parts : ∀ c ∈ n.slots.children, M.Trees (below c) (below' (M.image c))) :
    M.Trees (.node n below) (.node n' below')
  | absent (x y : NodeId) : M.Trees (.absent x) (.absent y)
  | endless (x y : NodeId) : M.Trees (.endless x) (.endless y)
  | left (hs : ¬M.strict) (x : NodeId) (T : Tree) : M.Trees (.endless x) T
  | right (hs : ¬M.strict) (T : Tree) (x : NodeId) : M.Trees T (.endless x)

variable {M : Mirror} {F F' : Forest} {T T' U U' : Tree} {x y : NodeId} {n n' : Node}

theorem Reflects.unfold (h : M.Reflects F F') {depth depth' : Nat} (hd : M.strict → depth = depth')
    (hx : M.Ids x y) : M.Trees (F.unfold depth x) (F'.unfold depth' y) := by
  induction depth generalizing depth' x y with
  | zero =>
    by_cases hs : M.strict
    · rw [← hd hs]
      exact .endless x y
    · exact .left hs ..
  | succ depth ih =>
    cases depth' with
    | zero => exact .right (fun hs => nomatch hd hs) ..
    | succ depth' =>
      rw [Forest.unfold, Forest.unfold, h.get?_of_ids hx]
      cases hn : F.get? x with
      | none => exact .absent x y
      | some n =>
        have hsees := h.sees hx.2 hn
        exact .node ⟨rfl, hsees⟩ fun c hc =>
          ih (fun hs => Nat.succ.inj (hd hs)) ⟨rfl, hsees.children c hc⟩

theorem Reflects.tree (h : M.Reflects F F') (hx : M.Ids x y) : M.Trees (F.tree x) (F'.tree y) :=
  h.unfold (fun hs => by rw [h.size_eq hs]) hx

/-- The children of mirrored nodes, each with what hangs below. -/
theorem Nodes.forall_children (h : M.Nodes n n') {P : NodeId → NodeId → Prop}
    (hP : ∀ c ∈ n.slots.children, P c (M.image c)) :
    List.Forall₂ P n.slots.children n'.slots.children := by
  rw [h.1, Node.slots_mapIds, Slots.children_map, List.forall₂_map_right_iff, List.forall₂_same]
  exact hP

/-! ### Searching -/

variable {wanted wanted' entered entered' : Node → Bool}

theorem Trees.selectOnto (h : M.Trees T T') (hw : ∀ n n', M.Nodes n n' → wanted' n' = wanted n)
    (he : ∀ n n', M.Nodes n n' → entered' n' = entered n) {found found' : List Node}
    (hf : List.Forall₂ M.Nodes found found') :
    Agree M.strict (List.Forall₂ M.Nodes) (T.selectOnto wanted entered found)
      (T'.selectOnto wanted' entered' found') := by
  induction h generalizing found found' with
  | @node n n' below below' hroot _ ih =>
    rw [Tree.selectOnto, Tree.selectOnto, he n n' hroot]
    split
    · refine Agree.bind (P := List.Forall₂ M.Nodes) ((Relator.reads M.strict Fault).rel_foldlM
        (hroot.forall_children fun c hc _ _ => ih c hc) hf) fun found found' hf => ?_
      rw [hw n n' hroot]
      split
      · exact .ok (.cons hroot hf)
      · exact .ok hf
    · exact .ok hf
  | absent => exact .fatal (fatal_dangling _) (fatal_dangling _)
  | endless => exact .fatal (fatal_broken _) (fatal_broken _)
  | left hs => exact .left hs (fatal_broken _)
  | right hs => exact .right hs (fatal_broken _)

theorem Reflects.findAll (h : M.Reflects F F') (hx : M.Ids x y)
    (hw : ∀ n n', M.Nodes n n' → wanted' n' = wanted n) :
    Agree M.strict (List.Forall₂ M.Nodes) (F.findAll x wanted) (F'.findAll y wanted') :=
  ((h.tree hx).selectOnto hw (fun _ _ _ => rfl) .nil).bind
    fun _ _ hf => .ok (List.forall₂_reverse_iff.2 hf)

theorem filterMap_name?_of_nodes {ns ns' : List Node} (h : List.Forall₂ M.Nodes ns ns') :
    ns'.filterMap Node.name? = ns.filterMap Node.name? := by
  induction h with
  | nil => rfl
  | cons h _ ih =>
    rw [List.filterMap_cons, List.filterMap_cons, ih, h.1]
    rfl

theorem Reflects.variableNames (h : M.Reflects F F') (hx : M.Ids x y) :
    Agree M.strict Eq (F.variableNames x) (F'.variableNames y) :=
  (h.findAll hx fun n n' hn => by rw [hn.1]; rfl).bind
    fun _ _ hns => .ok (filterMap_name?_of_nodes hns).symm

/-! ### Free names -/

/-- The roots of two trees go together, unless one of the trees is given up early. -/
theorem Trees.root?_cases (h : M.Trees T T') :
    (∃ n n', T.root? = some n ∧ T'.root? = some n' ∧ M.Nodes n n') ∨
      T.root? = none ∧ T'.root? = none ∨ ¬M.strict ∧ (T.root? = none ∨ T'.root? = none) := by
  cases h with
  | node hroot => exact .inl ⟨_, _, rfl, rfl, hroot⟩
  | absent | endless => exact .inr (.inl ⟨rfl, rfl⟩)
  | left hs => exact .inr (.inr ⟨hs, .inl rfl⟩)
  | right hs => exact .inr (.inr ⟨hs, .inr rfl⟩)

theorem Trees.freeOnto (h : M.Trees T T') (bound found : List String) :
    Agree M.strict Eq (T.freeOnto bound found) (T'.freeOnto bound found) := by
  induction h generalizing bound found with
  | @node n n' below below' hroot hparts ih =>
    have hkind : n'.kind = n.kind := by rw [hroot.1]; rfl
    unfold Tree.freeOnto
    rw [hkind]
    split
    · refine (hroot.needText "name").bind ?_
      rintro name _ rfl
      exact .ok rfl
    · refine (hroot.needSlot_mem "arg").bind ?_
      rintro arg _ ⟨rfl, harg⟩
      obtain ⟨m, m', hm, hm', hnodes⟩ | ⟨hm, hm'⟩ | ⟨hs, hm | hm⟩ := (hparts arg harg).root?_cases
      · rw [hm, hm']
        refine (hroot.needSlot_mem "body").bind ?_
        rintro body _ ⟨rfl, hbody⟩
        rw [hnodes.1, Node.name?_mapIds]
        exact ih body hbody _ found
      · rw [hm, hm']
        exact .fatal (fatal_dangling _) (fatal_dangling _)
      · rw [hm]
        exact .left hs (fatal_dangling _)
      · rw [hm]
        exact .right hs (fatal_dangling _)
    · exact (Relator.reads M.strict Fault).rel_foldlM
        (hroot.forall_children fun c hc _ _ e => e ▸ ih c hc bound _) rfl
  | absent => exact .fatal (fatal_dangling _) (fatal_dangling _)
  | endless => exact .fatal (fatal_broken _) (fatal_broken _)
  | left hs => exact .left hs (fatal_broken _)
  | right hs => exact .right hs (fatal_broken _)

theorem Reflects.freeVariables (h : M.Reflects F F') (hx : M.Ids x y) :
    Agree M.strict Eq (F.freeVariables x) (F'.freeVariables y) :=
  (h.tree hx).freeOnto [] []

/-! ### Comparing -/

theorem forall₂_zip_map {α β : Type} {R : α × β → α × β → Prop} {f : α → α} {g : β → β}
    {as : List α} {bs : List β} (h : ∀ e ∈ as.zip bs, R e (f e.1, g e.2)) :
    List.Forall₂ R (as.zip bs) ((as.map f).zip (bs.map g)) := by
  rw [List.zip_map, List.forall₂_map_right_iff, List.forall₂_same]
  exact h

theorem Trees.sameShape (h : M.Trees T T') (h' : M.Trees U U') :
    Agree M.strict Eq (T.sameShape U) (T'.sameShape U') := by
  induction h generalizing U U' with
  | @node n n' below below' hroot _ ih =>
    cases h' with
    | @node m m' beside beside' hroot' hparts' =>
      unfold Tree.sameShape
      rw [hroot.1, hroot'.1]
      simp only [Node.kind_mapIds, Node.fields_mapIds, Node.slots_mapIds, Slots.size_map,
        Slots.entries_map]
      split
      · exact .ok rfl
      · refine (Relator.reads M.strict Fault).rel_allM (forall₂_zip_map fun e he => ?_)
        dsimp only
        split
        · exact .ok rfl
        · have hmem := List.of_mem_zip he
          exact ih e.1.2 (List.mem_map_of_mem hmem.1) (hparts' e.2.2 (List.mem_map_of_mem hmem.2))
    | absent => exact .fatal (fatal_dangling _) (fatal_dangling _)
    | endless => exact .fatal (fatal_broken _) (fatal_broken _)
    | left hs => exact .left hs (fatal_broken _)
    | right hs => exact .right hs (fatal_broken _)
  | absent => exact .fatal (fatal_dangling _) (fatal_dangling _)
  | endless => exact .fatal (fatal_broken _) (fatal_broken _)
  | left hs => exact .left hs (fatal_broken _)
  | right hs => exact .right hs (fatal_broken _)

theorem Reflects.sameShape (h : M.Reflects F F') {x' y' : NodeId} (hx : M.Ids x y)
    (hx' : M.Ids x' y') :
    Agree M.strict Eq (TermForest.sameShape F x F x') (TermForest.sameShape F' y F' y') :=
  (h.tree hx).sameShape (h.tree hx')

/-! ### Cloning -/

/-- Computations that take ids, compared by a mirror. -/
def takes (M : Mirror) (ε : Type) [Faulty ε] : Relator (Supply ε) :=
  .takes M.strict M.lo M.hi ε

/-- Computations that make clones, compared by a mirror. -/
def clones (M : Mirror) : Relator Cloning := (M.takes Fault).stateT (List.Forall₂ M.Nodes)

theorem takes_take {ε : Type} [Faulty ε] : (M.takes ε).rel M.Ids Supply.take Supply.take :=
  Relator.rel_imp _ Relator.takes_take (by
    rintro _ _ ⟨k, rfl, rfl⟩
    exact ⟨(image_add k).symm, M.seen_of_le _ (Nat.le_add_right ..)⟩)

/-- A part that takes no ids and is not refused. -/
theorem takes_read {α β : Type} {P : α → β → Prop} {a : Except Fault α} {b : Except Fault β}
    (h : Agree M.strict P a b) : (M.takes Failure).rel P (liftM a) (liftM b) :=
  Relator.takes_liftFault h

/-- Trees with the same nodes have clones with the same nodes. -/
theorem Trees.clone (h : M.Trees T T') (locked : Bool) (holder : Option (NodeId × String)) :
    M.clones.rel M.Nodes (T.clone locked holder)
      (T'.clone locked (holder.map fun e => (M.image e.1, e.2))) := by
  induction h generalizing holder with
  | @node n n' below below' hroot _ ih =>
    unfold Tree.clone
    refine M.clones.rel_bind (Relator.rel_lift _ takes_take) ?_
    rintro id _ ⟨rfl, hid⟩
    rw [hroot.1, Node.slots_mapIds, Slots.entries_map]
    refine M.clones.rel_bind (P := List.Forall₂ M.Ids) (M.clones.rel_mapM ?_) fun cs cs' hcs => ?_
    · rw [List.forall₂_map_right_iff, List.forall₂_same]
      intro e he
      refine M.clones.rel_bind (ih e.2 (List.mem_map_of_mem he) (some (id, e.1))) ?_
      rintro c _ ⟨rfl, hc⟩
      refine M.clones.rel_bind (Relator.rel_modify _ fun _ _ hl => .cons ⟨rfl, hc⟩ hl) fun _ _ _ => ?_
      exact M.clones.rel_pure ⟨rfl, hc.id⟩
    · obtain ⟨rfl, hseen⟩ := eq_map_of_forall₂ hcs
      refine M.clones.rel_pure
        ⟨?_, hid, fun c hc => hseen c (Slots.mem_of_mem_withChildren hc)⟩
      simp only [Node.mapIds, Slots.map_withChildren, Option.map_map]
      rfl
  | absent => exact fun _ _ _ _ => .fatal (fatal_dangling _) (fatal_dangling _)
  | endless => exact fun _ _ _ _ => .fatal (fatal_broken _) (fatal_broken _)
  | left hs => exact fun _ _ _ _ => .left hs (fatal_broken _)
  | right hs => exact fun _ _ _ _ => .right hs (fatal_broken _)

end Mirror

end TermForest
