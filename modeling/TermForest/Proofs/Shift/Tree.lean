import TermForest.Normal
import TermForest.Forest.Root
import TermForest.Proofs.Shift.Run
import TermForest.Rule.Names

/-!
# Walks on shifted ids

Trees unfolded from a forest and from the shifted one have the same nodes, shifted. Walks over such
trees find the same, and so do the walks along parent links.
-/

namespace TermForest

open Shift (reads)

variable {k : Nat}

/-! ### Parts of nodes -/

namespace Node

variable (n : Node)

theorem needSlot_shift (slot : String) :
    (reads k).rel (Image (· + k)) (n.needSlot slot) ((n.shift k).needSlot slot) := by
  unfold needSlot
  rw [slots_shift, Slots.get?_map]
  cases n.slots.get? slot with
  | none => exact Alike.error (Fault.malformed (.noSlot n.kind n.id slot))
  | some c => exact .ok rfl

theorem needText_shift (key : String) :
    (reads k).rel Eq (n.needText key) ((n.shift k).needText key) := by
  unfold needText
  rw [text?_shift]
  cases n.text? key with
  | none => exact Alike.error (Fault.malformed (.noField n.kind n.id key))
  | some s => exact .ok rfl

theorem needInt_shift (key : String) :
    (reads k).rel Eq (n.needInt key) ((n.shift k).needInt key) := by
  unfold needInt
  rw [int?_shift]
  cases n.int? key with
  | none => exact Alike.error (Fault.malformed (.noField n.kind n.id key))
  | some i => exact .ok rfl

theorem needBool_shift (key : String) :
    (reads k).rel Eq (n.needBool key) ((n.shift k).needBool key) := by
  unfold needBool
  rw [bool?_shift]
  cases n.bool? key with
  | none => exact Alike.error (Fault.malformed (.noField n.kind n.id key))
  | some b => exact .ok rfl

/-- The strict children are found alike by look-ups that show the same nodes. -/
theorem strictChildren_shift {peek peek' : NodeId → Option Node}
    (h : ∀ x, peek' (x + k) = (peek x).map (Node.shift k)) :
    (reads k).rel (Image (List.map (· + k))) (n.strictChildren peek)
      ((n.shift k).strictChildren peek') := by
  unfold strictChildren
  rw [kind_shift]
  split
  · refine (reads k).rel_bind (n.needSlot_shift "callee") ?_
    rintro callee _ rfl
    refine (reads k).rel_bind (n.needSlot_shift "argument") ?_
    rintro argument _ rfl
    rw [h]
    cases peek callee with
    | none => exact Shift.reads_error (.dangling callee)
    | some f => exact (reads k).rel_ite Iff.rfl (fun _ _ => .ok rfl) fun _ _ => .ok rfl
  · refine (reads k).rel_bind (n.needSlot_shift "condition") ?_
    rintro condition _ rfl
    exact (reads k).rel_pure rfl
  all_goals exact .ok (by simp)

end Node

theorem Signature.requireKind_shift (S : Signature) (kind : Kind) :
    (reads k).rel Eq (S.requireKind kind) (S.requireKind kind) := by
  unfold requireKind
  exact (reads k).rel_ite Iff.rfl (fun _ _ => .ok rfl) fun _ _ =>
    Shift.reads_error (.unregistered kind.tag)

/-! ### Look-ups -/

namespace Forest

variable (F : Forest) (x : NodeId)

theorem find_shift : (reads k).rel (Image (Node.shift k)) (F.find x) ((F.shift k).find (x + k)) := by
  unfold find
  rw [get?_shift]
  cases F.get? x with
  | none => exact Shift.reads_error (.dangling x)
  | some n => exact .ok rfl

theorem number_shift : (reads k).rel Eq (F.number x) ((F.shift k).number (x + k)) := by
  refine (reads k).rel_bind (F.find_shift x) ?_
  rintro n _ rfl
  exact n.needInt_shift "value"

theorem attach_shift (parent : NodeId) (slot : String) :
    (reads k).rel (Image (Forest.shift k)) (F.attach x parent slot)
      ((F.shift k).attach (x + k) (parent + k) slot) := by
  refine (reads k).rel_bind (F.find_shift x) ?_
  rintro n _ rfl
  exact (reads k).rel_pure (shift_insert F (n.heldBy parent slot)).symm

theorem climb_shift (start : NodeId) (moves : Nat) (n : Node) :
    (reads k).rel (Image (· + k)) (F.climb start moves n)
      ((F.shift k).climb (start + k) moves (n.shift k)) := by
  induction moves generalizing n with
  | zero =>
    unfold climb
    rw [Node.parent_shift]
    cases n.parent with
    | none => exact .ok rfl
    | some p =>
      exact (reads k).rel_bind (F.find_shift p) fun _ _ _ =>
        Shift.reads_error (.broken (.endlessParents start))
  | succ moves ih =>
    unfold climb
    rw [Node.parent_shift]
    cases n.parent with
    | none => exact .ok rfl
    | some p =>
      refine (reads k).rel_bind (F.find_shift p) ?_
      rintro up _ rfl
      exact ih up

theorem rootOf_shift : (reads k).rel (Image (· + k)) (F.rootOf x) ((F.shift k).rootOf (x + k)) := by
  refine (reads k).rel_bind (F.find_shift x) ?_
  rintro n _ rfl
  rw [size_shift]
  exact F.climb_shift x F.size n

end Forest

theorem Signature.coarseType_shift (S : Signature) (F : Forest) (x : NodeId) :
    (reads k).rel Eq (S.coarseType F x) (S.coarseType (F.shift k) (x + k)) := by
  refine (reads k).rel_bind (F.find_shift x) ?_
  rintro n _ rfl
  refine (reads k).rel_bind (S.requireKind_shift n.kind) fun _ _ _ => ?_
  exact (reads k).rel_pure (n.coarseType_shift F.get?_shift).symm

/-! ### Trees -/

/-- The second tree has the nodes of the first one, shifted. -/
inductive Tree.Shifted (k : Nat) : Tree → Tree → Prop where
  | node {n : Node} {below below' : NodeId → Tree}
    (parts : ∀ c, Tree.Shifted k (below c) (below' (c + k))) :
    Tree.Shifted k (.node n below) (.node (n.shift k) below')
  | absent (x : NodeId) : Tree.Shifted k (.absent x) (.absent (x + k))
  | endless (x : NodeId) : Tree.Shifted k (.endless x) (.endless (x + k))

theorem Forest.tree_shift (F : Forest) (x : NodeId) :
    (F.tree x).Shifted k ((F.shift k).tree (x + k)) := by
  unfold tree
  rw [size_shift]
  generalize F.size + 1 = depth
  induction depth generalizing x with
  | zero => exact .endless x
  | succ depth ih =>
    rw [unfold, unfold, get?_shift]
    cases F.get? x with
    | none => exact .absent x
    | some n => exact .node ih

namespace Tree.Shifted

variable {T T' U U' : Tree}

theorem root? (h : T.Shifted k T') : T'.root? = T.root?.map (Node.shift k) := by
  cases h <;> rfl

/-! ### Searching -/

theorem selectOnto (h : T.Shifted k T') {wanted wanted' entered entered' : Node → Bool}
    (hw : ∀ n : Node, wanted' (n.shift k) = wanted n)
    (he : ∀ n : Node, entered' (n.shift k) = entered n) (found : List Node) :
    (reads k).rel (Image (List.map (Node.shift k))) (T.selectOnto wanted entered found)
      (T'.selectOnto wanted' entered' (found.map (Node.shift k))) := by
  induction h generalizing found with
  | @node n below below' _ ih =>
    rw [Tree.selectOnto, Tree.selectOnto, he n, Node.slots_shift, Slots.children_map]
    refine (reads k).rel_ite Iff.rfl (fun _ _ => ?_) fun _ _ => .ok rfl
    refine (reads k).rel_bind ((reads k).rel_foldlM_map (fun c _ found => ih c found) found) ?_
    rintro found _ rfl
    rw [hw n]
    refine (reads k).rel_pure ?_
    split <;> rfl
  | absent x => exact Shift.reads_error (.dangling x)
  | endless x => exact Shift.reads_error (.broken (.endlessSlots x))

/-! ### Free names -/

theorem freeOnto (h : T.Shifted k T') (bound found : List String) :
    (reads k).rel Eq (T.freeOnto bound found) (T'.freeOnto bound found) := by
  induction h generalizing bound found with
  | @node n below below' parts ih =>
    unfold Tree.freeOnto
    rw [Node.kind_shift]
    split
    · refine (reads k).rel_bind (n.needText_shift "name") ?_
      rintro name _ rfl
      exact (reads k).rel_pure rfl
    · refine (reads k).rel_bind (n.needSlot_shift "arg") ?_
      rintro arg _ rfl
      rw [(parts arg).root?]
      cases (below arg).root? with
      | none => exact Shift.reads_error (.dangling arg)
      | some binder =>
        refine (reads k).rel_bind (n.needSlot_shift "body") ?_
        rintro body _ rfl
        exact ih body _ found
    · rw [Node.slots_shift, Slots.children_map]
      refine (reads k).rel_imp ((reads k).rel_foldlM_map (h := id)
        (fun c _ found => (reads k).rel_imp (ih c bound found) fun _ _ => Eq.symm) found)
        fun _ _ => Eq.symm
  | absent x => exact Shift.reads_error (.dangling x)
  | endless x => exact Shift.reads_error (.broken (.endlessSlots x))

/-! ### Comparing -/

theorem sameShape (h : T.Shifted k T') (h' : U.Shifted k U') :
    (reads k).rel Eq (T.sameShape U) (T'.sameShape U') := by
  induction h generalizing U U' with
  | @node n below below' _ ih =>
    cases h' with
    | @node m beside beside' parts =>
      unfold Tree.sameShape
      simp only [Node.kind_shift, Node.fields_shift, Node.slots_shift, Slots.size_map,
        Slots.entries_map, List.zip_map]
      refine (reads k).rel_ite Iff.rfl (fun _ _ => .ok rfl) fun _ _ => ?_
      refine (reads k).rel_allM_map fun e _ => ?_
      exact (reads k).rel_ite Iff.rfl (fun _ _ => .ok rfl) fun _ _ => ih e.1.2 (parts e.2.2)
    | absent x => exact Shift.reads_error (.dangling x)
    | endless x => exact Shift.reads_error (.broken (.endlessSlots x))
  | absent x => exact Shift.reads_error (.dangling x)
  | endless x => exact Shift.reads_error (.broken (.endlessSlots x))

/-! ### Normal terms -/

theorem isNormal (h : T.Shifted k T') (S : Signature) :
    (reads k).rel Eq (T.isNormal S) (T'.isNormal S) := by
  induction h with
  | @node n below below' parts ih =>
    have hpeek := fun c => (parts c).root?
    unfold Tree.isNormal
    rw [Node.kind_shift]
    refine (reads k).rel_bind (S.requireKind_shift n.kind) fun _ _ _ => ?_
    split
    · rw [n.coarseType_shift hpeek]
      exact (reads k).rel_pure rfl
    · refine (reads k).rel_bind (n.strictChildren_shift hpeek) ?_
      rintro strict _ rfl
      exact (reads k).rel_allM_map fun c _ => ih c
  | absent x => exact Shift.reads_error (.dangling x)
  | endless x => exact Shift.reads_error (.broken (.endlessSlots x))

theorem redex (h : T.Shifted k T') (S : Signature) :
    (reads k).rel (Image (Option.map (· + k))) (T.redex S) (T'.redex S) := by
  induction h with
  | @node n below below' parts ih =>
    unfold Tree.redex
    rw [Node.kind_shift, Node.locked_shift]
    refine (reads k).rel_ite Iff.rfl (fun _ _ => .ok rfl) fun _ _ => ?_
    refine (reads k).rel_bind (S.requireKind_shift n.kind) fun _ _ _ => ?_
    refine (reads k).rel_bind (n.strictChildren_shift fun c => (parts c).root?) ?_
    rintro strict _ rfl
    have hdiffers : ∀ c ∈ strict, (reads k).rel Eq (do return !(← (below c).isNormal S))
        (do return !(← (below' (c + k)).isNormal S)) := fun c _ =>
      (reads k).rel_bind ((parts c).isNormal S) fun _ _ hb => (reads k).rel_pure (hb ▸ rfl)
    refine (reads k).rel_bind ((reads k).rel_findM?_map hdiffers) ?_
    rintro found _ rfl
    cases found with
    | some c => exact ih c
    | none =>
      dsimp only [Option.map_none]
      split <;> exact (reads k).rel_pure rfl
  | absent x => exact Shift.reads_error (.dangling x)
  | endless x => exact Shift.reads_error (.broken (.endlessSlots x))

end Tree.Shifted

/-! ### Walks -/

namespace Forest

variable (F : Forest) (x : NodeId)

theorem findAll_shift {wanted wanted' : Node → Bool}
    (hw : ∀ n : Node, wanted' (n.shift k) = wanted n) :
    (reads k).rel (Image (List.map (Node.shift k))) (F.findAll x wanted)
      ((F.shift k).findAll (x + k) wanted') := by
  have hselect : (reads k).rel (Image (List.map (Node.shift k)))
      ((F.tree x).selectOnto wanted (fun _ => true) [])
      (((F.shift k).tree (x + k)).selectOnto wanted' (fun _ => true) []) :=
    Tree.Shifted.selectOnto (F.tree_shift x) hw (fun _ => by rfl) []
  refine (reads k).rel_bind hselect ?_
  rintro found _ rfl
  exact (reads k).rel_pure List.map_reverse.symm

theorem idsUnder_shift :
    (reads k).rel (Image (List.map (· + k))) (F.idsUnder x) ((F.shift k).idsUnder (x + k)) := by
  refine (reads k).rel_bind (F.findAll_shift x fun _ => rfl) ?_
  rintro ns _ rfl
  refine (reads k).rel_pure ?_
  rw [Image, List.map_map, List.map_map]
  rfl

theorem variableNames_shift :
    (reads k).rel Eq (F.variableNames x) ((F.shift k).variableNames (x + k)) := by
  refine (reads k).rel_bind (F.findAll_shift x fun _ => rfl) ?_
  rintro ns _ rfl
  refine (reads k).rel_pure ?_
  rw [List.filterMap_map]
  rfl

theorem freeVariables_shift :
    (reads k).rel Eq (F.freeVariables x) ((F.shift k).freeVariables (x + k)) :=
  (F.tree_shift x).freeOnto [] []

theorem sameShape_shift (y : NodeId) :
    (reads k).rel Eq (sameShape F x F y)
      (sameShape (F.shift k) (x + k) (F.shift k) (y + k)) :=
  (F.tree_shift x).sameShape (F.tree_shift y)

end Forest

theorem Signature.isNormal_shift (S : Signature) (F : Forest) (x : NodeId) :
    (reads k).rel Eq (S.isNormal F x) (S.isNormal (F.shift k) (x + k)) :=
  (F.tree_shift x).isNormal S

theorem Signature.redex_shift (S : Signature) (F : Forest) (x : NodeId) :
    (reads k).rel (Image (Option.map (· + k))) (S.redex F x) (S.redex (F.shift k) (x + k)) :=
  (F.tree_shift x).redex S

end TermForest
