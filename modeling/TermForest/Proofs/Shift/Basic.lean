import TermForest.Game
import TermForest.Proofs.Forest.Listing
import TermForest.Proofs.Mirror.Basic

/-!
# Shifted ids

All ids in a piece of data are raised by the same number. What a forest or a state tells of an id, the
shifted one tells of the shifted id.
-/

namespace TermForest

variable {k : Nat}

/-! ### Lists of ids -/

theorem mem_map_shift {x : NodeId} {ids : List NodeId} : x + k ∈ ids.map (· + k) ↔ x ∈ ids :=
  List.mem_map_of_injective fun _ _ => Nat.add_right_cancel

theorem filter_map_shift {p p' : NodeId → Bool} (h : ∀ x, p' (x + k) = p x) (ids : List NodeId) :
    (ids.map (· + k)).filter p' = (ids.filter p).map (· + k) := by
  rw [List.filter_map]
  exact congrArg _ (List.filter_congr fun x _ => h x)

theorem filter_ne_shift (ids : List NodeId) (x : NodeId) :
    (ids.map (· + k)).filter (· ≠ x + k) = (ids.filter (· ≠ x)).map (· + k) :=
  filter_map_shift (fun y => by simp) ids

theorem filter_notMem_shift (ids gone : List NodeId) :
    (ids.map (· + k)).filter (· ∉ gone.map (· + k)) = (ids.filter (· ∉ gone)).map (· + k) :=
  filter_map_shift (fun x => by simp only [mem_map_shift]) ids

theorem map_exchange_shift (ids : List NodeId) (x y : NodeId) :
    (ids.map (· + k)).map (fun id => if id = x + k then y + k else id) =
      (ids.map fun id => if id = x then y else id).map (· + k) := by
  rw [List.map_map, List.map_map]
  refine List.map_congr_left fun id _ => ?_
  simp only [Function.comp, Nat.add_right_cancel_iff]
  split <;> rfl

/-! ### Nodes -/

namespace Node

/-- The same node with its id and the ids of its parent and its children raised by `k`. -/
def shift (k : Nat) (n : Node) : Node := n.mapIds (· + k)

variable (n : Node)

@[simp] theorem id_shift : (n.shift k).id = n.id + k := rfl

@[simp] theorem kind_shift : (n.shift k).kind = n.kind := rfl

@[simp] theorem parent_shift : (n.shift k).parent = n.parent.map (· + k) := rfl

@[simp] theorem parentSlot_shift : (n.shift k).parentSlot = n.parentSlot := rfl

@[simp] theorem fields_shift : (n.shift k).fields = n.fields := rfl

@[simp] theorem slots_shift : (n.shift k).slots = n.slots.map (· + k) := rfl

@[simp] theorem locked_shift : (n.shift k).locked = n.locked := rfl

@[simp] theorem text?_shift (key : String) : (n.shift k).text? key = n.text? key := rfl

@[simp] theorem int?_shift (key : String) : (n.shift k).int? key = n.int? key := rfl

@[simp] theorem bool?_shift (key : String) : (n.shift k).bool? key = n.bool? key := rfl

@[simp] theorem name?_shift : (n.shift k).name? = n.name? := rfl

@[simp] theorem parameters_shift : (n.shift k).parameters = n.parameters := rfl

theorem shift_withSlot (slot : String) (c : NodeId) :
    (n.withSlot slot c).shift k = (n.shift k).withSlot slot (c + k) := mapIds_withSlot slot c

theorem shift_withChildren (cs : List NodeId) :
    ({ n with slots := n.slots.withChildren cs } : Node).shift k =
      { n.shift k with slots := (n.shift k).slots.withChildren (cs.map (· + k)) } := by
  simp only [shift, mapIds, Slots.map_withChildren]

end Node

/-! ### Forests -/

namespace Forest

variable {F : Forest} {x y : NodeId}

/-- The same forest with all ids raised by `k`. -/
def shift (k : Nat) (F : Forest) : Forest := ofList (F.toList.map (Node.shift k))

theorem map_id_shift (F : Forest) :
    (F.toList.map (Node.shift k)).map Node.id = F.ids.map (· + k) := by
  rw [← map_id_toList, List.map_map, List.map_map]
  rfl

theorem get?_shift (F : Forest) (x : NodeId) :
    (F.shift k).get? (x + k) = (F.get? x).map (Node.shift k) := by
  cases h : F.get? x with
  | some n =>
    obtain rfl := id_of_get? h
    have hnodup : ((F.toList.map (Node.shift k)).map Node.id).Nodup := by
      rw [map_id_shift]
      exact F.nodup_ids.map fun _ _ => Nat.add_right_cancel
    exact get?_insertAll_of_mem hnodup (List.mem_map_of_mem (mem_toList_iff.2 h))
  | none =>
    refine (get?_insertAll_of_notMem ?_).trans (get?_empty _)
    rw [map_id_shift, mem_map_shift, mem_ids_iff]
    rintro ⟨n, hn⟩
    rw [h] at hn
    cases hn

theorem get?_shift_of_lt (F : Forest) (hy : (y : Nat) < k) : (F.shift k).get? y = none := by
  refine (get?_insertAll_of_notMem ?_).trans (get?_empty _)
  rw [map_id_shift, List.mem_map]
  rintro ⟨x, -, rfl⟩
  exact absurd hy (Nat.not_lt.2 (Nat.le_add_left k x))

/-- A forest is the shifted one if it tells the same of shifted ids and knows no lower ones. -/
theorem eq_shift {G : Forest} (h : ∀ x, G.get? (x + k) = (F.get? x).map (Node.shift k))
    (hlow : ∀ y : Nat, y < k → G.get? y = none) : G = F.shift k := by
  refine Forest.ext fun y => ?_
  by_cases hy : (y : Nat) < k
  · rw [hlow y hy, get?_shift_of_lt F hy]
  · obtain ⟨x, rfl⟩ := Nat.exists_eq_add_of_le' (Nat.not_lt.1 hy)
    rw [h, get?_shift]

@[simp] theorem shift_empty : (∅ : Forest).shift k = ∅ :=
  (eq_shift (fun x => by rw [get?_empty, get?_empty, Option.map_none])
    fun _ _ => get?_empty _).symm

theorem shift_insert (F : Forest) (n : Node) :
    (F.insert n).shift k = (F.shift k).insert (n.shift k) := by
  refine (eq_shift (fun x => ?_) fun y hy => ?_).symm
  · rw [get?_insert, get?_insert, Node.id_shift, get?_shift]
    by_cases hx : n.id = x
    · rw [if_pos (congrArg (· + k) hx), if_pos hx, Option.map_some]
    · rw [if_neg (mt Nat.add_right_cancel hx), if_neg hx]
  · rw [get?_insert, if_neg, get?_shift_of_lt F hy]
    rintro rfl
    exact absurd hy (Nat.not_lt.2 (Nat.le_add_left k n.id))

theorem shift_insertAll (F : Forest) (ns : List Node) :
    (F.insertAll ns).shift k = (F.shift k).insertAll (ns.map (Node.shift k)) := by
  unfold insertAll
  induction ns generalizing F with
  | nil => rfl
  | cons n ns ih => rw [List.foldl_cons, ih, shift_insert, List.map_cons, List.foldl_cons]

theorem shift_erase (F : Forest) (x : NodeId) : (F.erase x).shift k = (F.shift k).erase (x + k) := by
  refine (eq_shift (fun y => ?_) fun y hy => ?_).symm
  · rw [get?_erase, get?_erase, get?_shift]
    by_cases hx : x = y
    · rw [if_pos (congrArg (· + k) hx), if_pos hx, Option.map_none]
    · rw [if_neg (mt Nat.add_right_cancel hx), if_neg hx]
  · rw [get?_erase, get?_shift_of_lt F hy, ite_self]

theorem shift_eraseAll (F : Forest) (ids : List NodeId) :
    (F.eraseAll ids).shift k = (F.shift k).eraseAll (ids.map (· + k)) := by
  unfold eraseAll
  induction ids generalizing F with
  | nil => rfl
  | cons x ids ih => rw [List.foldl_cons, ih, shift_erase, List.map_cons, List.foldl_cons]

theorem has_shift (F : Forest) (x : NodeId) : (F.shift k).has (x + k) = F.has x := by
  rw [has_eq_isSome, has_eq_isSome, get?_shift, Option.isSome_map]

theorem mem_ids_shift (F : Forest) (x : NodeId) : x + k ∈ (F.shift k).ids ↔ x ∈ F.ids := by
  rw [mem_ids_iff, mem_ids_iff, get?_shift]
  simp

/-- Both forests list their ids in increasing order. -/
theorem ids_shift (F : Forest) : (F.shift k).ids = F.ids.map (· + k) := by
  have hperm : (F.shift k).ids.Perm (F.ids.map (· + k)) := by
    refine (List.perm_ext_iff_of_nodup (F.shift k).nodup_ids
      (F.nodup_ids.map fun _ _ => Nat.add_right_cancel)).2 fun y => ?_
    by_cases hy : (y : Nat) < k
    · refine iff_of_false (fun hmem => ?_) fun hmem => ?_
      · obtain ⟨n, hn⟩ := mem_ids_iff.1 hmem
        rw [get?_shift_of_lt F hy] at hn
        cases hn
      · obtain ⟨x, -, rfl⟩ := List.mem_map.1 hmem
        exact absurd hy (Nat.not_lt.2 (Nat.le_add_left k x))
    · obtain ⟨x, rfl⟩ := Nat.exists_eq_add_of_le' (Nat.not_lt.1 hy)
      rw [mem_ids_shift, mem_map_shift]
  refine hperm.eq_of_pairwise ?_ Std.ExtTreeMap.ordered_keys
    (Std.ExtTreeMap.ordered_keys.map _ fun a b h => ?_)
  · intro a b _ _ hab hba
    rw [Nat.compare_eq_lt] at hab hba
    exact absurd hab (Nat.lt_asymm hba)
  · rw [Nat.compare_eq_lt] at h ⊢
    exact Nat.add_lt_add_right h k

theorem size_shift (F : Forest) : (F.shift k).size = F.size := by
  rw [← length_ids, ← length_ids, ids_shift, List.length_map]

/-! ### Looking up children -/

theorem peek_shift (F : Forest) (n : Node) (slot : String) :
    (F.shift k).peek (n.shift k) slot = (F.peek n slot).map (Node.shift k) := by
  unfold peek
  rw [Node.slots_shift, Slots.get?_map]
  cases n.slots.get? slot with
  | none => rfl
  | some c => exact get?_shift F c

end Forest

theorem Node.openParameter?_shift (n : Node) {peek peek' : NodeId → Option Node}
    (h : ∀ x, peek' (x + k) = (peek x).map (Node.shift k)) :
    (n.shift k).openParameter? peek' = (n.openParameter? peek).map fun e => (e.1, e.2 + k) := by
  unfold Node.openParameter?
  rw [Node.parameters_shift, List.map_findSome?]
  refine congrArg (n.parameters.findSome? ·) (funext fun parameter => ?_)
  show (n.slots.map (· + k)).get? _ >>= _ = _
  rw [Slots.get?_map]
  dsimp only [Function.comp]
  cases n.slots.get? (parameterSlot parameter) with
  | none => rfl
  | some c =>
    show peek' (c + k) >>= _ = (peek c >>= _).map _
    rw [h]
    cases peek c with
    | none => rfl
    | some m =>
      show (if m.kind = .hole then _ else none) = (if m.kind = .hole then _ else none).map _
      split <;> rfl

theorem Node.coarseType_shift (n : Node) {peek peek' : NodeId → Option Node}
    (h : ∀ x, peek' (x + k) = (peek x).map (Node.shift k)) :
    (n.shift k).coarseType peek' = n.coarseType peek := by
  unfold Node.coarseType
  rw [Node.kind_shift, n.openParameter?_shift h, Option.isSome_map]

theorem Forest.openParameter?_shift (F : Forest) (n : Node) :
    (F.shift k).openParameter? (n.shift k) = (F.openParameter? n).map fun e => (e.1, e.2 + k) :=
  n.openParameter?_shift F.get?_shift

/-! ### States -/

namespace State

/-- The same state with all ids raised by `k`. -/
def shift (k : Nat) (s : State) : State where
  nodes := s.nodes.shift k
  board := s.board.map (· + k)
  toolbox := s.toolbox.map (· + k)
  defs := s.defs.map (· + k)
  goal := s.goal.map (· + k)
  level := s.level
  mode := s.mode
  added := s.added.map (· + k)
  removed := s.removed.map (· + k)

variable (s : State)

@[simp] theorem nodes_shift : (s.shift k).nodes = s.nodes.shift k := rfl

@[simp] theorem board_shift : (s.shift k).board = s.board.map (· + k) := rfl

@[simp] theorem toolbox_shift : (s.shift k).toolbox = s.toolbox.map (· + k) := rfl

@[simp] theorem defs_shift : (s.shift k).defs = s.defs.map (· + k) := rfl

@[simp] theorem goal_shift : (s.shift k).goal = s.goal.map (· + k) := rfl

theorem filterMap_defs_shift : (s.shift k).defs.filterMap (s.shift k).nodes.get? =
    (s.defs.filterMap s.nodes.get?).map (Node.shift k) := by
  rw [defs_shift, List.filterMap_map, List.map_filterMap]
  exact List.filterMap_congr fun d _ => s.nodes.get?_shift d

theorem definition?_shift (name : String) :
    (s.shift k).definition? name = (s.definition? name).map (Node.shift k) := by
  unfold definition?
  rw [filterMap_defs_shift, List.find?_map]
  rfl

end State

/-! ### Failures -/

/-- The same rejection of a node whose id is raised by `k`. -/
def Rejection.shift (k : Nat) : Rejection → Rejection
  | .wrongType node expected actual => .wrongType (node + k) expected actual
  | .notOnBoard node => .notOnBoard (node + k)
  | .emptyHole node => .emptyHole (node + k)
  | .unknownName node name => .unknownName (node + k) name
  | .circularCall node name => .circularCall (node + k) name
  | .fullyBound node => .fullyBound (node + k)
  | .parameterCount node expected actual => .parameterCount (node + k) expected actual
  | .builtin node text => .builtin (node + k) text

/-- The same flaw of a node whose id is raised by `k`. -/
def Flaw.shift (k : Nat) : Flaw → Flaw
  | .noSlot kind node slot => .noSlot kind (node + k) slot
  | .noField kind node key => .noField kind (node + k) key
  | .strangeOperator op node => .strangeOperator op (node + k)
  | .noArgument node position => .noArgument (node + k) position
  | .extraSlot kind slot => .extraSlot kind slot
  | .absentField kind key => .absentField kind key
  | .misshapenField kind key => .misshapenField kind key
  | .unknownOperator op => .unknownOperator op
  | .negativeLength => .negativeLength
  | .notDefinition kind => .notDefinition kind

/-- The same breach at nodes whose ids are raised by `k`. -/
def Breach.shift (k : Nat) : Breach → Breach
  | .endlessParents node => .endlessParents (node + k)
  | .endlessSlots node => .endlessSlots (node + k)
  | .noParentSlot node parent => .noParentSlot (node + k) (parent + k)
  | .noOpenParameter reference => .noOpenParameter (reference + k)
  | .looseHole hole => .looseHole (hole + k)
  | .noSecondPhase builtin => .noSecondPhase builtin
  | .noHistory => .noHistory
  | .refused node => .refused (node + k)

/-- The same fault at nodes whose ids are raised by `k`. -/
def Fault.shift (k : Nat) : Fault → Fault
  | .dangling node => .dangling (node + k)
  | .unregistered name => .unregistered name
  | .unknownTag tag => .unknownTag tag
  | .malformed flaw => .malformed (flaw.shift k)
  | .unknownLevel index => .unknownLevel index
  | .staleStep target => .staleStep (target + k)
  | .broken breach => .broken (breach.shift k)
  | .format => .format
  | .unreadable => .unreadable

/-- The same failure at nodes whose ids are raised by `k`. -/
def Failure.shift (k : Nat) : Failure → Failure
  | .rejected why => .rejected (why.shift k)
  | .fatal fault => .fatal (fault.shift k)

end TermForest
