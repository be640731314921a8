import TermForest.Proofs.Forest.Replace

/-!
# Listings of forests

The nodes of a forest in the order of their ids. The list is that of the look-ups of all ids, and
gives the forest back, whatever changes the forest has come from.
-/

namespace TermForest

namespace Forest

variable {F G : Forest} {n : Node} {id : NodeId}

/-! ### Ids -/

theorem pairwise_ids (F : Forest) : F.ids.Pairwise (· < ·) :=
  Std.ExtTreeMap.ordered_keys.imp Nat.compare_eq_lt.1

/-- An ascending list with the ids of a forest is the list of its ids. -/
theorem ids_eq_of_mem_iff {ids : List NodeId} (h : ids.Pairwise (· < ·))
    (hmem : ∀ x, x ∈ F.ids ↔ x ∈ ids) : F.ids = ids :=
  ((List.perm_ext_iff_of_nodup (nodup_ids F) h.nodup).2 hmem).eq_of_pairwise
    (fun _ _ _ _ hab hba => absurd hba (Nat.lt_asymm hab)) (pairwise_ids F) h

/-- The ids in whatever order, once they are sorted. -/
theorem mergeSort_of_perm {ids : List NodeId} (h : ids.Perm F.ids) : ids.mergeSort = F.ids := by
  have hsorted : ids.mergeSort.Pairwise (· ≤ ·) := by
    simpa using @List.pairwise_mergeSort NodeId (fun a b => decide (a ≤ b))
      (fun a b c => by simpa using Nat.le_trans) (fun a b => by simpa using Nat.le_total a b) ids
  exact ((List.mergeSort_perm ids _).trans h).eq_of_pairwise (fun _ _ _ _ => Nat.le_antisymm)
    hsorted ((pairwise_ids F).imp Nat.le_of_lt)

/-! ### Nodes -/

theorem toList_eq_map_snd (F : Forest) : F.toList = F.nodes.toList.map Prod.snd := by
  have hfold : ∀ t : Std.ExtTreeMap NodeId Node, t.values = t.foldr (fun _ n ns => n :: ns) [] := by
    rintro ⟨t⟩
    exact Std.ExtDTreeMap.inductionOn t fun t => rfl
  rw [toList, hfold, Std.ExtTreeMap.foldr_eq_foldr_toList]
  induction F.nodes.toList with
  | nil => rfl
  | cons e es ih => rw [List.foldr_cons, ih, List.map_cons]

theorem mem_toList_iff : n ∈ F.toList ↔ F.get? n.id = some n := by
  rw [toList_eq_map_snd, List.mem_map]
  constructor
  · rintro ⟨⟨id, m⟩, hm, rfl⟩
    have hget : F.get? id = some m := Std.ExtTreeMap.mem_toList_iff_getElem?_eq_some.1 hm
    rw [id_of_get? hget, hget]
  · exact fun h => ⟨(n.id, n), Std.ExtTreeMap.mem_toList_iff_getElem?_eq_some.2 h, rfl⟩

theorem map_id_toList (F : Forest) : F.toList.map Node.id = F.ids := by
  rw [ids, ← Std.ExtTreeMap.map_fst_toList_eq_keys, toList_eq_map_snd, List.map_map]
  refine List.map_congr_left ?_
  rintro ⟨id, m⟩ hm
  exact id_of_get? (Std.ExtTreeMap.mem_toList_iff_getElem?_eq_some.1 hm)

theorem nodup_map_id_toList (F : Forest) : (F.toList.map Node.id).Nodup :=
  map_id_toList F ▸ nodup_ids F

/-- The nodes are found by a look-up of every id. -/
theorem filterMap_get?_ids (F : Forest) : F.ids.filterMap F.get? = F.toList := by
  rw [← map_id_toList, List.filterMap_map]
  conv_rhs => rw [← List.filterMap_some (l := F.toList)]
  exact List.filterMap_congr fun n hn => mem_toList_iff.1 hn

/-- The nodes make up the forest again. -/
theorem ofList_toList (F : Forest) : ofList F.toList = F := by
  refine Forest.ext fun id => ?_
  cases h : F.get? id with
  | some n =>
    obtain rfl := id_of_get? h
    exact get?_insertAll_of_mem (nodup_map_id_toList F) (mem_toList_iff.2 h)
  | none =>
    refine (get?_insertAll_of_notMem ?_).trans (get?_empty id)
    rw [map_id_toList, mem_ids_iff]
    rintro ⟨n, hn⟩
    rw [h] at hn
    cases hn

/-! ### Histories -/

/-- A change of the node of one id. -/
inductive Change where
  | insert (n : Node)
  | erase (id : NodeId)

namespace Change

/-- The forest after a change. -/
def apply (F : Forest) : Change → Forest
  | insert n => F.insert n
  | erase id => F.erase id

/-- What a change leaves at an id. -/
def leaves (id : NodeId) (before : Option Node) : Change → Option Node
  | insert n => if n.id = id then some n else before
  | erase i => if i = id then none else before

theorem get?_apply (F : Forest) (c : Change) (id : NodeId) :
    (c.apply F).get? id = c.leaves id (F.get? id) := by
  cases c with
  | insert n => exact get?_insert F n id
  | erase i => exact get?_erase F i id

end Change

/-- The forest that comes of some changes, the first one first. -/
def replay (changes : List Change) : Forest := changes.foldl Change.apply ∅

/-- What some changes leave at an id. -/
def left (changes : List Change) (id : NodeId) : Option Node :=
  changes.foldl (Change.leaves id) none

theorem get?_replay (changes : List Change) (id : NodeId) :
    (replay changes).get? id = left changes id := by
  unfold replay left
  rw [← get?_empty id]
  generalize (∅ : Forest) = F
  induction changes generalizing F with
  | nil => rfl
  | cons c changes ih => rw [List.foldl_cons, ih, Change.get?_apply, List.foldl_cons]

end Forest

end TermForest
