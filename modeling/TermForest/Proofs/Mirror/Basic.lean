import TermForest.Forest.Editing
import TermForest.Proofs.Forest.Replace
import TermForest.Proofs.Mirror.Relator
import TermForest.Typing

/-!
# Mirrored forests

A mirror compares a run that hands out ids from `lo` on with one that hands them out from `hi` on. It
takes an older id to itself and the `k`-th new id of the first run to the `k`-th of the second. One
forest reflects another when they hold the same at the ids that are seen, up to this renaming.
-/

namespace TermForest

/-! ### Renaming ids -/

namespace Slots

variable {f : NodeId → NodeId} {s : Slots}

/-- The same slots with the images of the children. -/
def map (f : NodeId → NodeId) (s : Slots) : Slots :=
  ⟨s.entries.map fun e => (e.1, f e.2), by
    rw [List.map_map]
    exact s.nodup⟩

@[simp] theorem entries_map : (s.map f).entries = s.entries.map fun e => (e.1, f e.2) := rfl

@[simp] theorem names_map : (s.map f).names = s.names := by
  simp [names]

@[simp] theorem children_map : (s.map f).children = s.children.map f := by
  simp [children]

@[simp] theorem size_map : (s.map f).size = s.size := by
  simp [size]

theorem get?_map (name : String) : (s.map f).get? name = (s.get? name).map f := by
  unfold get?
  rw [entries_map]
  induction s.entries with
  | nil => rfl
  | cons e entries ih =>
    rw [List.map_cons, lookup_cons_eq_ite, lookup_cons_eq_ite, ih]
    split <;> rfl

theorem map_map (g : NodeId → NodeId) : (s.map f).map g = s.map (g ∘ f) :=
  ext_entries (by simp)

theorem map_set (name : String) (c : NodeId) :
    (s.set name c).map f = (s.map f).set name (f c) := by
  refine ext_entries ?_
  show (put name c s.entries).map _ = put name (f c) (s.entries.map _)
  induction s.entries with
  | nil => rfl
  | cons e entries ih =>
    rw [List.map_cons, put, put]
    split
    · rfl
    · rw [List.map_cons, ih]

theorem map_withChildren (cs : List NodeId) :
    (s.withChildren cs).map f = (s.map f).withChildren (cs.map f) := by
  refine ext_entries ?_
  show (s.names.zip cs).map _ = (s.map f).names.zip (cs.map f)
  rw [names_map, List.zip_map_right]
  rfl

theorem mem_of_mem_withChildren {cs : List NodeId} {c : NodeId}
    (h : c ∈ (s.withChildren cs).children) : c ∈ cs := by
  obtain ⟨e, he, rfl⟩ := List.mem_map.1 h
  exact (List.of_mem_zip he).2

theorem map_inOrder {α β : Type} {g : α → β} {table : Std.ExtTreeMap String α}
    {table' : Std.ExtTreeMap String β} (h : ∀ name : String, table'[name]? = table[name]?.map g)
    (names : List String) :
    inOrder table' names = (inOrder table names).map fun e => (e.1, g e.2) := by
  induction names generalizing table table' with
  | nil => rfl
  | cons name names ih =>
    have herase : ∀ n : String, (table'.erase name)[n]? = (table.erase name)[n]?.map g := by
      intro n
      rw [Std.ExtTreeMap.getElem?_erase, Std.ExtTreeMap.getElem?_erase]
      split
      · rfl
      · exact h n
    rw [inOrder, inOrder, h name]
    cases table[name]? with
    | none => exact ih h
    | some a => exact congrArg _ (ih herase)

theorem getElem?_insertMany_map {α β : Type} {g : α → β} {table : Std.ExtTreeMap String α}
    {table' : Std.ExtTreeMap String β} (h : ∀ name : String, table'[name]? = table[name]?.map g)
    (entries : List (String × α)) (name : String) :
    (table'.insertMany (entries.map fun e => (e.1, g e.2)))[name]? =
      (table.insertMany entries)[name]?.map g := by
  induction entries generalizing table table' with
  | nil => simpa using h name
  | cons e entries ih =>
    rw [List.map_cons, Std.ExtTreeMap.insertMany_cons, Std.ExtTreeMap.insertMany_cons]
    refine ih fun n => ?_
    rw [Std.ExtTreeMap.getElem?_insert, Std.ExtTreeMap.getElem?_insert]
    split
    · rfl
    · exact h n

theorem map_ofList (entries : List (String × NodeId)) :
    (ofList entries).map f = ofList (entries.map fun e => (e.1, f e.2)) := by
  refine ext_entries ?_
  show (distinct entries).map _ = distinct (entries.map _)
  unfold distinct
  rw [List.map_map]
  refine (map_inOrder (fun name => ?_) _).symm
  rw [Std.ExtTreeMap.ofList_eq_insertMany_empty, Std.ExtTreeMap.ofList_eq_insertMany_empty]
  exact getElem?_insertMany_map (by simp) entries name

/-- Whatever is in a table holds of what is listed in order. -/
theorem forall_inOrder {α : Type} {P : α → Prop} {table : Std.ExtTreeMap String α}
    (h : ∀ (name : String) a, table[name]? = some a → P a) (names : List String) :
    ∀ e ∈ inOrder table names, P e.2 := by
  induction names generalizing table with
  | nil => exact nofun
  | cons name names ih =>
    rw [inOrder]
    split
    · next a ha =>
      refine List.forall_mem_cons.2 ⟨h name a ha, ih fun n b hb => ?_⟩
      rw [Std.ExtTreeMap.getElem?_erase] at hb
      split at hb
      · cases hb
      · exact h n b hb
    · exact ih h

theorem forall_insertMany {α : Type} {P : α → Prop} {table : Std.ExtTreeMap String α}
    (h : ∀ (name : String) a, table[name]? = some a → P a) {entries : List (String × α)}
    (he : ∀ e ∈ entries, P e.2) (name : String) (a : α)
    (ha : (table.insertMany entries)[name]? = some a) : P a := by
  induction entries generalizing table with
  | nil => exact h name a (by simpa using ha)
  | cons e entries ih =>
    rw [Std.ExtTreeMap.insertMany_cons] at ha
    rw [List.forall_mem_cons] at he
    refine ih (fun n b hb => ?_) he.2 ha
    rw [Std.ExtTreeMap.getElem?_insert] at hb
    split at hb
    · cases hb
      exact he.1
    · exact h n b hb

theorem forall_children_ofList {P : NodeId → Prop} {entries : List (String × NodeId)}
    (h : ∀ e ∈ entries, P e.2) : ∀ c ∈ (ofList entries).children, P c := by
  intro c hc
  obtain ⟨e, he, rfl⟩ := List.mem_map.1 hc
  refine forall_inOrder (fun name a ha => ?_) _ e he
  rw [Std.ExtTreeMap.ofList_eq_insertMany_empty] at ha
  exact forall_insertMany (by simp) h name a ha

end Slots

namespace Node

variable {f : NodeId → NodeId} {n : Node}

/-- The same node with the images of its id and of the ids of its parent and its children. -/
def mapIds (f : NodeId → NodeId) (n : Node) : Node :=
  { n with id := f n.id, parent := n.parent.map f, slots := n.slots.map f }

@[simp] theorem id_mapIds : (n.mapIds f).id = f n.id := rfl

@[simp] theorem kind_mapIds : (n.mapIds f).kind = n.kind := rfl

@[simp] theorem parent_mapIds : (n.mapIds f).parent = n.parent.map f := rfl

@[simp] theorem parentSlot_mapIds : (n.mapIds f).parentSlot = n.parentSlot := rfl

@[simp] theorem fields_mapIds : (n.mapIds f).fields = n.fields := rfl

@[simp] theorem slots_mapIds : (n.mapIds f).slots = n.slots.map f := rfl

@[simp] theorem name?_mapIds : (n.mapIds f).name? = n.name? := rfl

theorem mapIds_mapIds (g : NodeId → NodeId) : (n.mapIds f).mapIds g = n.mapIds (g ∘ f) := by
  simp only [mapIds, Option.map_map, Slots.map_map]
  rfl

theorem mapIds_withSlot (slot : String) (c : NodeId) :
    (n.withSlot slot c).mapIds f = (n.mapIds f).withSlot slot (f c) := by
  unfold mapIds withSlot
  rw [Slots.map_set]

/-- A node keeps its links under a renaming that fixes all of them. -/
theorem mapIds_of_fixed (hid : f n.id = n.id) (hparent : ∀ p, n.parent = some p → f p = p)
    (hchildren : ∀ c ∈ n.slots.children, f c = c) : n.mapIds f = n := by
  have hp : n.parent.map f = n.parent := by
    cases h : n.parent with
    | none => rfl
    | some p => rw [Option.map_some, hparent p h]
  have hs : n.slots.map f = n.slots := by
    refine Slots.ext_entries ((List.map_congr_left fun e he => ?_).trans (List.map_id _))
    rw [hchildren e.2 (List.mem_map_of_mem he)]
    rfl
  unfold mapIds
  rw [hid, hp, hs]

end Node

/-! ### Mirrors -/

/-- The comparison of a run that hands out ids from `lo` on with one that hands them out from `hi`
on. -/
structure Mirror where
  lo : Nat
  hi : Nat
  le : lo ≤ hi
  /-- The ids at which the forests are compared. -/
  seen : NodeId → Prop
  seen_of_le : ∀ x : Nat, lo ≤ x → seen x
  /-- Whether the runs have to end in faults together. -/
  strict : Prop
  seen_of_strict : strict → ∀ x, seen x

namespace Mirror

variable {M : Mirror} {x y : NodeId}

/-- The id in the second run that goes with one in the first. -/
def image (M : Mirror) (x : NodeId) : NodeId := if (x : Nat) < M.lo then x else x + (M.hi - M.lo)

theorem image_of_lt (h : (x : Nat) < M.lo) : M.image x = x := if_pos h

theorem image_add (k : Nat) : M.image (M.lo + k) = M.hi + k := by
  have := M.le
  rw [image, if_neg (by lia)]
  show M.lo + k + (M.hi - M.lo) = M.hi + k
  lia

theorem image_injective : Function.Injective M.image := by
  intro x y h
  unfold image at h
  have := M.le
  split at h <;> split at h <;> simp only [NodeId] at * <;> lia

/-- An id that is seen, with its image. -/
def Ids (M : Mirror) (x y : NodeId) : Prop := y = M.image x ∧ M.seen x

/-- A node is seen with its children. -/
structure Sees (M : Mirror) (n : Node) : Prop where
  id : M.seen n.id
  children : ∀ c ∈ n.slots.children, M.seen c

/-- A node that is seen, with its image. -/
def Nodes (M : Mirror) (n n' : Node) : Prop := n' = n.mapIds M.image ∧ M.Sees n

/-- Two forests hold the same at the ids that are seen, and what is seen is closed under going to
children. In a strict comparison the second forest holds nothing else. -/
structure Reflects (M : Mirror) (F F' : Forest) : Prop where
  get? : ∀ x, M.seen x → F'.get? (M.image x) = (F.get? x).map (Node.mapIds M.image)
  closed : ∀ x n, M.seen x → F.get? x = some n → ∀ c ∈ n.slots.children, M.seen c
  onto : M.strict → ∀ y n, F'.get? y = some n → ∃ x, y = M.image x

namespace Reflects

variable {F F' : Forest} {n n' : Node}

theorem get?_of_ids (h : M.Reflects F F') (hx : M.Ids x y) :
    F'.get? y = (F.get? x).map (Node.mapIds M.image) := hx.1 ▸ h.get? x hx.2

theorem sees (h : M.Reflects F F') (hx : M.seen x) (hn : F.get? x = some n) : M.Sees n :=
  ⟨Forest.id_of_get? hn ▸ hx, h.closed x n hx hn⟩

theorem find (h : M.Reflects F F') (hx : M.Ids x y) :
    Agree M.strict M.Nodes (F.find x) (F'.find y) := by
  unfold Forest.find
  rw [h.get?_of_ids hx]
  cases hn : F.get? x with
  | none => exact .fatal nofun nofun
  | some n => exact .ok ⟨rfl, h.sees hx.2 hn⟩

theorem insert (h : M.Reflects F F') (hn : M.Nodes n n') :
    M.Reflects (F.insert n) (F'.insert n') where
  get? x hx := by
    rw [hn.1, Forest.get?_insert, Forest.get?_insert, Node.id_mapIds]
    by_cases hid : n.id = x
    · rw [if_pos (congrArg _ hid), if_pos hid, Option.map_some]
    · rw [if_neg (mt (image_injective ·) hid), if_neg hid, h.get? x hx]
  closed x m hx hm := by
    rw [Forest.get?_insert] at hm
    split at hm
    · cases hm
      exact hn.2.children
    · exact h.closed x m hx hm
  onto hs y m hm := by
    rw [hn.1, Forest.get?_insert] at hm
    split at hm
    · next hy => exact ⟨n.id, hy.symm⟩
    · exact h.onto hs y m hm

theorem insertAll {ns ns' : List Node} (hns : List.Forall₂ M.Nodes ns ns')
    (h : M.Reflects F F') : M.Reflects (F.insertAll ns) (F'.insertAll ns') := by
  induction hns generalizing F F' with
  | nil => exact h
  | cons hn _ ih => exact ih (h.insert hn)

/-- Forests that are compared strictly have equally many nodes. -/
theorem size_eq (h : M.Reflects F F') (hs : M.strict) : F'.size = F.size := by
  have hmem : ∀ y, y ∈ F'.ids ↔ y ∈ F.ids.map M.image := by
    intro y
    rw [Forest.mem_ids_iff, List.mem_map]
    constructor
    · rintro ⟨n, hn⟩
      obtain ⟨x, rfl⟩ := h.onto hs y n hn
      rw [h.get? x (M.seen_of_strict hs x), Option.map_eq_some_iff] at hn
      obtain ⟨m, hm, -⟩ := hn
      exact ⟨x, Forest.mem_ids_of_get? hm, rfl⟩
    · rintro ⟨x, hx, rfl⟩
      obtain ⟨m, hm⟩ := Forest.mem_ids_iff.1 hx
      exact ⟨_, (h.get? x (M.seen_of_strict hs x)).trans (congrArg _ hm)⟩
  have hperm := (List.perm_ext_iff_of_nodup F'.nodup_ids (F.nodup_ids.map image_injective)).2 hmem
  simpa [Forest.length_ids] using hperm.length_eq

/-! ### Looking up children -/

theorem peek (h : M.Reflects F F') (hn : M.Sees n) (slot : String) :
    F'.peek (n.mapIds M.image) slot = (F.peek n slot).map (Node.mapIds M.image) := by
  unfold Forest.peek
  rw [Node.slots_mapIds, Slots.get?_map]
  cases hc : n.slots.get? slot with
  | none => rfl
  | some c => exact h.get? c (hn.children c (Slots.mem_children_iff.2 ⟨slot, hc⟩))

theorem openParameter? (h : M.Reflects F F') (hn : M.Sees n) :
    F'.openParameter? (n.mapIds M.image) =
      (F.openParameter? n).map fun e => (e.1, M.image e.2) := by
  unfold Forest.openParameter? Node.openParameter?
  show n.parameters.findSome? _ = _
  rw [List.map_findSome?]
  refine congrArg (n.parameters.findSome? ·) (funext fun parameter => ?_)
  show (n.slots.map M.image).get? _ >>= _ = _
  rw [Slots.get?_map]
  dsimp only [Function.comp]
  cases hc : n.slots.get? (parameterSlot parameter) with
  | none => rfl
  | some c =>
    show F'.get? (M.image c) >>= _ = (F.get? c >>= _).map _
    rw [h.get? c (hn.children c (Slots.mem_children_iff.2 ⟨_, hc⟩))]
    cases F.get? c with
    | none => rfl
    | some m =>
      show (if m.kind = .hole then _ else none) = (if m.kind = .hole then _ else none).map _
      split <;> rfl

end Reflects

/-! ### Parts of nodes -/

variable {n n' : Node}

theorem Nodes.needSlot_mem (h : M.Nodes n n') (slot : String) :
    Agree M.strict (fun c c' => c' = M.image c ∧ c ∈ n.slots.children) (n.needSlot slot)
      (n'.needSlot slot) := by
  unfold Node.needSlot
  rw [h.1, Node.slots_mapIds, Slots.get?_map]
  cases hc : n.slots.get? slot with
  | none => exact .fatal nofun nofun
  | some c => exact .ok ⟨rfl, Slots.mem_children_iff.2 ⟨slot, hc⟩⟩

theorem Nodes.needSlot (h : M.Nodes n n') (slot : String) :
    Agree M.strict M.Ids (n.needSlot slot) (n'.needSlot slot) :=
  (Relator.reads M.strict Fault).rel_imp (h.needSlot_mem slot)
    fun _ _ hc => ⟨hc.1, h.2.children _ hc.2⟩

theorem Nodes.needText (h : M.Nodes n n') (key : String) :
    Agree M.strict Eq (n.needText key) (n'.needText key) := by
  unfold Node.needText
  rw [h.1, show (n.mapIds M.image).text? key = n.text? key from rfl]
  cases n.text? key with
  | none => exact .fatal nofun nofun
  | some s => exact .ok rfl

theorem Nodes.needInt (h : M.Nodes n n') (key : String) :
    Agree M.strict Eq (n.needInt key) (n'.needInt key) := by
  unfold Node.needInt
  rw [h.1, show (n.mapIds M.image).int? key = n.int? key from rfl]
  cases n.int? key with
  | none => exact .fatal nofun nofun
  | some i => exact .ok rfl

theorem Nodes.needBool (h : M.Nodes n n') (key : String) :
    Agree M.strict Eq (n.needBool key) (n'.needBool key) := by
  unfold Node.needBool
  rw [h.1, show (n.mapIds M.image).bool? key = n.bool? key from rfl]
  cases n.bool? key with
  | none => exact .fatal nofun nofun
  | some b => exact .ok rfl

theorem Nodes.children (h : M.Nodes n n') :
    List.Forall₂ M.Ids n.slots.children n'.slots.children := by
  rw [h.1, Node.slots_mapIds, Slots.children_map, List.forall₂_map_right_iff, List.forall₂_same]
  exact fun c hc => ⟨rfl, h.2.children c hc⟩

/-- A list that is compared item by item with its image. -/
theorem eq_map_of_forall₂ {α β : Type} {f : α → β} {P : α → Prop} {as : List α} {bs : List β}
    (h : List.Forall₂ (fun a b => b = f a ∧ P a) as bs) : bs = as.map f ∧ ∀ a ∈ as, P a := by
  induction h with
  | nil => exact ⟨rfl, nofun⟩
  | cons hx _ ih =>
    rw [List.map_cons, hx.1, ih.1]
    exact ⟨rfl, List.forall_mem_cons.2 ⟨hx.2, ih.2⟩⟩

end Mirror

end TermForest
