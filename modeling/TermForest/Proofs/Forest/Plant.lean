import Mathlib.Data.List.Nodup
import Mathlib.Data.List.Perm.Subperm
import TermForest.Forest.Tree
import TermForest.Proofs.Slots

/-!
# Plants

A plant is a finite tree of nodes, written out. A forest holds a plant when it keeps the nodes of
the plant and their slots lead to the parts of the plant. What hangs below an id of a forest is
known in full once a plant at that id is held: the unfolded tree ends, and walks over it succeed.
-/

namespace TermForest

/-- A finite tree of nodes. -/
inductive Plant where
  | mk (root : Node) (parts : List Plant)

namespace Plant

/-! ### Parts -/

/-- The node at the foot of a plant. -/
def root : Plant → Node
  | .mk root _ => root

/-- The plants that hang in the slots of the root, in slot order. -/
def parts : Plant → List Plant
  | .mk _ parts => parts

/-- The id of the root. -/
def id (t : Plant) : NodeId := t.root.id

@[simp] theorem root_mk (root : Node) (parts : List Plant) : (mk root parts).root = root := rfl

@[simp] theorem parts_mk (root : Node) (parts : List Plant) : (mk root parts).parts = parts := rfl

@[simp] theorem id_mk (root : Node) (parts : List Plant) : (mk root parts).id = root.id := rfl

/-- What holds of a plant when it holds of its parts holds of every plant. -/
theorem induct {P : Plant → Prop}
    (step : ∀ root parts, (∀ t ∈ parts, P t) → P (.mk root parts)) (t : Plant) : P t :=
  @rec P (fun parts => ∀ t ∈ parts, P t) step nofun
    (fun _ _ ht hts u hu => (List.mem_cons.1 hu).elim (fun e => e ▸ ht) (hts u)) t

mutual

/-- A plant and all that hang in it, parts before wholes. -/
def subs : Plant → List Plant
  | .mk root parts => subsOf parts ++ [.mk root parts]

/-- What hangs in some plants, one after the other. -/
def subsOf : List Plant → List Plant
  | [] => []
  | t :: ts => t.subs ++ subsOf ts

end

theorem subsOf_eq_flatMap (ts : List Plant) : subsOf ts = ts.flatMap subs := by
  induction ts with
  | nil => rfl
  | cons t ts ih => rw [subsOf, ih, List.flatMap_cons]

theorem subs_mk (root : Node) (parts : List Plant) :
    (mk root parts).subs = parts.flatMap subs ++ [mk root parts] := by
  rw [subs, subsOf_eq_flatMap]

theorem mem_subs_self (t : Plant) : t ∈ t.subs := by
  obtain ⟨root, parts⟩ := t
  simp [subs_mk]

theorem mem_subs_mk {root : Node} {parts : List Plant} {u : Plant} :
    u ∈ (mk root parts).subs ↔ u = mk root parts ∨ ∃ t ∈ parts, u ∈ t.subs := by
  simp [subs_mk, or_comm]

theorem mem_subs_of_mem_parts {t u : Plant} (h : u ∈ t.parts) : u ∈ t.subs := by
  obtain ⟨root, parts⟩ := t
  exact mem_subs_mk.2 (.inr ⟨u, h, u.mem_subs_self⟩)

theorem mem_subs_trans {t u v : Plant} (hv : v ∈ u.subs) (hu : u ∈ t.subs) : v ∈ t.subs := by
  induction t using induct with
  | step root parts ih =>
    rcases mem_subs_mk.1 hu with rfl | ⟨p, hp, hup⟩
    · exact hv
    · exact mem_subs_mk.2 (.inr ⟨p, hp, ih p hp hup⟩)

/-! ### Nodes and ids -/

/-- The nodes of a plant, children before parents. -/
def nodes (t : Plant) : List Node := t.subs.map root

/-- The ids of a plant, children before parents. -/
def ids (t : Plant) : List NodeId := t.subs.map id

@[simp] theorem map_id_nodes (t : Plant) : t.nodes.map Node.id = t.ids := by
  simp only [nodes, ids, List.map_map]
  rfl

@[simp] theorem nodes_mk (root : Node) (parts : List Plant) :
    (mk root parts).nodes = parts.flatMap nodes ++ [root] := by
  simp only [nodes, subs_mk, List.map_append, List.map_flatMap, List.map_cons, root_mk,
    List.map_nil]
  rfl

@[simp] theorem ids_mk (root : Node) (parts : List Plant) :
    (mk root parts).ids = parts.flatMap ids ++ [root.id] := by
  simp only [ids, subs_mk, List.map_append, List.map_flatMap, List.map_cons, id_mk, List.map_nil]
  rfl

theorem mem_nodes_iff {t : Plant} {n : Node} : n ∈ t.nodes ↔ ∃ u ∈ t.subs, u.root = n := by
  simp [nodes]

theorem mem_ids_iff {t : Plant} {x : NodeId} : x ∈ t.ids ↔ ∃ u ∈ t.subs, u.id = x := by
  simp [ids]

theorem mem_ids_iff_nodes {t : Plant} {x : NodeId} : x ∈ t.ids ↔ ∃ n ∈ t.nodes, n.id = x := by
  simp [← map_id_nodes]

theorem root_mem_nodes (t : Plant) : t.root ∈ t.nodes :=
  mem_nodes_iff.2 ⟨t, t.mem_subs_self, rfl⟩

theorem id_mem_ids (t : Plant) : t.id ∈ t.ids :=
  mem_ids_iff.2 ⟨t, t.mem_subs_self, rfl⟩

theorem nodes_subset_of_mem_subs {t u : Plant} (h : u ∈ t.subs) : u.nodes ⊆ t.nodes := by
  intro n hn
  obtain ⟨v, hv, rfl⟩ := mem_nodes_iff.1 hn
  exact mem_nodes_iff.2 ⟨v, mem_subs_trans hv h, rfl⟩

theorem ids_subset_of_mem_subs {t u : Plant} (h : u ∈ t.subs) : u.ids ⊆ t.ids := by
  intro x hx
  obtain ⟨v, hv, rfl⟩ := mem_ids_iff.1 hx
  exact mem_ids_iff.2 ⟨v, mem_subs_trans hv h, rfl⟩

theorem length_ids (t : Plant) : t.ids.length = t.nodes.length := by
  simp [ids, nodes]

/-- A part has fewer nodes than the whole. -/
theorem length_nodes_lt (root : Node) {parts : List Plant} {t : Plant} (h : t ∈ parts) :
    t.nodes.length < (mk root parts).nodes.length := by
  obtain ⟨before, after, rfl⟩ := List.append_of_mem h
  simp
  omega

/-- No id stands twice in a plant of which no id stands twice in the whole. -/
theorem nodup_ids_of_mem_subs {t u : Plant} (ht : t.ids.Nodup) (h : u ∈ t.subs) :
    u.ids.Nodup := by
  induction t using induct with
  | step root parts ih =>
    rcases mem_subs_mk.1 h with rfl | ⟨p, hp, hup⟩
    · exact ht
    · rw [ids_mk, List.nodup_append, List.nodup_flatMap] at ht
      exact ih p hp (ht.1.1 p hp) hup

/-- Parts of a plant in which no id stands twice are told apart by each of their ids. -/
theorem eq_of_mem_ids {root : Node} {parts : List Plant} {p q : Plant} {x : NodeId}
    (hn : (mk root parts).ids.Nodup) (hp : p ∈ parts) (hq : q ∈ parts) (hx : x ∈ p.ids)
    (hx' : x ∈ q.ids) : p = q := by
  rw [ids_mk, List.nodup_append, List.nodup_flatMap, List.pairwise_iff_getElem] at hn
  obtain ⟨i, hi, rfl⟩ := List.getElem_of_mem hp
  obtain ⟨j, hj, rfl⟩ := List.getElem_of_mem hq
  rcases Nat.lt_trichotomy i j with hij | rfl | hij
  · exact (hn.1.2 i j hi hj hij hx hx').elim
  · rfl
  · exact (hn.1.2 j i hj hi hij hx' hx).elim

end Plant

/-! ### Plants in forests -/

/-- A forest keeps the nodes of a plant, and their slots lead to its parts. -/
inductive Forest.Holds (F : Forest) : Plant → Prop where
  | mk {root : Node} {parts : List Plant} (get : F.get? root.id = some root)
      (children : root.slots.children = parts.map Plant.id)
      (held : ∀ t ∈ parts, F.Holds t) : F.Holds (.mk root parts)

namespace Forest

variable {F G : Forest} {t u : Plant}

@[simp] theorem find_eq_ok_iff {id : NodeId} {n : Node} :
    F.find id = .ok n ↔ F.get? id = some n := by
  unfold find
  split <;> simp_all

theorem find_eq_error_iff {id : NodeId} {e : Fault} :
    F.find id = .error e ↔ e = .dangling id ∧ F.get? id = none := by
  unfold find
  split
  · next hn => simp [hn]
  · next hn => simp [hn, eq_comm]

/-- Putting in a node that is there changes nothing. -/
theorem insert_of_get? {n : Node} (h : F.get? n.id = some n) : F.insert n = F := by
  apply Forest.ext
  intro x
  rw [get?_insert]
  split
  · next hx => rw [← hx, h]
  · rfl

theorem mem_ids_of_get? {id : NodeId} {n : Node} (h : F.get? id = some n) : id ∈ F.ids := by
  refine Std.ExtTreeMap.mem_keys.2 (Std.ExtTreeMap.mem_iff_isSome_getElem?.2 ?_)
  rw [show F.nodes[id]? = some n from h]
  rfl

theorem length_ids : F.ids.length = F.size := Std.ExtTreeMap.length_keys

theorem holds_mk_iff {root : Node} {parts : List Plant} :
    F.Holds (.mk root parts) ↔
      F.get? root.id = some root ∧ root.slots.children = parts.map Plant.id ∧
        ∀ t ∈ parts, F.Holds t :=
  ⟨fun | .mk get children held => ⟨get, children, held⟩,
    fun ⟨get, children, held⟩ => .mk get children held⟩

theorem Holds.get?_id (h : F.Holds t) : F.get? t.id = some t.root := by
  cases h with
  | mk get => exact get

theorem Holds.children (h : F.Holds t) : t.root.slots.children = t.parts.map Plant.id := by
  cases h with
  | mk _ children => exact children

theorem Holds.of_mem_subs (h : F.Holds t) (hu : u ∈ t.subs) : F.Holds u := by
  induction h with
  | mk get children held ih =>
    rcases Plant.mem_subs_mk.1 hu with rfl | ⟨p, hp, hup⟩
    · exact .mk get children held
    · exact ih p hp hup

/-- A plant whose root has two children has two parts. -/
theorem Holds.exists_pair (h : F.Holds t) {y z : NodeId} {m k : Node}
    (hc : t.root.slots.children = [y, z]) (hm : F.get? y = some m) (hk : F.get? z = some k) :
    ∃ p q : Plant, t.parts = [p, q] ∧ p.root = m ∧ q.root = k ∧ F.Holds p ∧ F.Holds q := by
  have hparts : t.parts.map Plant.id = [y, z] := h.children.symm.trans hc
  obtain ⟨p, rest, hp, rfl, hrest⟩ := List.map_eq_cons_iff.1 hparts
  obtain ⟨q, hq, rfl⟩ := List.map_eq_singleton_iff.1 hrest
  subst hq
  have hheld : F.Holds p ∧ F.Holds q :=
    ⟨h.of_mem_subs (Plant.mem_subs_of_mem_parts (by simp [hp])),
      h.of_mem_subs (Plant.mem_subs_of_mem_parts (by simp [hp]))⟩
  exact ⟨p, q, hp, Option.some.inj (hheld.1.get?_id.symm.trans hm),
    Option.some.inj (hheld.2.get?_id.symm.trans hk), hheld⟩

theorem Holds.get?_of_mem_nodes (h : F.Holds t) {n : Node} (hn : n ∈ t.nodes) :
    F.get? n.id = some n := by
  obtain ⟨u, hu, rfl⟩ := Plant.mem_nodes_iff.1 hn
  exact (h.of_mem_subs hu).get?_id

theorem Holds.exists_get? (h : F.Holds t) {x : NodeId} (hx : x ∈ t.ids) :
    ∃ n, F.get? x = some n := by
  obtain ⟨n, hn, rfl⟩ := Plant.mem_ids_iff_nodes.1 hx
  exact ⟨n, h.get?_of_mem_nodes hn⟩

theorem Holds.notMem_ids (h : F.Holds t) {x : NodeId} (hx : F.get? x = none) : x ∉ t.ids := by
  intro hmem
  obtain ⟨n, hn⟩ := h.exists_get? hmem
  cases hx.symm.trans hn

/-- Holding a plant depends on its ids alone. -/
theorem Holds.congr (h : F.Holds t) (hG : ∀ x ∈ t.ids, G.get? x = F.get? x) : G.Holds t := by
  induction h with
  | mk get children held ih =>
    rw [Plant.ids_mk] at hG
    refine .mk ((hG _ (by simp)).trans get) children fun p hp => ih p hp fun x hx => hG x ?_
    exact List.mem_append_left _ (List.mem_flatMap.2 ⟨p, hp, hx⟩)

/-- A forest holds at most one plant at an id. -/
theorem Holds.unique (ht : F.Holds t) (hu : F.Holds u) (h : t.id = u.id) : t = u := by
  induction ht generalizing u with
  | @mk root parts get children held ih =>
    obtain ⟨root', parts'⟩ := u
    obtain ⟨get', children', held'⟩ := holds_mk_iff.1 hu
    have hroot : root = root' := by
      rw [Plant.id_mk, Plant.id_mk] at h
      rw [h, get', Option.some.injEq] at get
      exact get.symm
    subst hroot
    rw [children] at children'
    congr 1
    refine List.ext_getElem (by simpa using congrArg List.length children') fun i hi hi' => ?_
    have hid : parts[i].id = parts'[i].id := by
      have := congrArg (fun ids => ids[i]?) children'
      simpa [hi, hi'] using this
    exact ih _ (List.getElem_mem hi) (held' _ (List.getElem_mem hi')) hid

/-- Different ids of nodes are at most as many as there are nodes. -/
theorem length_le_size {ids : List NodeId} (hn : ids.Nodup)
    (h : ∀ x ∈ ids, ∃ n, F.get? x = some n) : ids.length ≤ F.size := by
  have hsub : ids ⊆ F.ids := fun x hx => by
    obtain ⟨n, hn⟩ := h x hx
    exact mem_ids_of_get? hn
  rw [← length_ids]
  exact (List.subperm_of_subset hn hsub).length_le

/-- The nodes of a plant that has no id twice are at most those of the forest. -/
theorem Holds.length_nodes_le (h : F.Holds t) (hn : t.ids.Nodup) : t.nodes.length ≤ F.size := by
  rw [← Plant.length_ids]
  exact length_le_size hn fun _ => h.exists_get?

end Forest

end TermForest
