import Mathlib.Data.List.Forall2
import TermForest.Proofs.Forest.Walk

/-!
# Joined plants

A plant is joined when every node in it but the root names the parent and the slot that hold it. A
joined plant whose nodes a forest keeps is held by the forest. Plants that the rules build are grown:
joined, of ids out of an interval, and with nodes that have the fields and slots of their kinds.
-/

namespace TermForest

/-! ### Shapes -/

/-- What is left of a plant without its ids, links and locks. -/
inductive Shape where
  | mk (kind : Kind) (fields : Fields) (names : List String) (parts : List Shape)

namespace Shape

/-- The kind at the root of a shape. -/
def kind : Shape → Kind
  | .mk kind .. => kind

/-- The fields at the root of a shape. -/
def fields : Shape → Fields
  | .mk _ fields .. => fields

/-- The parts of a shape. -/
def parts : Shape → List Shape
  | .mk _ _ _ parts => parts

/-- An application of one term to another. -/
def applied (callee argument : Shape) : Shape :=
  .mk .apply ∅ ["callee", "argument"] [callee, argument]

/-- What holds of a shape when it holds of its parts holds of every shape. -/
theorem induct {P : Shape → Prop}
    (step : ∀ kind fields names parts, (∀ t ∈ parts, P t) → P (.mk kind fields names parts))
    (t : Shape) : P t :=
  @rec P (fun parts => ∀ t ∈ parts, P t) step nofun
    (fun _ _ ht hts u hu => (List.mem_cons.1 hu).elim (fun e => e ▸ ht) (hts u)) t

end Shape

namespace Plant

mutual

/-- The shape of a plant. -/
def shape : Plant → Shape
  | .mk root parts => .mk root.kind root.fields root.slots.names (shapes parts)

/-- The shapes of some plants. -/
def shapes : List Plant → List Shape
  | [] => []
  | t :: ts => t.shape :: shapes ts

end

theorem shapes_eq_map (ts : List Plant) : shapes ts = ts.map shape := by
  induction ts with
  | nil => rfl
  | cons t ts ih => rw [shapes, ih, List.map_cons]

theorem shape_mk (root : Node) (parts : List Plant) :
    (mk root parts).shape =
      .mk root.kind root.fields root.slots.names (parts.map shape) := by
  rw [shape, shapes_eq_map]

theorem shape_eq (t : Plant) :
    t.shape = .mk t.root.kind t.root.fields t.root.slots.names (t.parts.map shape) := by
  obtain ⟨root, parts⟩ := t
  exact shape_mk root parts

@[simp] theorem kind_shape (t : Plant) : t.shape.kind = t.root.kind := by
  rw [shape_eq]
  rfl

@[simp] theorem fields_shape (t : Plant) : t.shape.fields = t.root.fields := by
  rw [shape_eq]
  rfl

@[simp] theorem parts_shape (t : Plant) : t.shape.parts = t.parts.map shape := by
  rw [shape_eq]
  rfl

/-- Plants of one shape have roots of one kind, with the same fields and names of slots. -/
theorem root_of_shape_eq {t u : Plant} (h : t.shape = u.shape) :
    t.root.kind = u.root.kind ∧ t.root.fields = u.root.fields ∧
      t.root.slots.names = u.root.slots.names ∧ t.parts.map shape = u.parts.map shape := by
  obtain ⟨root, parts⟩ := t
  obtain ⟨root', parts'⟩ := u
  rw [shape_mk, shape_mk] at h
  simpa using h

theorem shape_eq_mk_iff {t : Plant} {kind : Kind} {fields : Fields} {names : List String}
    {parts : List Shape} : t.shape = .mk kind fields names parts ↔ t.root.kind = kind ∧
      t.root.fields = fields ∧ t.root.slots.names = names ∧ t.parts.map shape = parts := by
  rw [shape_eq, Shape.mk.injEq]

theorem Formed.of_shape_eq {next : Nat} {t u : Plant} (h : t.Formed next)
    (hs : u.shape = t.shape) : u.Formed next := by
  induction t using induct generalizing u with
  | step root parts ih =>
    obtain ⟨root', parts'⟩ := u
    obtain ⟨hroot, hparts⟩ := formed_mk_iff.1 h
    obtain ⟨hk, hf, hn, hp⟩ := root_of_shape_eq hs
    refine formed_mk_iff.2 ⟨hroot.congr hk hf hn, fun p hp' => ?_⟩
    have hmem : p.shape ∈ parts.map shape := hp ▸ List.mem_map_of_mem hp'
    obtain ⟨q, hq, hqp⟩ := List.mem_map.1 hmem
    exact ih q hq (hparts q hq) hqp.symm

end Plant

/-! ### Comparing -/

namespace Tree.Shows

/-- Slots are alike when their names are, and the shapes of what stands in them. -/
theorem allM_sameShape {left right : NodeId → Tree} {ps qs : List Plant}
    (h : ∀ p ∈ ps, ∀ q ∈ qs, ∃ same, (left p.id).sameShape (right q.id) = .ok same ∧
      (same = true ↔ p.shape = q.shape)) {es es' : List (String × NodeId)}
    (hes : es.map Prod.snd = ps.map Plant.id) (hes' : es'.map Prod.snd = qs.map Plant.id)
    (hlen : es.length = es'.length) :
    ∃ same, (es.zip es').allM (fun (a, b) =>
        if a.1 ≠ b.1 then .ok false else (left a.2).sameShape (right b.2)) =
        (.ok same : Except Fault Bool) ∧
      (same = true ↔ es.map Prod.fst = es'.map Prod.fst ∧ ps.map Plant.shape = qs.map Plant.shape) := by
  induction es generalizing es' ps qs with
  | nil =>
    obtain rfl := List.eq_nil_of_length_eq_zero hlen.symm
    obtain rfl := List.map_eq_nil_iff.1 hes.symm
    obtain rfl := List.map_eq_nil_iff.1 hes'.symm
    exact ⟨true, rfl, by simp⟩
  | cons e es ih =>
    cases es' with
    | nil => cases hlen
    | cons e' es' =>
      cases ps with
      | nil => cases hes
      | cons p ps =>
        cases qs with
        | nil => cases hes'
        | cons q qs =>
          obtain ⟨he, hes⟩ := List.cons.inj hes
          obtain ⟨he', hes'⟩ := List.cons.inj hes'
          rw [List.zip_cons_cons, List.allM_cons]
          by_cases hname : e.1 = e'.1
          · obtain ⟨same, hsame, hiff⟩ := h p List.mem_cons_self q List.mem_cons_self
            dsimp only
            rw [if_neg (not_not.2 hname), he, he', hsame, ok_bind]
            cases same with
            | false =>
              refine ⟨false, rfl, ?_⟩
              have hne : p.shape ≠ q.shape := fun hs => by simpa using hiff.2 hs
              simp [hne]
            | true =>
              obtain ⟨rest, hrest, hiff'⟩ := ih (fun p' hp q' hq =>
                h p' (List.mem_cons_of_mem _ hp) q' (List.mem_cons_of_mem _ hq)) hes hes'
                (Nat.succ.inj hlen)
              refine ⟨rest, hrest, ?_⟩
              simp [hiff', hname, hiff.1 rfl]
          · refine ⟨false, ?_, by simp [hname]⟩
            dsimp only
            rw [if_pos hname]
            rfl

/-- Comparing two trees tells whether they have one shape. -/
theorem sameShape {T U : Tree} {t u : Plant} (h : T.Shows t) (h' : U.Shows u) :
    ∃ same, T.sameShape U = .ok same ∧ (same = true ↔ t.shape = u.shape) := by
  induction h generalizing U u with
  | @node m left parts children shown ih =>
    cases h' with
    | @node n right parts' children' shown' =>
      rw [Tree.sameShape, Plant.shape_mk, Plant.shape_mk, Shape.mk.injEq]
      split
      · next hne =>
        refine ⟨false, rfl, ?_⟩
        rw [← Slots.length_names, ← Slots.length_names] at hne
        grind
      · next heq =>
        rw [not_or, not_or, not_not, not_not, not_not] at heq
        obtain ⟨hk, hf, hlen⟩ := heq
        obtain ⟨same, hsame, hiff⟩ := allM_sameShape
          (fun p hp q hq => ih p hp (shown' q hq)) children children' hlen
        refine ⟨same, hsame, hiff.trans ?_⟩
        simp [hk, hf, Slots.names]

end Tree.Shows

/-- Comparing the trees at two ids tells whether they have one shape. -/
theorem Forest.Holds.sameShape {F G : Forest} {t u : Plant} (ht : F.Holds t) (hnt : t.ids.Nodup)
    (hu : G.Holds u) (hnu : u.ids.Nodup) :
    ∃ same, TermForest.sameShape F t.id G u.id = .ok same ∧ (same = true ↔ t.shape = u.shape) :=
  (ht.tree_shows hnt).sameShape (hu.tree_shows hnu)

/-! ### Links -/

namespace Node

@[simp] theorem id_heldBy (n : Node) (parent : NodeId) (slot : String) :
    (n.heldBy parent slot).id = n.id := rfl

@[simp] theorem id_detached (n : Node) : n.detached.id = n.id := rfl

@[simp] theorem id_withSlot (n : Node) (slot : String) (child : NodeId) :
    (n.withSlot slot child).id = n.id := rfl

@[simp] theorem id_withField (n : Node) (key : String) (value : Datum) :
    (n.withField key value).id = n.id := rfl

end Node

@[simp] theorem Plant.id_root (t : Plant) : t.root.id = t.id := rfl

/-- The slots of a node lead to some plants, whose roots name the node and the slot. -/
def Node.Carries (n : Node) (parts : List Plant) : Prop :=
  List.Forall₂ (fun e p => p.id = e.2 ∧ p.root.parent = some n.id ∧ p.root.parentSlot = some e.1)
    n.slots.entries parts

theorem Node.Carries.children {n : Node} {parts : List Plant} (h : n.Carries parts) :
    n.slots.children = parts.map Plant.id := by
  unfold Node.Carries at h
  unfold Slots.children
  generalize n.slots.entries = entries at h
  induction h with
  | nil => rfl
  | cons h _ ih => rw [List.map_cons, List.map_cons, h.1, ih]

/-- What holds of each pair of two lists holds of each item of the first with one of the second. -/
theorem exists_mem_of_forall₂ {α β : Type} {R : α → β → Prop} {as : List α} {bs : List β}
    (h : List.Forall₂ R as bs) {a : α} (ha : a ∈ as) : ∃ b ∈ bs, R a b := by
  induction h with
  | nil => cases ha
  | cons hab _ ih =>
    rcases List.mem_cons.1 ha with rfl | ha
    · exact ⟨_, List.mem_cons_self, hab⟩
    · obtain ⟨b, hb, hr⟩ := ih ha
      exact ⟨b, List.mem_cons_of_mem _ hb, hr⟩

/-- Each slot of a node leads to a plant that points back. -/
theorem Node.Carries.exists_part {n : Node} {parts : List Plant} (h : n.Carries parts)
    {e : String × NodeId} (he : e ∈ n.slots.entries) :
    ∃ p ∈ parts, p.id = e.2 ∧ p.root.parent = some n.id ∧ p.root.parentSlot = some e.1 :=
  exists_mem_of_forall₂ h he

/-- Each plant stands in a slot of the node that it points to. -/
theorem Node.Carries.exists_entry {n : Node} {parts : List Plant} (h : n.Carries parts) {p : Plant}
    (hp : p ∈ parts) :
    ∃ slot, (slot, p.id) ∈ n.slots.entries ∧ p.root.parent = some n.id ∧
      p.root.parentSlot = some slot := by
  obtain ⟨e, he, hid, hparent, hslot⟩ := exists_mem_of_forall₂ (List.Forall₂.flip h) hp
  exact ⟨e.1, hid ▸ he, hparent, hslot⟩

/-- A node with other children carries the plants at them that are pointed at its slots. -/
theorem Node.carries_withChildren {n : Node} {s : Slots} {parts : List Plant}
    (hs : n.slots = s.withChildren (parts.map Plant.id))
    (h : List.Forall₂
      (fun e p => p.root.parent = some n.id ∧ p.root.parentSlot = some e.1) s.entries parts) :
    n.Carries parts := by
  unfold Node.Carries
  rw [hs]
  unfold Slots.withChildren Slots.names
  clear hs
  dsimp only
  generalize s.entries = entries at h
  induction h with
  | nil => exact .nil
  | cons h _ ih => exact .cons ⟨rfl, h⟩ ih

namespace Plant

/-- Every node but the root names the parent and the slot that hold it. -/
def Joined (t : Plant) : Prop := ∀ v ∈ t.subs, v.root.Carries v.parts

theorem joined_mk_iff {root : Node} {parts : List Plant} :
    (mk root parts).Joined ↔ root.Carries parts ∧ ∀ p ∈ parts, p.Joined := by
  constructor
  · intro h
    refine ⟨h _ (mem_subs_self _), fun p hp v hv => h v (mem_subs_mk.2 (.inr ⟨p, hp, hv⟩))⟩
  · rintro ⟨hroot, hparts⟩ v hv
    rcases mem_subs_mk.1 hv with rfl | ⟨p, hp, hv⟩
    · exact hroot
    · exact hparts p hp v hv

theorem Joined.of_mem_subs {t u : Plant} (h : t.Joined) (hu : u ∈ t.subs) : u.Joined :=
  fun v hv => h v (mem_subs_trans hv hu)

/-- The same plant held by a slot of a parent. -/
def heldBy (t : Plant) (parent : NodeId) (slot : String) : Plant :=
  mk (t.root.heldBy parent slot) t.parts

/-- The same plant without a parent. -/
def detached (t : Plant) : Plant := mk t.root.detached t.parts

/-- A plant stands on its own when its root has no parent. -/
def Free (t : Plant) : Prop := t.root.parent = none ∧ t.root.parentSlot = none

section heldBy

variable (t : Plant) (parent : NodeId) (slot : String)

@[simp] theorem id_heldBy : (t.heldBy parent slot).id = t.id := rfl

@[simp] theorem root_heldBy : (t.heldBy parent slot).root = t.root.heldBy parent slot := rfl

@[simp] theorem parts_heldBy : (t.heldBy parent slot).parts = t.parts := rfl

@[simp] theorem ids_heldBy : (t.heldBy parent slot).ids = t.ids := by
  obtain ⟨root, parts⟩ := t
  rw [heldBy, ids_mk, ids_mk]
  rfl

@[simp] theorem shape_heldBy : (t.heldBy parent slot).shape = t.shape := by
  obtain ⟨root, parts⟩ := t
  rw [heldBy, shape_mk, shape_mk]
  rfl

theorem nodes_heldBy :
    (t.heldBy parent slot).nodes = t.parts.flatMap nodes ++ [t.root.heldBy parent slot] := by
  rw [heldBy, nodes_mk]

end heldBy

@[simp] theorem ids_detached (t : Plant) : t.detached.ids = t.ids := by
  obtain ⟨root, parts⟩ := t
  rw [detached, ids_mk, ids_mk]
  rfl

/-- The root of a plant in which no id stands twice is in none of its parts. -/
theorem ne_id_of_mem_parts {t p : Plant} (hn : t.ids.Nodup) (hp : p ∈ t.parts) {x : NodeId}
    (hx : x ∈ p.ids) : x ≠ t.id := by
  obtain ⟨root, parts⟩ := t
  rw [ids_mk, List.nodup_append] at hn
  exact hn.2.2 x (List.mem_flatMap.2 ⟨p, hp, hx⟩) root.id (by simp)

theorem Joined.heldBy {t : Plant} (h : t.Joined) (parent : NodeId) (slot : String) :
    (t.heldBy parent slot).Joined := by
  obtain ⟨root, parts⟩ := t
  obtain ⟨hroot, hparts⟩ := joined_mk_iff.1 h
  exact joined_mk_iff.2 ⟨hroot, hparts⟩

/-! ### Grown plants -/

/-- A joined plant of nodes that are not locked, whose ids are different and lie from `lo` up to but
not including `hi`. -/
structure Grown (lo hi : Nat) (t : Plant) : Prop where
  nodup : t.ids.Nodup
  le : ∀ x : Nat, x ∈ t.ids → lo ≤ x
  lt : ∀ x : Nat, x ∈ t.ids → x < hi
  joined : t.Joined
  formed : t.Formed hi
  unlocked : ∀ n ∈ t.nodes, n.locked = false

namespace Grown

variable {lo hi lo' hi' : Nat} {t : Plant}

theorem mono (h : t.Grown lo hi) (hlo : lo' ≤ lo) (hhi : hi ≤ hi') : t.Grown lo' hi' where
  nodup := h.nodup
  le x hx := Nat.le_trans hlo (h.le x hx)
  lt x hx := Nat.lt_of_lt_of_le (h.lt x hx) hhi
  joined := h.joined
  formed := h.formed.mono hhi
  unlocked := h.unlocked

theorem of_mem_subs {u : Plant} (h : t.Grown lo hi) (hu : u ∈ t.subs) : u.Grown lo hi where
  nodup := nodup_ids_of_mem_subs h.nodup hu
  le x hx := h.le x (ids_subset_of_mem_subs hu hx)
  lt x hx := h.lt x (ids_subset_of_mem_subs hu hx)
  joined := h.joined.of_mem_subs hu
  formed := h.formed.of_mem_subs hu
  unlocked n hn := h.unlocked n (nodes_subset_of_mem_subs hu hn)

theorem heldBy (h : t.Grown lo hi) (parent : NodeId) (slot : String) :
    (t.heldBy parent slot).Grown lo hi where
  nodup := (t.ids_heldBy parent slot).symm ▸ h.nodup
  le := (t.ids_heldBy parent slot).symm ▸ h.le
  lt := (t.ids_heldBy parent slot).symm ▸ h.lt
  joined := h.joined.heldBy parent slot
  formed := h.formed.of_shape_eq (t.shape_heldBy parent slot)
  unlocked := by
    obtain ⟨root, parts⟩ := t
    have hu := h.unlocked
    rw [nodes_mk] at hu
    rw [nodes_heldBy]
    intro n hn
    rcases List.mem_append.1 hn with hn | hn
    · exact hu n (List.mem_append_left _ hn)
    · rw [List.mem_singleton.1 hn]
      exact hu root (by simp)

/-- A new root above grown plants of different ids. -/
theorem of_parts {root : Node} {parts : List Plant} (hparts : ∀ p ∈ parts, p.Grown lo hi)
    (hn : (parts.flatMap ids).Nodup) (hid : root.id ∉ parts.flatMap ids) (hle : lo ≤ root.id)
    (hlt : root.id < hi) (hc : root.Carries parts) (hf : root.Formed hi)
    (hu : root.locked = false) : (Plant.mk root parts).Grown lo hi where
  nodup := by
    rw [ids_mk, List.nodup_append]
    refine ⟨hn, by simp, fun a ha b hb e => hid ?_⟩
    rwa [← List.mem_singleton.1 hb, ← e]
  le x hx := by
    rw [ids_mk, List.mem_append, List.mem_flatMap, List.mem_singleton] at hx
    rcases hx with ⟨p, hp, hx⟩ | rfl
    · exact (hparts p hp).le x hx
    · exact hle
  lt x hx := by
    rw [ids_mk, List.mem_append, List.mem_flatMap, List.mem_singleton] at hx
    rcases hx with ⟨p, hp, hx⟩ | rfl
    · exact (hparts p hp).lt x hx
    · exact hlt
  joined := joined_mk_iff.2 ⟨hc, fun p hp => (hparts p hp).joined⟩
  formed := formed_mk_iff.2 ⟨hf, fun p hp => (hparts p hp).formed⟩
  unlocked n hn := by
    rw [nodes_mk, List.mem_append, List.mem_flatMap, List.mem_singleton] at hn
    rcases hn with ⟨p, hp, hn⟩ | rfl
    · exact (hparts p hp).unlocked n hn
    · exact hu

/-- A node without slots, as a plant. -/
theorem single {n : Node} (hle : lo ≤ n.id) (hlt : n.id < hi) (hs : n.slots = ∅)
    (hf : n.Formed hi) (hu : n.locked = false) : (Plant.mk n []).Grown lo hi :=
  of_parts (by simp) (by simp) (by simp) hle hlt (by simp [Node.Carries, hs]) hf hu

end Grown

end Plant

/-! ### Joined plants in forests -/

namespace Forest

variable {F G : Forest} {t u : Plant}

theorem holds_of_joined (h : t.Joined) (hF : ∀ n ∈ t.nodes, F.get? n.id = some n) :
    F.Holds t := by
  induction t using Plant.induct with
  | step root parts ih =>
    obtain ⟨hroot, hparts⟩ := Plant.joined_mk_iff.1 h
    refine .mk (hF _ (Plant.root_mem_nodes _)) hroot.children fun p hp =>
      ih p hp (hparts p hp) fun n hn => hF n ?_
    rw [Plant.nodes_mk]
    exact List.mem_append_left _ (List.mem_flatMap.2 ⟨p, hp, hn⟩)

theorem get?_insertAll_of_notMem {ns : List Node} {x : NodeId} (h : x ∉ ns.map Node.id) :
    (F.insertAll ns).get? x = F.get? x := by
  unfold insertAll
  induction ns generalizing F with
  | nil => rfl
  | cons n ns ih =>
    rw [List.map_cons, List.mem_cons, not_or] at h
    rw [List.foldl_cons, ih h.2, get?_insert, if_neg (Ne.symm h.1)]

theorem get?_insertAll_of_mem {ns : List Node} (hn : (ns.map Node.id).Nodup) {n : Node}
    (h : n ∈ ns) : (F.insertAll ns).get? n.id = some n := by
  unfold insertAll
  induction ns generalizing F with
  | nil => cases h
  | cons m ns ih =>
    rw [List.map_cons, List.nodup_cons] at hn
    rw [List.foldl_cons]
    rcases List.mem_cons.1 h with rfl | h
    · exact (get?_insertAll_of_notMem hn.1).trans (by rw [get?_insert, if_pos rfl])
    · exact ih hn.2 h

theorem get?_eraseAll (ids : List NodeId) (x : NodeId) :
    (F.eraseAll ids).get? x = if x ∈ ids then none else F.get? x := by
  unfold eraseAll
  induction ids generalizing F with
  | nil => simp
  | cons i ids ih =>
    rw [List.foldl_cons, ih, get?_erase]
    by_cases hx : x ∈ ids
    · simp [hx]
    · by_cases hi : x = i
      · simp [hi]
      · simp [hx, hi, Ne.symm hi]

/-- A forest holds a joined plant after all of its nodes have been added. -/
theorem holds_insertAll (h : t.Joined) (hn : t.ids.Nodup) : (F.insertAll t.nodes).Holds t :=
  holds_of_joined h fun _ hm => get?_insertAll_of_mem (by rwa [Plant.map_id_nodes]) hm

theorem Holds.insert_of_notMem (h : F.Holds t) {n : Node} (hn : n.id ∉ t.ids) :
    (F.insert n).Holds t :=
  h.congr fun x hx => by
    rw [get?_insert, if_neg]
    rintro rfl
    exact hn hx

/-- Adding a root above plants that are held makes one plant of them. -/
theorem holds_insert {root : Node} {parts : List Plant}
    (hc : root.slots.children = parts.map Plant.id) (hp : ∀ p ∈ parts, F.Holds p)
    (hn : root.id ∉ parts.flatMap Plant.ids) : (F.insert root).Holds (.mk root parts) := by
  refine .mk (by rw [get?_insert, if_pos rfl]) hc fun p hmem => ?_
  refine (hp p hmem).insert_of_notMem fun hx => hn ?_
  exact List.mem_flatMap.2 ⟨p, hmem, hx⟩

/-- Pointing the root of a plant at a parent keeps the plant. -/
theorem Holds.heldBy (h : F.Holds t) (hn : t.ids.Nodup) (parent : NodeId) (slot : String) :
    (F.insert (t.root.heldBy parent slot)).Holds (t.heldBy parent slot) := by
  obtain ⟨root, parts⟩ := t
  obtain ⟨-, hc, hp⟩ := holds_mk_iff.1 h
  rw [Plant.ids_mk, List.nodup_append] at hn
  refine holds_insert hc hp fun hx => hn.2.2 root.id hx root.id (by simp) rfl

end Forest

end TermForest
