import Mathlib.Data.List.Forall2
import TermForest.Forest.Encoding
import TermForest.Proofs.Forest.Listing
import TermForest.Proofs.State.Kept

/-!
# The canonical encoding tells forests apart

Every part of an encoding shows where it ends: numbers have eight bytes, texts and lists their length
in front, and values a mark of their sort. So whatever bytes follow, equal bytes begin with the
encodings of equal parts, and the encodings of nodes can be strung together without a count.

Numbers are cut to 64 bits. The results are about forests whose numbers, texts and lists are small
enough for that.
-/

namespace TermForest

/-! ### What fits 64 bits -/

namespace Datum

mutual

/-- The texts and lists in a value have lengths of 64 bits. -/
def Fits : Datum → Prop
  | .bool _ | .int _ => True
  | .text s => s.utf8ByteSize < UInt64.size
  | .list items => items.length < UInt64.size ∧ AllFit items

/-- All values of a list fit. -/
def AllFit : List Datum → Prop
  | [] => True
  | d :: ds => d.Fits ∧ AllFit ds

end

end Datum

/-- The ids, texts and lists of a node fit 64 bits. -/
structure Node.Fits (n : Node) : Prop where
  id : n.id < UInt64.size
  parent : n.parent.getD 0 < UInt64.size
  parentSlot : (n.parentSlot.getD "").utf8ByteSize < UInt64.size
  fieldCount : n.fields.size < UInt64.size
  fields : ∀ e ∈ n.fields.toList, e.1.utf8ByteSize < UInt64.size ∧ e.2.Fits
  slotCount : n.slots.size < UInt64.size
  slots : ∀ e ∈ n.slots.entries, e.1.utf8ByteSize < UInt64.size ∧ e.2 < UInt64.size

/-- All nodes of a forest fit. -/
def Forest.Fits (F : Forest) : Prop := ∀ n ∈ F.toList, n.Fits

/-! ### Agreement -/

/-- Two nodes are the same, once an absent parent is read as 0 and an absent parent slot as the empty
text. -/
structure Node.Agrees (m n : Node) : Prop where
  id : m.id = n.id
  kind : m.kind = n.kind
  locked : m.locked = n.locked
  fields : m.fields = n.fields
  slots : m.slots = n.slots
  parent : m.parent.getD 0 = n.parent.getD 0
  parentSlot : m.parentSlot.getD "" = n.parentSlot.getD ""

/-- Two forests have nodes at the same ids, and these agree. -/
structure Forest.Agrees (F G : Forest) : Prop where
  ids : F.ids = G.ids
  nodes : ∀ id m n, F.get? id = some m → G.get? id = some n → m.Agrees n

/-- No node has 0 for its parent or the empty text for its parent slot. -/
def Forest.Anchored (F : Forest) : Prop :=
  ∀ id n, F.get? id = some n → n.parent ≠ some 0 ∧ n.parentSlot ≠ some ""

theorem getD_injective {α : Type} {a b : Option α} {d : α} (ha : a ≠ some d) (hb : b ≠ some d)
    (h : a.getD d = b.getD d) : a = b := by
  cases a <;> cases b <;> simp_all

theorem Node.Agrees.eq {m n : Node} (h : m.Agrees n)
    (hm : m.parent ≠ some 0 ∧ m.parentSlot ≠ some "")
    (hn : n.parent ≠ some 0 ∧ n.parentSlot ≠ some "") : m = n := by
  have hparent := getD_injective hm.1 hn.1 h.parent
  have hslot := getD_injective hm.2 hn.2 h.parentSlot
  obtain ⟨hid, hkind, hlocked, hfields, hslots, -, -⟩ := h
  cases m
  cases n
  simp_all

namespace Forest

variable {F G : Forest}

/-- Anchored forests agree only if they are equal. -/
theorem Agrees.eq (h : F.Agrees G) (hF : F.Anchored) (hG : G.Anchored) : F = G := by
  refine Forest.ext fun id => ?_
  have hids : id ∈ F.ids ↔ id ∈ G.ids := by rw [h.ids]
  rw [mem_ids_iff, mem_ids_iff] at hids
  cases hf : F.get? id with
  | none =>
    cases hg : G.get? id with
    | none => rfl
    | some n => exact absurd (hids.2 ⟨n, hg⟩) (by simp [hf])
  | some m =>
    obtain ⟨n, hg⟩ := hids.1 ⟨m, hf⟩
    rw [hg, (h.nodes id m n hf hg).eq (hF id m hf) (hG id n hg)]

end Forest

theorem parameterSlot_ne_empty (parameter : String) : parameterSlot parameter ≠ "" := by
  simp [parameterSlot]

theorem elementSlot_ne_empty (position : Nat) : elementSlot position ≠ "" := by
  simp [elementSlot]

/-- The slots of a formed node have names. -/
theorem Node.Formed.ne_empty {n : Node} {next : Nat} (h : n.Formed next) {slot : String}
    (hs : slot ∈ n.slots.names) : slot ≠ "" := by
  rintro rfl
  by_cases hk : n.kind = .array
  · rw [(h.elements hk).1, List.mem_map] at hs
    obtain ⟨i, -, hi⟩ := hs
    exact elementSlot_ne_empty i hi
  · rw [h.slots hk, declaredSlots] at hs
    split at hs <;> simp_all [parameterSlot_ne_empty]

/-- Parents have nodes, whose ids count from 1 on, and the slots of these nodes have names. -/
theorem State.Kept.anchored {s : State} {next : Nat} (h : s.Kept next) : s.nodes.Anchored := by
  intro id n hn
  have hholder : ∀ p, n.parent = some p → 1 ≤ p ∧ n.parentSlot ≠ some "" := by
    intro p hp
    obtain ⟨slot, m, hslot, hm, hc⟩ := h.linked.exists_holder hn hp
    refine ⟨h.pos p m hm, fun he => ?_⟩
    exact (h.nodes p m hm).ne_empty (Slots.mem_names_iff.2 ⟨id, hc⟩)
      (Option.some.inj (hslot.symm.trans he))
  cases hp : n.parent with
  | none =>
    have hslot := h.linked.parentSlot id n hn
    rw [hp, Option.isSome_none, Option.isSome_eq_false_iff, Option.isNone_iff_eq_none] at hslot
    exact ⟨nofun, by rw [hslot]; nofun⟩
  | some p =>
    obtain ⟨hpos, hslot⟩ := hholder p hp
    exact ⟨fun he => Nat.ne_of_gt hpos (Option.some.inj he), hslot⟩

namespace Encoding

open Bytes (nat64)

/-! ### Delimited parts -/

/-- On values of a class, an encoder marks the end of what it writes: whatever follows, equal bytes
begin with related values. -/
def Delimits {α : Type} (P : α → Prop) (R : α → α → Prop) (enc : α → List UInt8) : Prop :=
  ∀ ⦃a b : α⦄ ⦃r r' : List UInt8⦄, P a → P b → enc a ++ r = enc b ++ r' → R a b ∧ r = r'

theorem nat64_injective {a b : Nat} (ha : a < UInt64.size) (hb : b < UInt64.size)
    (h : nat64 a = nat64 b) : a = b := by
  simp only [nat64, List.cons.injEq, ← UInt8.toNat_inj, Nat.toUInt8, UInt8.toNat_ofNat',
    Nat.shiftRight_eq_div_pow, and_true] at h
  simp only [UInt64.size] at ha hb
  omega

theorem delimits_nat64 : Delimits (· < UInt64.size) Eq nat64 := by
  intro a b r r' ha hb h
  obtain ⟨h, hr⟩ := List.append_inj h rfl
  exact ⟨nat64_injective ha hb h, hr⟩

theorem delimits_bool : Delimits (fun _ => True) Eq bool := by
  rintro (_ | _) (_ | _) r r' - - h <;> simp_all [bool]

theorem toUTF8_injective {s t : String} (h : s.toUTF8.data.toList = t.toUTF8.data.toList) :
    s = t :=
  String.toByteArray_inj.1 (ByteArray.ext (Array.toList_inj.1 h))

theorem delimits_text : Delimits (·.utf8ByteSize < UInt64.size) Eq text := by
  intro s t r r' hs ht h
  simp only [text, List.append_assoc] at h
  obtain ⟨hsize, h⟩ := delimits_nat64 hs ht h
  obtain ⟨h, hr⟩ := List.append_inj h hsize
  exact ⟨toUTF8_injective h, hr⟩

variable {α β : Type} {P : α → Prop} {R : α → α → Prop} {Q : β → Prop} {enc : α → List UInt8}
  {enc' : β → List UInt8}

theorem Delimits.pair (h : Delimits P Eq enc) (h' : Delimits Q Eq enc') :
    Delimits (fun e : α × β => P e.1 ∧ Q e.2) Eq fun e => enc e.1 ++ enc' e.2 := by
  rintro ⟨a, b⟩ ⟨c, d⟩ r r' ⟨ha, hb⟩ ⟨hc, hd⟩ he
  simp only [List.append_assoc] at he
  obtain ⟨rfl, hrest⟩ := h ha hc he
  obtain ⟨rfl, hr⟩ := h' hb hd hrest
  exact ⟨rfl, hr⟩

/-- Delimited parts are told apart one by one when it is known how many there are. -/
theorem Delimits.flatMap (h : Delimits P Eq enc) {as bs : List α} {r r' : List UInt8}
    (hlen : as.length = bs.length) (ha : ∀ a ∈ as, P a) (hb : ∀ b ∈ bs, P b)
    (he : as.flatMap enc ++ r = bs.flatMap enc ++ r') : as = bs ∧ r = r' := by
  induction as generalizing bs with
  | nil =>
    obtain rfl := List.length_eq_zero_iff.1 hlen.symm
    exact ⟨rfl, he⟩
  | cons a as ih =>
    cases bs with
    | nil => cases hlen
    | cons b bs =>
      simp only [List.flatMap_cons, List.append_assoc] at he
      obtain ⟨rfl, hrest⟩ := h (ha a List.mem_cons_self) (hb b List.mem_cons_self) he
      obtain ⟨rfl, hr⟩ := ih (Nat.succ.inj hlen) (fun a h => ha a (List.mem_cons_of_mem _ h))
        (fun b h => hb b (List.mem_cons_of_mem _ h)) hrest
      exact ⟨rfl, hr⟩

/-- Parts that are delimited and not empty are told apart even without a count, up to the end. -/
theorem Delimits.forall₂ (h : Delimits P R enc) (hne : ∀ a, enc a ≠ []) {as bs : List α}
    (ha : ∀ a ∈ as, P a) (hb : ∀ b ∈ bs, P b) (he : as.flatMap enc = bs.flatMap enc) :
    List.Forall₂ R as bs := by
  induction as generalizing bs with
  | nil =>
    cases bs with
    | nil => exact .nil
    | cons b bs =>
      rw [List.flatMap_nil, List.flatMap_cons, eq_comm, List.append_eq_nil_iff] at he
      exact absurd he.1 (hne b)
  | cons a as ih =>
    cases bs with
    | nil =>
      rw [List.flatMap_nil, List.flatMap_cons, List.append_eq_nil_iff] at he
      exact absurd he.1 (hne a)
    | cons b bs =>
      rw [List.flatMap_cons, List.flatMap_cons] at he
      obtain ⟨hab, hrest⟩ := h (ha a List.mem_cons_self) (hb b List.mem_cons_self) he
      exact .cons hab (ih (fun a h => ha a (List.mem_cons_of_mem _ h))
        (fun b h => hb b (List.mem_cons_of_mem _ h)) hrest)

/-! ### Values -/

theorem toNat_toUInt64_injective {a b : Int64} (h : a.toUInt64.toNat = b.toUInt64.toNat) : a = b := by
  obtain ⟨a⟩ := a
  obtain ⟨b⟩ := b
  exact congrArg Int64.ofUInt64 (UInt64.toNat_inj.1 h)

mutual

theorem delimits_datum : Delimits Datum.Fits Eq datum
  | .bool a, .bool b, r, r', _, _, h => by
    obtain ⟨rfl, hr⟩ := delimits_bool trivial trivial (List.cons.inj h).2
    exact ⟨rfl, hr⟩
  | .int a, .int b, r, r', _, _, h => by
    obtain ⟨h, hr⟩ := delimits_nat64 a.toUInt64.toNat_lt b.toUInt64.toNat_lt (List.cons.inj h).2
    exact ⟨congrArg _ (toNat_toUInt64_injective h), hr⟩
  | .text a, .text b, r, r', ha, hb, h => by
    obtain ⟨rfl, hr⟩ := delimits_text ha hb (List.cons.inj h).2
    exact ⟨rfl, hr⟩
  | .list as, .list bs, r, r', ha, hb, h => by
    simp only [datum, List.cons_append, List.append_assoc, List.cons.injEq, true_and] at h
    obtain ⟨hlen, hrest⟩ := delimits_nat64 ha.1 hb.1 h
    obtain ⟨rfl, hr⟩ := delimits_data as bs hlen ha.2 hb.2 hrest
    exact ⟨rfl, hr⟩

theorem delimits_data : ∀ (as bs : List Datum) {r r' : List UInt8}, as.length = bs.length →
    Datum.AllFit as → Datum.AllFit bs → data as ++ r = data bs ++ r' → as = bs ∧ r = r'
  | [], [], _, _, _, _, _, h => ⟨rfl, h⟩
  | a :: as, b :: bs, r, r', hlen, ha, hb, h => by
    simp only [data, List.append_assoc] at h
    obtain ⟨rfl, hrest⟩ := delimits_datum ha.1 hb.1 h
    obtain ⟨rfl, hr⟩ := delimits_data as bs (Nat.succ.inj hlen) ha.2 hb.2 hrest
    exact ⟨rfl, hr⟩

end

/-! ### Nodes -/

theorem tag_injective {k k' : Kind} (h : k.tag = k'.tag) : k = k' :=
  Option.some.inj (by rw [← Kind.ofTag?_tag, h, Kind.ofTag?_tag])

theorem fits_tag (k : Kind) : k.tag.utf8ByteSize < UInt64.size := by
  cases k <;> decide

theorem delimits_node : Delimits Node.Fits Node.Agrees node := by
  intro m n r r' hm hn h
  simp only [node, List.append_assoc] at h
  obtain ⟨hid, h⟩ := delimits_nat64 hm.id hn.id h
  obtain ⟨hkind, h⟩ := delimits_text (fits_tag _) (fits_tag _) h
  obtain ⟨hparent, h⟩ := delimits_nat64 hm.parent hn.parent h
  obtain ⟨hparentSlot, h⟩ := delimits_text hm.parentSlot hn.parentSlot h
  obtain ⟨hlocked, h⟩ := delimits_bool trivial trivial h
  obtain ⟨hfieldCount, h⟩ := delimits_nat64 hm.fieldCount hn.fieldCount h
  obtain ⟨hfields, h⟩ := (delimits_text.pair delimits_datum).flatMap
    (by simpa [Std.ExtTreeMap.length_toList] using hfieldCount) hm.fields hn.fields h
  obtain ⟨hslotCount, h⟩ := delimits_nat64 hm.slotCount hn.slotCount h
  obtain ⟨hslots, hr⟩ := (delimits_text.pair delimits_nat64).flatMap hslotCount hm.slots hn.slots h
  refine ⟨⟨hid, tag_injective hkind, hlocked, Std.ExtTreeMap.toList_inj.1 hfields, ?_, hparent,
    hparentSlot⟩, hr⟩
  exact Slots.ext_entries hslots

theorem node_ne_nil (n : Node) : node n ≠ [] := by
  simp [node, nat64]

theorem node_eq_of_agrees {m n : Node} (h : m.Agrees n) : node m = node n := by
  rw [node, node, h.id, h.kind, h.parent, h.parentSlot, h.locked, h.fields, h.slots]

end Encoding

namespace Forest

variable {F G : Forest}

/-! ### Forests -/

/-- Forests agree when their listings do, node by node. -/
theorem agrees_iff_forall₂ : F.Agrees G ↔ List.Forall₂ Node.Agrees F.toList G.toList := by
  constructor
  · intro h
    have hids : List.Forall₂ (fun m n : Node => m.id = n.id) F.toList G.toList := by
      have heq : List.Forall₂ Eq (F.toList.map Node.id) (G.toList.map Node.id) := by
        rw [List.forall₂_eq_eq_eq, map_id_toList, map_id_toList, h.ids]
      rwa [List.forall₂_map_left_iff, List.forall₂_map_right_iff] at heq
    rw [List.forall₂_iff_zip] at hids ⊢
    refine ⟨hids.1, fun {m n} hmn => ?_⟩
    obtain ⟨hm, hn⟩ := List.of_mem_zip hmn
    refine h.nodes m.id m n (mem_toList_iff.1 hm) ?_
    rw [hids.2 hmn, mem_toList_iff.1 hn]
  · intro h
    refine ⟨?_, fun id m n hm hn => ?_⟩
    · rw [← map_id_toList, ← map_id_toList, ← List.forall₂_eq_eq_eq, List.forall₂_map_left_iff,
        List.forall₂_map_right_iff]
      exact h.imp fun _ _ hmn => hmn.id
    · obtain rfl := id_of_get? hm
      obtain ⟨i, hi, rfl⟩ := List.getElem_of_mem (mem_toList_iff.2 hm)
      have hagrees := h.get hi (h.length_eq ▸ hi)
      have hget := mem_toList_iff.1 (List.getElem_mem (h.length_eq ▸ hi : i < G.toList.length))
      have hid := hagrees.id
      simp only [List.get_eq_getElem] at hagrees hid
      rw [← hid, hn, Option.some.injEq] at hget
      exact hget ▸ hagrees

theorem Agrees.encode_eq (h : F.Agrees G) : F.encode = G.encode := by
  have hnodes : F.toList.map Encoding.node = G.toList.map Encoding.node := by
    rw [← List.forall₂_eq_eq_eq, List.forall₂_map_left_iff, List.forall₂_map_right_iff]
    exact (agrees_iff_forall₂.1 h).imp fun _ _ => Encoding.node_eq_of_agrees
  rw [encode, encode, List.flatMap_def, List.flatMap_def, hnodes]

theorem agrees_of_encode_eq (hF : F.Fits) (hG : G.Fits) (h : F.encode = G.encode) :
    F.Agrees G :=
  agrees_iff_forall₂.2 (Encoding.delimits_node.forall₂ Encoding.node_ne_nil hF hG h)

/-- What the nodes of some ids encode to, once the ids are sorted. -/
theorem encode_of_perm {ids : List NodeId} (h : ids.Perm F.ids) :
    (ids.mergeSort.filterMap F.get?).flatMap Encoding.node = F.encode := by
  rw [mergeSort_of_perm h, filterMap_get?_ids, encode]

theorem replay_eq {changes changes' : List Change} (h : ∀ id, left changes id = left changes' id) :
    replay changes = replay changes' :=
  Forest.ext fun id => by rw [get?_replay, get?_replay, h id]

/-- Of forests whose numbers and lengths fit 64 bits the canonical encodings are equal exactly if the
forests agree at every id: an absent parent is not told from 0, nor an absent parent slot from the
empty text, and everything else is. Where no node has such a parent or parent slot, as in the states
of a game, the encodings are equal for equal forests only. The order in which the ids are found does
not show, nor do the changes by which the forest has come about, but for what is left of them. -/
theorem encode_eq_iff_agrees :
    (∀ F G : Forest, F.Fits → G.Fits →
      (F.encode = G.encode ↔ F.Agrees G) ∧
      (F.Anchored → G.Anchored → F.encode = G.encode → F = G)) ∧
    (∀ (s : State) next, s.WellFormed next → s.nodes.Anchored) ∧
    (∀ (F : Forest) (ids : List NodeId), ids.Perm F.ids →
      (ids.mergeSort.filterMap F.get?).flatMap Encoding.node = F.encode) ∧
    ∀ changes changes' : List Change, (∀ id, left changes id = left changes' id) →
      (replay changes).encode = (replay changes').encode := by
  refine ⟨fun F G hF hG => ⟨⟨agrees_of_encode_eq hF hG, Agrees.encode_eq⟩, fun hF' hG' h => ?_⟩,
    fun s next h => h.kept.anchored, fun F ids => encode_of_perm, fun changes changes' h => ?_⟩
  · exact (agrees_of_encode_eq hF hG h).eq hF' hG'
  · rw [replay_eq h]

/-- A number that stands on its own. -/
def seven : Plant := .mk (Node.withField { id := 1, kind := .number } "value" (.int 7)) []

theorem formed_seven : seven.root.Formed 2 :=
  Node.formed_withField rfl rfl (by decide) (by decide) rfl

theorem grown_seven : seven.Grown 1 2 :=
  .single (by decide) (by decide) rfl formed_seven rfl

theorem kept_seven : (ofList seven.nodes).Kept Node.WellFormed [1] [] 2 :=
  ((Forest.Kept.empty (Node.Formed 1) 1).insertAll grown_seven.joined grown_seven.nodup
    ⟨rfl, rfl⟩ (Nat.le_refl 1) grown_seven.le grown_seven.lt (by decide) grown_seven.formed
    grown_seven.unlocked nofun (by decide) (by simp [seven]) (by simp)).imp (Nat.le_refl 2)
      fun _ h => h.wellFormed (by decide)

theorem fits_seven (parent : Option NodeId) (hp : parent.getD 0 < UInt64.size) (locked : Bool) :
    ({ seven.root with parent, locked } : Node).Fits where
  id := show 1 < UInt64.size by decide
  parent := hp
  parentSlot := show 0 < UInt64.size by decide
  fieldCount := by
    show seven.root.fields.size < UInt64.size
    decide +kernel
  fields := by
    have hfields : seven.root.fields.toList = [("value", .int 7)] := by decide +kernel
    show ∀ e ∈ seven.root.fields.toList, _
    rw [hfields]
    rintro e (_ | ⟨_, ⟨⟩⟩)
    exact ⟨by decide, trivial⟩
  slotCount := show 0 < UInt64.size by decide
  slots := List.forall_mem_nil _

theorem get?_ofList_singleton (n : Node) (id : NodeId) :
    (ofList [n]).get? id = if n.id = id then some n else none := by
  rw [ofList, insertAll, List.foldl_cons, List.foldl_nil, get?_insert, get?_empty]

theorem fits_singleton {n : Node} (h : n.Fits) : (ofList [n]).Fits := by
  intro m hm
  rw [mem_toList_iff, get?_ofList_singleton] at hm
  split at hm
  · exact Option.some.inj hm ▸ h
  · cases hm

theorem encode_eq_iff_agrees_seven :
    (ofList [seven.root]).encode = (ofList [{ seven.root with parent := some 0 }]).encode ∧
    (ofList [seven.root]).encode ≠ (ofList [{ seven.root with locked := true }]).encode ∧
    (ofList [seven.root]).Anchored ∧
    ([1].mergeSort.filterMap (ofList [seven.root]).get?).flatMap Encoding.node =
      (ofList [seven.root]).encode ∧
    (replay [.insert seven.root, .erase 2]).encode =
      (replay [.insert { seven.root with locked := true }, .insert seven.root]).encode := by
  have hfits : (ofList [seven.root]).Fits :=
    fits_singleton (fits_seven none (by decide) false)
  have hrooted : (ofList [{ seven.root with parent := some 0 }]).Fits :=
    fits_singleton (fits_seven (some 0) (by decide) false)
  have hlocked : (ofList [{ seven.root with locked := true }]).Fits :=
    fits_singleton (fits_seven none (by decide) true)
  obtain ⟨hiff, hanchored, hperm, hreplay⟩ := encode_eq_iff_agrees
  refine ⟨(hiff _ _ hfits hrooted).1.2 ⟨by decide +kernel, ?_⟩, fun h => ?_,
    hanchored (s := {
      nodes := ofList seven.nodes
      board := [1]
      toolbox := []
      defs := []
      goal := []
      level := 0
      mode := .gameplay
      added := []
      removed := [] }) 2 kept_seven, hperm _ _ (by decide +kernel), hreplay _ _ fun id => ?_⟩
  · intro id m n hm hn
    simp only [get?_ofList_singleton, Option.ite_none_right_eq_some, Option.some.injEq] at hm hn
    obtain ⟨-, rfl⟩ := hm
    obtain ⟨-, rfl⟩ := hn
    exact ⟨rfl, rfl, rfl, rfl, rfl, rfl, rfl⟩
  · have hagrees := ((hiff _ _ hfits hlocked).1.1 h).nodes 1 _ _ (get?_ofList_singleton _ 1)
      (get?_ofList_singleton _ 1)
    cases hagrees.locked
  · by_cases h1 : id = 1 <;> by_cases h2 : id = 2 <;>
      simp_all [left, Change.leaves, seven, Plant.root, Node.withField, eq_comm]

end Forest

end TermForest
