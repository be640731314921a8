import TermForest.Format.State
import TermForest.Format.Settings
import TermForest.Proofs.Forest.Listing
import TermForest.Proofs.Json.Record

/-!
# Nodes, states and settings read back

What is written for a value is plain and reads as this value, if its numbers fit 64 bits.
-/

namespace TermForest

open Json (need needOr maybe)
open Json.Reader (Reads)

/-! ### Numbers -/

/-- All ids of a list are numbers of 64 bits. -/
def IdsStorable (ids : List NodeId) : Prop := ∀ id ∈ ids, id < UInt64.size

/-- The ids of a node are numbers of 64 bits. -/
structure Node.Storable (n : Node) : Prop where
  id : n.id < UInt64.size
  parent : ∀ p ∈ n.parent, p < UInt64.size
  children : IdsStorable n.slots.children

instance (ids : List NodeId) : Decidable (IdsStorable ids) :=
  inferInstanceAs (Decidable (∀ id ∈ ids, id < UInt64.size))

instance (n : Node) : Decidable n.Storable :=
  decidable_of_iff (n.id < UInt64.size ∧ (∀ p ∈ n.parent, p < UInt64.size) ∧
    IdsStorable n.slots.children)
    ⟨fun h => ⟨h.1, h.2.1, h.2.2⟩, fun h => ⟨h.id, h.parent, h.children⟩⟩

/-- The ids in all nodes of a forest are numbers of 64 bits. -/
def Forest.Storable (F : Forest) : Prop := ∀ n ∈ F.toList, n.Storable

instance (F : Forest) : Decidable F.Storable :=
  inferInstanceAs (Decidable (∀ n ∈ F.toList, n.Storable))

/-- The ids and the level of a state are numbers of 64 bits. -/
structure State.Storable (s : State) : Prop where
  nodes : s.nodes.Storable
  board : IdsStorable s.board
  toolbox : IdsStorable s.toolbox
  defs : IdsStorable s.defs
  goal : IdsStorable s.goal
  level : s.level < UInt64.size
  added : IdsStorable s.added
  removed : IdsStorable s.removed

/-- The limits of a game are numbers of 64 bits. -/
structure Settings.Storable (s : Settings) : Prop where
  historyLimit : s.historyLimit < UInt64.size
  firstId : s.firstId < UInt64.size

theorem Json.plain_nat {n : Nat} (h : n < UInt64.size) : (Json.nat n).Plain :=
  ⟨by omega, Int.ofNat_lt.2 h⟩

theorem Json.plain_int64 (n : Int64) : (Json.int n.toInt).Plain := by
  have hlow := Int64.le_toInt n
  have hhigh := Int64.toInt_lt n
  have hsize : UInt64.size = 18446744073709551616 := rfl
  exact ⟨by omega, by omega⟩

/-! ### Field values -/

theorem Datum.listToJson_eq_map (items : List Datum) : listToJson items = items.map toJson := by
  induction items with
  | nil => rfl
  | cons d ds ih => rw [listToJson, ih, List.map_cons]

namespace Datum

mutual

theorem plain_toJson : ∀ d : Datum, d.toJson.Plain
  | .bool _ => trivial
  | .int n => Json.plain_int64 n
  | .text _ => rfl
  | .list items => plain_listToJson items

theorem plain_listToJson : ∀ items : List Datum, Json.AllPlain (listToJson items)
  | [] => trivial
  | d :: ds => ⟨d.plain_toJson, plain_listToJson ds⟩

end

mutual

theorem reads_toJson : ∀ d : Datum, Datum.read.Reads d d.toJson
  | .bool _ => by rintro (_ | _) _ <;> rfl
  | .int n => by
    rintro (_ | _) _ <;> exact congrArg (Option.map Datum.int) (Json.Reader.int64?_toInt n)
  | .text _ => by rintro (_ | _) _ <;> rfl
  | .list items => by
    intro room hroom
    rw [toJson, listToJson_eq_map, Json.depth_array_le_iff] at hroom
    obtain ⟨room, rfl⟩ := Nat.exists_eq_add_one.2 hroom.1
    have hitems := Json.Reader.mapM_map (f := toJson) (g := Datum.read room) fun d hd =>
      reads_of_mem items d hd room (hroom.2 _ (List.mem_map_of_mem hd))
    rw [toJson, listToJson_eq_map, Datum.read, hitems]
    rfl

theorem reads_of_mem : ∀ items : List Datum, ∀ d ∈ items, Datum.read.Reads d d.toJson
  | [] => List.forall_mem_nil _
  | d :: ds => List.forall_mem_cons.2 ⟨reads_toJson d, reads_of_mem ds⟩

end

end Datum

namespace Fields

theorem foldl_insert_eq_insertMany (entries : List (String × Datum)) (fields : Fields) :
    entries.foldl (fun fields e => fields.insert e.1 e.2) fields = fields.insertMany entries := by
  induction entries generalizing fields with
  | nil => rw [List.foldl_nil, Std.ExtTreeMap.insertMany_nil]
  | cons e entries ih => rw [List.foldl_cons, ih, Std.ExtTreeMap.insertMany_cons]

/-- The names and values of fields make up the fields again. -/
theorem foldl_insert_toList (fields : Fields) :
    fields.toList.foldl (fun fields e => fields.insert e.1 e.2) (∅ : Fields) = fields := by
  rw [foldl_insert_eq_insertMany, ← Std.ExtTreeMap.ofList_eq_insertMany_empty]
  refine Std.ExtTreeMap.ext_getElem? fun key => ?_
  cases h : fields[key]? with
  | some value =>
    exact Std.ExtTreeMap.getElem?_ofList_of_mem (by simp) Std.ExtTreeMap.distinct_keys_toList
      (Std.ExtTreeMap.mem_toList_iff_getElem?_eq_some.2 h)
  | none =>
    refine Std.ExtTreeMap.getElem?_ofList_of_contains_eq_false ?_
    rw [Std.ExtTreeMap.map_fst_toList_eq_keys, List.contains_eq_mem, decide_eq_false_iff_not,
      Std.ExtTreeMap.mem_keys, Std.ExtTreeMap.mem_iff_isSome_getElem?, h]
    exact Bool.false_ne_true

theorem plain_toJson (fields : Fields) : (Fields.toJson fields).Plain :=
  Json.plain_record_iff.2 (List.forall_mem_map.2 fun e _ => e.2.plain_toJson)

theorem reads_toJson (fields : Fields) : Fields.read.Reads fields (Fields.toJson fields) := by
  intro room hroom
  have hread : Json.Reader.entries Datum.read room (Fields.toJson fields) = some fields.toList :=
    Json.Reader.reads_entries (fun e _ => e.2.reads_toJson) room hroom
  rw [Fields.read, hread]
  exact congrArg some fields.foldl_insert_toList

end Fields

namespace Slots

theorem plain_toJson {slots : Slots} (h : IdsStorable slots.children) : slots.toJson.Plain :=
  Json.plain_record_iff.2 (List.forall_mem_map.2 fun _ he =>
    Json.plain_nat (h _ (List.mem_map_of_mem he)))

theorem reads_toJson {slots : Slots} (h : IdsStorable slots.children) :
    Slots.read.Reads slots slots.toJson := by
  intro room hroom
  have hread : Json.Reader.entries Json.Reader.nat64 room slots.toJson = some slots.entries :=
    Json.Reader.reads_entries (fun _ he => Json.Reader.reads_nat64 (h _ (List.mem_map_of_mem he)))
      room hroom
  rw [Slots.read, hread]
  exact congrArg some (ext_entries (entries_ofList slots.nodup))

end Slots

/-! ### Nodes -/

section optional

variable {α : Type} {item : Json.Reader α} {write : α → Json} {o : Option α} {room : Nat}
  {ms : List (String × Json)} {key : String}

theorem plain_optionalJson (h : ∀ a ∈ o, (write a).Plain) : (optionalJson write o).Plain := by
  cases o with
  | none => trivial
  | some a => exact h a rfl

theorem maybe_eq (hj : ms.lookup key = some (optionalJson write o))
    (hroom : (optionalJson write o).depth ≤ room) (hne : ∀ a, write a ≠ .null)
    (h : ∀ a ∈ o, item.Reads a (write a)) : maybe item room ms key = some o := by
  rw [maybe, hj]
  cases o with
  | none => rfl
  | some a =>
    dsimp only [optionalJson] at hroom ⊢
    split
    · contradiction
    · next he => exact absurd (Option.some.inj he) (hne a)
    · next he =>
      cases he
      rw [h a rfl room hroom]
      rfl

end optional

namespace Node

theorem plain_toJson {n : Node} (h : n.Storable) : n.toJson.Plain := by
  simp only [toJson, Json.plain_record_iff, List.forall_mem_cons]
  exact ⟨Json.plain_nat h.id, rfl, plain_optionalJson fun p hp => Json.plain_nat (h.parent p hp),
    plain_optionalJson fun _ _ => rfl, Fields.plain_toJson _, Slots.plain_toJson h.children, trivial,
    List.forall_mem_nil _⟩

theorem reads_toJson {n : Node} (h : n.Storable) : Node.read.Reads n n.toJson := by
  refine Json.Reader.reads_record (by simp [keys]) (by simp) fun room hroom => ?_
  simp only [List.forall_mem_cons] at hroom
  obtain ⟨hid, hkind, hparent, hslot, hfields, hslots, hlocked, -⟩ := hroom
  rw [Json.need_eq rfl (Json.Reader.reads_nat64 h.id) hid,
    Json.need_eq rfl (Json.Reader.reads_name (Kind.ofTag?_tag n.kind)) hkind,
    maybe_eq rfl hparent nofun fun p hp => Json.Reader.reads_nat64 (h.parent p hp),
    maybe_eq rfl hslot nofun fun s _ => Json.Reader.reads_text s,
    Json.needOr_eq rfl n.fields.reads_toJson hfields,
    Json.needOr_eq rfl (Slots.reads_toJson h.children) hslots,
    Json.needOr_eq rfl (Json.Reader.reads_bool n.locked) hlocked]
  rfl

end Node

/-! ### Forests -/

namespace Forest

theorem plain_toJson {F : Forest} (h : F.Storable) : F.toJson.Plain :=
  Json.allPlain_iff.2 (List.forall_mem_map.2 fun n hn => Node.plain_toJson (h n hn))

theorem reads_toJson {F : Forest} (h : F.Storable) : Forest.read.Reads F F.toJson := by
  intro room hroom
  have hread := Json.Reader.reads_list (fun n hn => Node.reads_toJson (h n hn)) room hroom
  rw [Forest.read, Forest.toJson, hread]
  exact congrArg some (ofList_toList F)

end Forest

/-! ### States -/

theorem plain_idsToJson {ids : List NodeId} (h : IdsStorable ids) : (State.idsToJson ids).Plain :=
  Json.allPlain_iff.2 (List.forall_mem_map.2 fun id hid => Json.plain_nat (h id hid))

theorem reads_idsToJson {ids : List NodeId} (h : IdsStorable ids) :
    (Json.Reader.list Json.Reader.nat64).Reads ids (State.idsToJson ids) :=
  Json.Reader.reads_list fun id hid => Json.Reader.reads_nat64 (h id hid)

namespace State

theorem ofName?_name (mode : Mode) : Mode.ofName? mode.name = some mode := by
  cases mode <;> decide

theorem plain_toJson {s : State} (h : s.Storable) : s.toJson.Plain := by
  simp only [toJson, Json.plain_record_iff, List.forall_mem_cons]
  exact ⟨Forest.plain_toJson h.nodes, plain_idsToJson h.board, plain_idsToJson h.toolbox,
    plain_idsToJson h.defs, plain_idsToJson h.goal, Json.plain_nat h.level, rfl,
    plain_idsToJson h.added, plain_idsToJson h.removed, List.forall_mem_nil _⟩

theorem reads_toJson {s : State} (h : s.Storable) : State.read.Reads s s.toJson := by
  refine Json.Reader.reads_record (by simp [keys]) (by simp) fun room hroom => ?_
  simp only [List.forall_mem_cons] at hroom
  obtain ⟨hnodes, hboard, htoolbox, hdefs, hgoal, hlevel, hmode, hadded, hremoved, -⟩ := hroom
  dsimp only
  rw [Json.need_eq rfl (Forest.reads_toJson h.nodes) hnodes,
    Json.need_eq rfl (reads_idsToJson h.board) hboard,
    Json.need_eq rfl (reads_idsToJson h.toolbox) htoolbox,
    Json.need_eq rfl (reads_idsToJson h.defs) hdefs,
    Json.need_eq rfl (reads_idsToJson h.goal) hgoal,
    Json.need_eq rfl (Json.Reader.reads_nat64 h.level) hlevel,
    Json.need_eq rfl (Json.Reader.reads_name (ofName?_name s.mode)) hmode,
    Json.need_eq rfl (reads_idsToJson h.added) hadded,
    Json.need_eq rfl (reads_idsToJson h.removed) hremoved]
  rfl

end State

/-! ### Settings -/

namespace Settings

theorem plain_toJson {s : Settings} (h : s.Storable) : s.toJson.Plain := by
  simp only [toJson, Json.plain_record_iff, List.forall_mem_cons]
  exact ⟨Json.plain_nat h.historyLimit, Json.plain_int64 _, Json.plain_nat h.firstId,
    List.forall_mem_nil _⟩

theorem reads_toJson {s : Settings} (h : s.Storable) : Settings.read.Reads s s.toJson := by
  refine Json.Reader.reads_record (by simp [keys]) (by simp) fun room hroom => ?_
  simp only [List.forall_mem_cons] at hroom
  obtain ⟨hlimit, hrepeat, hfirst, -⟩ := hroom
  dsimp only
  rw [Json.needOr_eq rfl (Json.Reader.reads_nat64 h.historyLimit) hlimit,
    Json.needOr_eq rfl (Json.Reader.reads_int64 s.maxRepeat) hrepeat,
    Json.needOr_eq rfl (Json.Reader.reads_nat64 h.firstId) hfirst]
  rfl

end Settings

end TermForest
