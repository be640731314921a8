import TermForest.Format.Level
import TermForest.Proofs.Format.Node
import TermForest.Proofs.Level.Describe

/-!
# Level files read back

What is written for a term is plain and reads as the term, if its ids fit 64 bits and no slot of it
is filled twice. Every term that is read from a file is of this kind, and is not nested deeper than
the file.
-/

namespace TermForest

open Json (need needOr maybe)
open Json.Reader (Reads)

/-! ### Terms in slots -/

namespace Terms

theorem ofEntries_toList : ∀ ts : Terms, ofEntries ts.toList = ts
  | .nil => rfl
  | .cons _ _ rest => by rw [toList, ofEntries, rest.ofEntries_toList]

theorem toList_ofEntries (entries : List (String × Term)) :
    (ofEntries entries).toList = entries := by
  induction entries with
  | nil => rfl
  | cons e entries ih => rw [ofEntries, toList, ih]

/-- Terms under different names make up the same terms again. -/
theorem ofList_toList {ts : Terms} (h : ts.names.Nodup) : ofList ts.toList = ts := by
  rw [ofList, Slots.distinct_of_nodup (ts.names_eq_map ▸ h), ofEntries_toList]

theorem nodup_names_ofList (entries : List (String × Term)) : (ofList entries).names.Nodup := by
  rw [names_eq_map, ofList, toList_ofEntries]
  exact Slots.nodup_inOrder _ _

theorem membersToJson_eq : ∀ ts : Terms,
    ts.membersToJson = ts.toList.map fun e => (e.1, e.2.toJson)
  | .nil => rfl
  | .cons _ _ rest => by rw [membersToJson, toList, List.map_cons, rest.membersToJson_eq]

end Terms

mutual

/-- The ids in a term are numbers of 64 bits, and no slot is filled twice. -/
def Term.Storable : Term → Prop
  | .mk id _ _ parts => (∀ i ∈ id, i < UInt64.size) ∧ parts.names.Nodup ∧ parts.Storable

/-- The terms in slots are storable. -/
def Terms.Storable : Terms → Prop
  | .nil => True
  | .cons _ t rest => t.Storable ∧ rest.Storable

end

theorem Terms.storable_iff : ∀ {ts : Terms}, ts.Storable ↔ ∀ e ∈ ts.toList, e.2.Storable
  | .nil => by simp [Storable, toList]
  | .cons _ _ rest => by simp [Storable, toList, rest.storable_iff]

/-! ### Terms -/

namespace Term

/-- What is written of a term: only what it has. -/
theorem exists_toJson_eq (id : Option NodeId) (tag : String) (fields : Fields) (parts : Terms) :
    ∃ ms : List (String × Json), (mk id tag fields parts).toJson = .record ms ∧
      (∀ m ∈ ms, m.1 ∈ keys) ∧ (ms.map Prod.fst).Nodup ∧
      ms.lookup "id" = id.map .nat ∧ ms.lookup "type" = some (.str tag) ∧
      ms.lookup "fields" = (if fields.isEmpty then none else some fields.toJson) ∧
      ms.lookup "subexpressions" =
        (if parts = .nil then none else some (.record parts.membersToJson)) := by
  refine ⟨_, by rw [toJson], ?_⟩
  cases id <;> by_cases hfields : fields.isEmpty = true <;> by_cases hparts : parts = .nil <;>
    simp [keys, hfields, hparts, List.lookup_cons]

mutual

theorem plain_toJson : ∀ {t : Term}, t.Storable → t.toJson.Plain
  | .mk id tag fields parts, h => by
    rw [toJson, Json.plain_record_iff]
    simp only [List.forall_mem_append, List.forall_mem_singleton]
    refine ⟨⟨⟨?_, rfl⟩, ?_⟩, ?_⟩
    · cases id with
      | none => exact List.forall_mem_nil _
      | some id => exact List.forall_mem_singleton.2 (Json.plain_nat (h.1 id rfl))
    · split
      · exact List.forall_mem_nil _
      · exact List.forall_mem_singleton.2 fields.plain_toJson
    · split
      · exact List.forall_mem_nil _
      · exact List.forall_mem_singleton.2 (Json.plain_record_iff.2 (plain_membersToJson h.2.2))

theorem plain_membersToJson : ∀ {ts : Terms}, ts.Storable → ∀ m ∈ ts.membersToJson, m.2.Plain
  | .nil, _ => List.forall_mem_nil _
  | .cons _ _ _, h => List.forall_mem_cons.2 ⟨plain_toJson h.1, plain_membersToJson h.2⟩

end

end Term

/-- Terms in slots are read as they are written if each of them is. -/
theorem Terms.reads_toJson {ts : Terms} (hnodup : ts.names.Nodup)
    (h : ∀ e ∈ ts.toList, Term.read.Reads e.2 e.2.toJson) :
    Terms.read.Reads ts (.record ts.membersToJson) := by
  intro room hroom
  rw [Terms.membersToJson_eq] at hroom ⊢
  obtain ⟨hpos, hroom⟩ := Json.depth_record_le_iff.1 hroom
  obtain ⟨room, rfl⟩ := Nat.exists_eq_add_one.2 hpos
  have hread : (ts.toList.map fun e => ((some e.1, e.2.toJson) : Option String × Json)).mapM
      (fun m => do return (← m.1, ← Term.read room m.2)) = some ts.toList := by
    refine Json.Reader.mapM_map
      (f := fun e : String × Term => ((some e.1, e.2.toJson) : Option String × Json)) fun e he => ?_
    have hterm := h e he room (hroom _ (List.mem_map_of_mem he))
    simp [hterm]
  rw [Json.record, List.map_map, Terms.read]
  exact (congrArg (fun o => o.bind fun entries => some (Terms.ofList entries)) hread).trans
    (congrArg some (ofList_toList hnodup))

namespace Term

mutual

theorem reads_toJson : ∀ {t : Term}, t.Storable → Term.read.Reads t t.toJson
  | .mk id tag fields parts, h => by
    intro room hroom
    obtain ⟨ms, hms, hkeys, hnodup, hid, htag, hfields, hparts⟩ :=
      exists_toJson_eq id tag fields parts
    rw [hms, Json.depth_record_le_iff] at hroom
    obtain ⟨hpos, hroom⟩ := hroom
    obtain ⟨room, rfl⟩ := Nat.exists_eq_add_one.2 hpos
    have hdepth : ∀ {key j}, ms.lookup key = some j → j.depth ≤ room := by
      intro key j hj
      obtain ⟨before, after, rfl, -⟩ := List.lookup_eq_some_iff.1 hj
      exact hroom (key, j) (List.mem_append_right _ List.mem_cons_self)
    have hid : maybe Json.Reader.nat64 room ms "id" = some id := by
      rw [maybe, hid]
      cases id with
      | none => rfl
      | some id =>
        exact congrArg (Option.map some) (Json.Reader.reads_nat64 (h.1 id rfl) room (Nat.zero_le _))
    have hfields : needOr ∅ Fields.read room ms "fields" = some fields := by
      split at hfields
      · next hempty =>
        rw [needOr, hfields, Std.ExtTreeMap.isEmpty_iff.1 hempty]
      · exact Json.needOr_eq hfields fields.reads_toJson (hdepth hfields)
    have hread := Terms.reads_toJson h.2.1 (reads_of_mem h.2.2)
    rw [hms, Term.read, Json.Reader.fields_record hkeys hnodup]
    simp only [Option.bind_eq_bind, Option.bind_some, hid, hfields,
      Json.need_eq htag (Json.Reader.reads_text tag) (hdepth htag)]
    split at hparts
    · next hnil =>
      rw [hparts, hnil]
      rfl
    · rw [hparts]
      dsimp only
      rw [hread room (hdepth hparts)]
      rfl

theorem reads_of_mem : ∀ {ts : Terms}, ts.Storable →
    ∀ e ∈ ts.toList, Term.read.Reads e.2 e.2.toJson
  | .nil, _ => List.forall_mem_nil _
  | .cons _ _ _, h => List.forall_mem_cons.2 ⟨reads_toJson h.1, reads_of_mem h.2⟩

end

end Term

/-! ### Levels -/

/-- The terms of all areas are storable. -/
structure Level.Storable (l : Level) : Prop where
  board : ∀ t ∈ l.board, t.Storable
  toolbox : ∀ t ∈ l.toolbox, t.Storable
  defs : ∀ t ∈ l.defs, t.Storable
  goal : ∀ t ∈ l.goal, t.Storable

/-- The terms of all levels are storable. -/
def LevelFile.Storable (L : LevelFile) : Prop := ∀ l ∈ L.levels, l.Storable

section area

variable {ts : List Term}

theorem plain_area (h : ∀ t ∈ ts, t.Storable) : (Json.array (ts.map Term.toJson)).Plain :=
  Json.allPlain_iff.2 (List.forall_mem_map.2 fun t ht => Term.plain_toJson (h t ht))

theorem reads_area (h : ∀ t ∈ ts, t.Storable) :
    (Json.Reader.list Term.read).Reads ts (.array (ts.map Term.toJson)) :=
  Json.Reader.reads_list fun t ht => Term.reads_toJson (h t ht)

end area

namespace Level

theorem plain_toJson {l : Level} (h : l.Storable) : l.toJson.Plain := by
  simp only [toJson, Json.plain_record_iff, List.forall_mem_cons]
  exact ⟨plain_area h.board, plain_area h.toolbox, plain_area h.defs, plain_area h.goal,
    List.forall_mem_nil _⟩

theorem reads_toJson {l : Level} (h : l.Storable) : Level.read.Reads l l.toJson := by
  refine Json.Reader.reads_record (by simp [keys]) (by simp) fun room hroom => ?_
  simp only [List.forall_mem_cons] at hroom
  obtain ⟨hboard, htoolbox, hdefs, hgoal, -⟩ := hroom
  dsimp only
  rw [Json.needOr_eq rfl (reads_area h.board) hboard,
    Json.needOr_eq rfl (reads_area h.toolbox) htoolbox,
    Json.needOr_eq rfl (reads_area h.defs) hdefs, Json.needOr_eq rfl (reads_area h.goal) hgoal]
  rfl

end Level

namespace LevelFile

theorem plain_toJson {L : LevelFile} (h : L.Storable) : L.toJson.Plain :=
  Json.plain_record_iff.2 (List.forall_mem_singleton.2
    (Json.allPlain_iff.2 (List.forall_mem_map.2 fun l hl => Level.plain_toJson (h l hl))))

theorem reads_toJson {L : LevelFile} (h : L.Storable) : LevelFile.read.Reads L L.toJson := by
  refine Json.Reader.reads_record (by simp) (by simp) fun room hroom => ?_
  have hlevels : (Json.Reader.list Level.read).Reads L.levels (.array (L.levels.map Level.toJson)) :=
    Json.Reader.reads_list fun l hl => Level.reads_toJson (h l hl)
  rw [Json.need_eq rfl hlevels (hroom _ List.mem_cons_self)]
  rfl

end LevelFile

/-! ### What is read from a file -/

theorem Datum.depth_le_of_read {room : Nat} {j : Json} {d : Datum}
    (h : Datum.read room j = some d) : d.toJson.depth ≤ room := by
  induction room generalizing j d with
  | zero =>
    cases d with
    | list items => cases j <;> simp [Datum.read] at h
    | _ => exact Nat.zero_le _
  | succ room ih =>
    cases d with
    | list items =>
      cases j with
      | array js =>
        obtain ⟨ds, hds, he⟩ := Option.map_eq_some_iff.1 h
        obtain rfl := Datum.list.inj he
        rw [toJson, listToJson_eq_map, Json.depth_array_le_iff]
        refine ⟨Nat.succ_pos room, List.forall_mem_map.2 fun d hd => ?_⟩
        obtain ⟨j, -, hj⟩ := Json.Reader.exists_of_mem_mapM hds hd
        exact ih hj
      | _ => simp [Datum.read] at h
    | _ => exact Nat.zero_le _

namespace Fields

theorem mem_or_getElem?_of_foldl {key : String} {value : Datum} (entries : List (String × Datum))
    (fields : Fields)
    (h : (entries.foldl (fun fields e => fields.insert e.1 e.2) fields)[key]? = some value) :
    (key, value) ∈ entries ∨ fields[key]? = some value := by
  induction entries generalizing fields with
  | nil => exact .inr h
  | cons e entries ih =>
    rcases ih _ h with h | h
    · exact .inl (List.mem_cons_of_mem e h)
    · rw [Std.ExtTreeMap.getElem?_insert] at h
      split at h
      · next hkey =>
        obtain rfl := Option.some.inj h
        obtain rfl := Std.LawfulEqCmp.eq_of_compare hkey
        exact .inl List.mem_cons_self
      · exact .inr h

theorem depth_le_of_read {room : Nat} {j : Json} {fields : Fields}
    (h : Fields.read room j = some fields) : (Fields.toJson fields).depth ≤ room := by
  obtain ⟨entries, hentries, h⟩ := Option.bind_eq_some_iff.1 h
  obtain rfl := Option.some.inj h
  obtain ⟨hpos, hvalues⟩ := Json.Reader.exists_of_entries hentries
  rw [toJson, Json.depth_record_le_iff]
  refine ⟨hpos, List.forall_mem_map.2 fun e he => ?_⟩
  rcases mem_or_getElem?_of_foldl entries ∅ (Std.ExtTreeMap.mem_toList_iff_getElem?_eq_some.1 he)
    with he | he
  · obtain ⟨j, hj⟩ := hvalues e he
    exact Datum.depth_le_of_read hj
  · rw [Std.ExtTreeMap.getElem?_empty] at he
    cases he

end Fields

mutual

/-- A term that is read is storable, and not deeper than the room there was. -/
theorem Term.storable_of_read : ∀ {room : Nat} {j : Json} {t : Term}, Term.read room j = some t →
    t.Storable ∧ t.toJson.depth ≤ room
  | 0, _, _, h => by
    rw [Term.read] at h
    cases h
  | room + 1, j, t, h => by
    rw [Term.read] at h
    obtain ⟨ms, -, h⟩ := Option.bind_eq_some_iff.1 h
    obtain ⟨id, hid, h⟩ := Option.bind_eq_some_iff.1 h
    obtain ⟨tag, -, h⟩ := Option.bind_eq_some_iff.1 h
    obtain ⟨own, hown, h⟩ := Option.bind_eq_some_iff.1 h
    have hid : ∀ i ∈ id, i < UInt64.size := by
      intro i hi
      obtain ⟨j, hj⟩ := Json.exists_of_maybe hid i hi
      exact Json.Reader.lt_of_nat64 hj
    have hown : own.isEmpty ∨ (Fields.toJson own).depth ≤ room := by
      rcases Json.eq_or_exists_of_needOr hown with rfl | ⟨j, hj⟩
      · exact .inl rfl
      · exact .inr (Fields.depth_le_of_read hj)
    have hparts : ∃ parts, t = .mk id tag own parts ∧ parts.names.Nodup ∧ parts.Storable ∧
        (parts = .nil ∨ (Json.record parts.membersToJson).depth ≤ room) := by
      split at h
      · obtain rfl := Option.some.inj h
        exact ⟨.nil, rfl, .nil, trivial, .inl rfl⟩
      · obtain ⟨parts, hread, h⟩ := Option.bind_eq_some_iff.1 h
        obtain rfl := Option.some.inj h
        obtain ⟨hnodup, hstorable, hdepth⟩ := Terms.storable_of_read hread
        exact ⟨parts, rfl, hnodup, hstorable, .inr hdepth⟩
    obtain ⟨parts, rfl, hnodup, hstorable, hdepth⟩ := hparts
    refine ⟨⟨hid, hnodup, hstorable⟩, ?_⟩
    rw [Term.toJson, Json.depth_record_le_iff]
    simp only [List.forall_mem_append, List.forall_mem_singleton]
    refine ⟨Nat.succ_pos room, ⟨⟨?_, Nat.zero_le _⟩, ?_⟩, ?_⟩
    · cases id with
      | none => exact List.forall_mem_nil _
      | some id => exact List.forall_mem_singleton.2 (Nat.zero_le _)
    · split
      · exact List.forall_mem_nil _
      · next hne => exact List.forall_mem_singleton.2 (hown.resolve_left hne)
    · split
      · exact List.forall_mem_nil _
      · next hne => exact List.forall_mem_singleton.2 (hdepth.resolve_left hne)

theorem Terms.storable_of_read : ∀ {room : Nat} {j : Json} {ts : Terms},
    Terms.read room j = some ts →
    ts.names.Nodup ∧ ts.Storable ∧ (Json.record ts.membersToJson).depth ≤ room
  | 0, j, _, h => by cases j <;> simp [Terms.read] at h
  | room + 1, j, ts, h => by
    cases j with
    | object members =>
      rw [Terms.read] at h
      obtain ⟨entries, hentries, h⟩ := Option.bind_eq_some_iff.1 h
      obtain rfl := Option.some.inj h
      have hread : ∀ e ∈ (Terms.ofList entries).toList,
          e.2.Storable ∧ e.2.toJson.depth ≤ room := by
        intro e he
        rw [Terms.ofList, Terms.toList_ofEntries] at he
        obtain ⟨m, -, hm⟩ := Json.Reader.exists_of_mem_mapM hentries (Slots.distinct_subset _ he)
        obtain ⟨key, -, hm⟩ := Option.bind_eq_some_iff.1 hm
        obtain ⟨t, ht, hm⟩ := Option.bind_eq_some_iff.1 hm
        obtain rfl := Option.some.inj hm
        exact Term.storable_of_read ht
      refine ⟨Terms.nodup_names_ofList entries, Terms.storable_iff.2 fun e he => (hread e he).1, ?_⟩
      rw [Terms.membersToJson_eq, Json.depth_record_le_iff]
      exact ⟨Nat.succ_pos room, List.forall_mem_map.2 fun e he => (hread e he).2⟩
    | _ => simp [Terms.read] at h

end

theorem storable_of_list {room : Nat} {j : Json} {ts : List Term}
    (h : Json.Reader.list Term.read room j = some ts) :
    ∀ t ∈ ts, t.Storable ∧ t.toJson.depth ≤ room - 1 := by
  intro t ht
  obtain ⟨j, hj⟩ := (Json.Reader.exists_of_list h).2 t ht
  exact Term.storable_of_read hj

/-- A level that is read is storable, and not deeper than the room there was, if this is enough for
the list of an area. -/
theorem Level.storable_of_read {room : Nat} {j : Json} {l : Level} (hroom : 2 ≤ room)
    (h : Level.read room j = some l) : l.Storable ∧ l.toJson.depth ≤ room := by
  obtain ⟨-, ms, h⟩ := Json.Reader.exists_of_record h
  obtain ⟨board, hboard, h⟩ := Option.bind_eq_some_iff.1 h
  obtain ⟨toolbox, htoolbox, h⟩ := Option.bind_eq_some_iff.1 h
  obtain ⟨defs, hdefs, h⟩ := Option.bind_eq_some_iff.1 h
  obtain ⟨goal, hgoal, h⟩ := Option.bind_eq_some_iff.1 h
  obtain rfl := Option.some.inj h
  have harea : ∀ {key ts}, needOr [] (Json.Reader.list Term.read) (room - 1) ms key = some ts →
      ∀ t ∈ ts, t.Storable ∧ t.toJson.depth ≤ room - 1 - 1 := by
    intro key ts hts
    rcases Json.eq_or_exists_of_needOr hts with rfl | ⟨j, hj⟩
    · exact List.forall_mem_nil _
    · exact storable_of_list hj
  have hdepth : ∀ {key ts}, needOr [] (Json.Reader.list Term.read) (room - 1) ms key = some ts →
      (Json.array (ts.map Term.toJson)).depth ≤ room - 1 := fun hts =>
    Json.depth_array_le_iff.2 ⟨Nat.le_sub_of_add_le hroom,
      List.forall_mem_map.2 fun t ht => (harea hts t ht).2⟩
  refine ⟨⟨fun t ht => (harea hboard t ht).1, fun t ht => (harea htoolbox t ht).1,
    fun t ht => (harea hdefs t ht).1, fun t ht => (harea hgoal t ht).1⟩, ?_⟩
  simp only [toJson, Json.depth_record_le_iff, List.forall_mem_cons]
  exact ⟨Nat.le_of_succ_le hroom, hdepth hboard, hdepth htoolbox, hdepth hdefs, hdepth hgoal,
    List.forall_mem_nil _⟩

/-- A level set that is read from a file is storable, and not too deep to be read again. -/
theorem LevelFile.storable_of_parse? {text : String} {L : LevelFile} (h : parse? text = some L) :
    L.Storable ∧ L.toJson.depth ≤ Json.maxDepth := by
  obtain ⟨j, -, h⟩ := Option.bind_eq_some_iff.1 h
  rw [ofJson?, read] at h
  obtain ⟨-, ms, h⟩ := Json.Reader.exists_of_record h
  obtain ⟨levels, hlevels, h⟩ := Option.bind_eq_some_iff.1 h
  obtain rfl := Option.some.inj h
  obtain ⟨j, hlevels⟩ := Json.exists_of_need hlevels
  have hlevel : ∀ l ∈ levels, l.Storable ∧ l.toJson.depth ≤ Json.maxDepth - 1 - 1 := by
    intro l hl
    obtain ⟨j, hj⟩ := (Json.Reader.exists_of_list hlevels).2 l hl
    exact Level.storable_of_read (by decide) hj
  refine ⟨fun l hl => (hlevel l hl).1, ?_⟩
  rw [toJson, Json.depth_record_le_iff, List.forall_mem_singleton, Json.depth_array_le_iff]
  exact ⟨by decide, by decide, List.forall_mem_map.2 fun l hl => (hlevel l hl).2⟩

end TermForest
