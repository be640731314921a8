import TermForest.Json.Record
import TermForest.Proofs.Json.Document

/-!
# Records taken apart

What the readers make of documents that are written for values: a list of values, values by key, a
record with its fields by name. A reader reads a value from a document if it does so whenever there is
room for the levels of the document.
-/

namespace TermForest

namespace Json

/-! ### Depth -/

mutual

/-- How many levels of arrays and objects a document has. -/
def depth : Json → Nat
  | .null | .bool _ | .int _ | .decimal .. | .text _ => 0
  | .array items => itemsDepth items + 1
  | .object members => membersDepth members + 1

/-- The depth of the deepest item. -/
def itemsDepth : List Json → Nat
  | [] => 0
  | j :: js => max j.depth (itemsDepth js)

/-- The depth of the deepest member. -/
def membersDepth : List (Option String × Json) → Nat
  | [] => 0
  | (_, j) :: ms => max j.depth (membersDepth ms)

end

theorem itemsDepth_le_iff {js : List Json} {n : Nat} :
    itemsDepth js ≤ n ↔ ∀ j ∈ js, j.depth ≤ n := by
  induction js with
  | nil => simp [itemsDepth]
  | cons j js ih => rw [itemsDepth, Nat.max_le, ih, List.forall_mem_cons]

theorem depth_array_le_iff {js : List Json} {n : Nat} :
    (Json.array js).depth ≤ n ↔ 1 ≤ n ∧ ∀ j ∈ js, j.depth ≤ n - 1 := by
  rw [depth, ← itemsDepth_le_iff]
  omega

theorem depth_record_le_iff {ms : List (String × Json)} {n : Nat} :
    (record ms).depth ≤ n ↔ 1 ≤ n ∧ ∀ m ∈ ms, m.2.depth ≤ n - 1 := by
  have hmembers : ∀ {ms : List (String × Json)} {n : Nat},
      membersDepth (ms.map fun m => (some m.1, m.2)) ≤ n ↔ ∀ m ∈ ms, m.2.depth ≤ n := by
    intro ms n
    induction ms with
    | nil => simp [membersDepth]
    | cons m ms ih => rw [List.map_cons, membersDepth, Nat.max_le, ih, List.forall_mem_cons]
  rw [record, depth, ← hmembers]
  omega

/-! ### Readers -/

namespace Reader

variable {α β : Type} {item : Reader α} {room : Nat}

/-- Where there is room for a document, the reader gives the value. -/
def Reads (r : Reader α) (a : α) (j : Json) : Prop := ∀ room, j.depth ≤ room → r room j = some a

theorem reads_bool (b : Bool) : bool.Reads b (.bool b) := fun _ _ => rfl

theorem reads_text (s : String) : text.Reads s (.str s) := fun _ _ => rfl

theorem int64?_toInt (n : Int64) : int64? n.toInt = some n := by
  have hlow := Int64.le_iff_toInt_le.1 (Int64.minValue_le n)
  have hhigh := Int64.le_iff_toInt_le.1 (Int64.le_maxValue n)
  rw [int64?, if_pos ⟨hlow, hhigh⟩, Int64.ofInt_toInt]

theorem reads_int64 (n : Int64) : int64.Reads n (.int n.toInt) := fun _ _ => int64?_toInt n

theorem reads_nat64 {n : Nat} (h : n < UInt64.size) : nat64.Reads n (.nat n) := fun _ _ =>
  if_pos ⟨Int.natCast_nonneg n, h⟩

theorem reads_name {find : String → Option α} {s : String} {a : α} (h : find s = some a) :
    (name find).Reads a (.str s) := by
  rintro (_ | room) _ <;> exact h

theorem mapM_map {γ : Type} {f : β → γ} {g : γ → Option β} {as : List β}
    (h : ∀ a ∈ as, g (f a) = some a) : (as.map f).mapM g = some as := by
  induction as with
  | nil => rfl
  | cons a as ih =>
    rw [List.forall_mem_cons] at h
    rw [List.map_cons, List.mapM_cons, h.1, ih h.2]
    rfl

theorem reads_list {write : α → Json} {as : List α} (h : ∀ a ∈ as, item.Reads a (write a)) :
    (list item).Reads as (.array (as.map write)) := by
  rintro room hroom
  obtain ⟨hpos, hroom⟩ := depth_array_le_iff.1 hroom
  obtain ⟨room, rfl⟩ := Nat.exists_eq_add_one.2 hpos
  exact mapM_map fun a ha => h a ha room (hroom _ (List.mem_map_of_mem ha))

theorem reads_entries {write : α → Json} {es : List (String × α)}
    (h : ∀ e ∈ es, item.Reads e.2 (write e.2)) :
    (entries item).Reads es (Json.record (es.map fun e => (e.1, write e.2))) := by
  intro room hroom
  obtain ⟨hpos, hroom⟩ := depth_record_le_iff.1 hroom
  obtain ⟨room, rfl⟩ := Nat.exists_eq_add_one.2 hpos
  rw [Json.record, List.map_map]
  refine mapM_map (f := fun e : String × α => ((some e.1, write e.2) : Option String × Json))
    fun e he => ?_
  have hitem := h e he room (hroom _ (List.mem_map_of_mem he))
  simp [hitem]

/-! ### Records -/

theorem mapM_key (ms : List (String × Json)) :
    (ms.map fun m => ((some m.1, m.2) : Option String × Json)).mapM
      (fun m => (do return (← m.1, m.2) : Option (String × Json))) = some ms :=
  mapM_map fun _ _ => rfl

/-- A record that has only fields of given names, none of them twice, has these fields. -/
theorem fields_record {names : List String} {ms : List (String × Json)}
    (hnames : ∀ m ∈ ms, m.1 ∈ names) (hnodup : (ms.map Prod.fst).Nodup) :
    fields names (.record ms) = some ms := by
  have hfilter : ms.filter (fun m => decide (m.1 ∈ names)) = ms :=
    List.filter_eq_self.2 fun m hm => decide_eq_true (hnames m hm)
  have hfields : fields names (.record ms) =
      ((ms.map fun m => ((some m.1, m.2) : Option String × Json)).mapM
        (fun m => (do return (← m.1, m.2) : Option (String × Json)))).bind fun ms =>
          let known := ms.filter (·.1 ∈ names)
          if (known.map Prod.fst).Nodup then some known else none := rfl
  rw [hfields, mapM_key, Option.bind_some]
  dsimp only
  rw [hfilter, if_pos hnodup]

theorem reads_record {names : List String} {build : Nat → List (String × Json) → Option α} {a : α}
    {ms : List (String × Json)} (hnames : ∀ m ∈ ms, m.1 ∈ names)
    (hnodup : (ms.map Prod.fst).Nodup)
    (h : ∀ room, (∀ m ∈ ms, m.2.depth ≤ room) → build room ms = some a) :
    (Reader.record names build).Reads a (.record ms) := by
  intro room hroom
  obtain ⟨hpos, hroom⟩ := depth_record_le_iff.1 hroom
  obtain ⟨room, rfl⟩ := Nat.exists_eq_add_one.2 hpos
  rw [Reader.record, fields_record hnames hnodup]
  exact h room hroom

/-! ### What is read -/

theorem exists_of_mem_mapM {f : α → Option β} {as : List α} {bs : List β}
    (h : as.mapM f = some bs) {b : β} (hb : b ∈ bs) : ∃ a ∈ as, f a = some b := by
  induction as generalizing bs with
  | nil =>
    obtain rfl := Option.some.inj h
    cases hb
  | cons a as ih =>
    rw [List.mapM_cons] at h
    obtain ⟨b', hb', h⟩ := Option.bind_eq_some_iff.1 h
    obtain ⟨bs', hbs', h⟩ := Option.bind_eq_some_iff.1 h
    obtain rfl := Option.some.inj h
    rcases List.mem_cons.1 hb with rfl | hb
    · exact ⟨a, List.mem_cons_self, hb'⟩
    · obtain ⟨a', ha', h'⟩ := ih hbs' hb
      exact ⟨a', List.mem_cons_of_mem a ha', h'⟩

theorem exists_of_list {as : List α} {j : Json} (h : list item room j = some as) :
    1 ≤ room ∧ ∀ a ∈ as, ∃ j, item (room - 1) j = some a := by
  cases room with
  | zero => cases h
  | succ room =>
    cases j with
    | array items =>
      refine ⟨Nat.succ_pos room, fun a ha => ?_⟩
      obtain ⟨j, -, hj⟩ := exists_of_mem_mapM h ha
      exact ⟨j, hj⟩
    | _ => cases h

theorem exists_of_entries {es : List (String × α)} {j : Json} (h : entries item room j = some es) :
    1 ≤ room ∧ ∀ e ∈ es, ∃ j, item (room - 1) j = some e.2 := by
  cases room with
  | zero => cases h
  | succ room =>
    cases j with
    | object members =>
      refine ⟨Nat.succ_pos room, fun e he => ?_⟩
      obtain ⟨m, -, hm⟩ := exists_of_mem_mapM h he
      obtain ⟨key, -, hm⟩ := Option.bind_eq_some_iff.1 hm
      obtain ⟨a, ha, hm⟩ := Option.bind_eq_some_iff.1 hm
      obtain rfl := Option.some.inj hm
      exact ⟨m.2, ha⟩
    | _ => cases h

theorem exists_of_record {names : List String} {build : Nat → List (String × Json) → Option α}
    {a : α} {j : Json} (h : Reader.record names build room j = some a) :
    1 ≤ room ∧ ∃ ms, build (room - 1) ms = some a := by
  cases room with
  | zero => cases h
  | succ room =>
    obtain ⟨ms, -, hms⟩ := Option.bind_eq_some_iff.1 h
    exact ⟨Nat.succ_pos room, ms, hms⟩

theorem lt_of_nat64 {n : Nat} {j : Json} (h : nat64 room j = some n) : n < UInt64.size := by
  unfold nat64 at h
  split at h
  · split at h
    · next hlt =>
      obtain rfl := Option.some.inj h
      exact hlt.2
    · cases h
  · cases h

end Reader

/-! ### Fields of records -/

section fields

variable {α : Type} {item : Reader α} {a : α} {room : Nat} {ms : List (String × Json)}
  {key : String} {j : Json}

theorem need_eq (hj : ms.lookup key = some j) (h : item.Reads a j) (hroom : j.depth ≤ room) :
    need item room ms key = some a := by
  rw [need, hj]
  exact h room hroom

theorem needOr_eq {otherwise : α} (hj : ms.lookup key = some j) (h : item.Reads a j)
    (hroom : j.depth ≤ room) : needOr otherwise item room ms key = some a := by
  rw [needOr, hj]
  exact h room hroom

theorem exists_of_need (h : need item room ms key = some a) : ∃ j, item room j = some a := by
  obtain ⟨j, -, hj⟩ := Option.bind_eq_some_iff.1 h
  exact ⟨j, hj⟩

theorem eq_or_exists_of_needOr {otherwise : α} (h : needOr otherwise item room ms key = some a) :
    a = otherwise ∨ ∃ j, item room j = some a := by
  unfold needOr at h
  split at h
  · exact .inr ⟨_, h⟩
  · exact .inl (Option.some.inj h).symm

theorem exists_of_maybe {o : Option α} (h : maybe item room ms key = some o) :
    ∀ a ∈ o, ∃ j, item room j = some a := by
  rintro a rfl
  unfold maybe at h
  split at h
  · cases h
  · cases h
  · obtain ⟨a', ha', h⟩ := Option.map_eq_some_iff.1 h
    obtain rfl := Option.some.inj h
    exact ⟨_, ha'⟩

end fields

end Json

end TermForest
