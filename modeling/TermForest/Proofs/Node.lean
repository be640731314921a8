import TermForest.Level.Load
import TermForest.Proofs.Slots

/-!
# Well-formed nodes

A node is well-formed when it has the fields and slots of its kind. The rules keep a slightly weaker
property, which leaves open how the length of an array is counted once it no longer fits a field.
-/

namespace TermForest

namespace Node

/-- Every declared field is there with a value of its sort, and an operator is one of the eight. -/
structure HasFields (n : Node) : Prop where
  takes : ∀ key ∈ n.kind.declaredFields, ∃ value, n.field? key = some value ∧
    n.kind.takes key value = true
  operator : n.kind = .binop → ∃ text op, n.text? "op" = some text ∧
    Operator.ofText? text = some op

/-- A node has the fields and slots of its kind, the slots in their order. -/
structure WellFormed (n : Node) : Prop extends n.HasFields where
  length : n.kind = .array → ∃ length, n.int? "length" = some length ∧ 0 ≤ length
  slots : n.slots.names = n.declaredSlots

/-- A node has the fields and slots of its kind. The length of an array counts its elements as far
as a field can hold the number; it does so unless the array has more elements than half of the ids
below `next`. -/
structure Formed (next : Nat) (n : Node) : Prop extends n.HasFields where
  slots : n.kind ≠ .array → n.slots.names = n.declaredSlots
  elements : n.kind = .array →
    n.slots.names = (List.range n.slots.size).map elementSlot ∧
    n.int? "length" = some (Int64.ofNat n.slots.size) ∧
    (2 * n.slots.size < UInt64.size ∨ 2 * n.slots.size < next)

/-! ### Lengths of arrays -/

theorem toInt_ofNat {k : Nat} (h : 2 * k < UInt64.size) : (Int64.ofNat k).toInt = k :=
  Int64.toInt_ofNat_of_lt (by simp only [UInt64.size] at h; omega)

theorem WellFormed.formed {n : Node} (h : n.WellFormed) (next : Nat) : n.Formed next := by
  refine ⟨h.toHasFields, fun _ => h.slots, fun hk => ?_⟩
  obtain ⟨length, hl, h0⟩ := h.length hk
  have hnames : n.slots.names = (List.range length.toInt.toNat).map elementSlot := by
    rw [h.slots, declaredSlots, hk]
    simp [hl]
  have hsize : n.slots.size = length.toInt.toNat := by
    rw [← Slots.length_names, hnames]
    simp
  have hle : 0 ≤ length.toInt := by simpa using Int64.le_iff_toInt_le.1 h0
  have hlt := Int64.toInt_lt length
  have hfits : 2 * n.slots.size < UInt64.size := by
    rw [hsize, UInt64.size]
    omega
  refine ⟨hsize ▸ hnames, ?_, .inl hfits⟩
  rw [hl]
  congr 1
  apply Int64.toInt.inj
  rw [toInt_ofNat hfits]
  omega

theorem Formed.wellFormed {n : Node} {next : Nat} (h : n.Formed next) (hn : next ≤ UInt64.size) :
    n.WellFormed := by
  by_cases hk : n.kind = .array
  · obtain ⟨hnames, hl, hsize⟩ := h.elements hk
    have hlt : 2 * n.slots.size < UInt64.size := by omega
    have hto := toInt_ofNat hlt
    refine ⟨h.toHasFields, fun _ => ⟨_, hl, ?_⟩, ?_⟩
    · rw [Int64.le_iff_toInt_le, hto]
      simp
    · rw [declaredSlots, hk, hnames]
      simp [hl, hto]
  · exact ⟨h.toHasFields, fun h' => absurd h' hk, h.slots hk⟩

theorem Formed.mono {n : Node} {next next' : Nat} (h : n.Formed next) (hn : next ≤ next') :
    n.Formed next' := by
  refine ⟨h.toHasFields, h.slots, fun hk => ?_⟩
  obtain ⟨hnames, hl, hsize⟩ := h.elements hk
  exact ⟨hnames, hl, by omega⟩

/-- Being formed depends on the kind, the fields and the names of the slots alone. -/
theorem Formed.congr {n n' : Node} {next : Nat} (h : n.Formed next) (hk : n'.kind = n.kind)
    (hf : n'.fields = n.fields) (hs : n'.slots.names = n.slots.names) : n'.Formed next := by
  have hsize : n'.slots.size = n.slots.size := by
    rw [← Slots.length_names, hs, Slots.length_names]
  have hfield : ∀ key, n'.field? key = n.field? key := fun key => by rw [field?, hf, field?]
  obtain ⟨⟨ht, ho⟩, hd, he⟩ := h
  refine ⟨⟨?_, ?_⟩, ?_, ?_⟩
  · simpa only [hk, hfield] using ht
  · simpa only [hk, text?, hfield] using ho
  · simpa only [hk, hs, declaredSlots, int?, parameters, hfield] using hd
  · simpa only [hk, hs, hsize, int?, hfield] using he

/-- A node of a kind without fields needs its slots only. -/
theorem formed_of_slots {n : Node} {next : Nat} (hd : n.kind.declaredFields = [])
    (hs : n.slots.names = n.declaredSlots) : n.Formed next := by
  have hne : ∀ k : Kind, k.declaredFields ≠ [] → n.kind ≠ k := by
    rintro _ hk rfl
    exact hk hd
  have hbinop := hne .binop (by decide)
  have harray := hne .array (by decide)
  refine ⟨⟨?_, fun h => absurd h hbinop⟩, fun _ => hs, fun h => absurd h harray⟩
  rw [hd]
  exact List.forall_mem_nil _

/-- A new node of one field and no slots. -/
theorem formed_withField {id : NodeId} {k : Kind} {key : String} {value : Datum} {next : Nat}
    (hd : k.declaredFields = [key]) (ht : k.takes key value = true) (hb : k ≠ .binop)
    (ha : k ≠ .array) (hs : (Node.withField { id, kind := k } key value).declaredSlots = []) :
    (Node.withField { id, kind := k } key value).Formed next := by
  refine ⟨⟨?_, fun h => absurd h hb⟩, fun _ => hs.symm, fun h => absurd h ha⟩
  show ∀ key' ∈ k.declaredFields, _
  rw [hd]
  intro key' hkey
  rw [List.mem_singleton.1 hkey]
  exact ⟨value, by simp [field?, withField], ht⟩

/-- A new array of some elements. -/
theorem formed_array {id : NodeId} {slots : Slots} {k next : Nat}
    (hs : slots.names = (List.range k).map elementSlot) (hk : 2 * k < UInt64.size ∨ 2 * k < next) :
    (Node.withField { id, kind := .array, slots } "length" (.int (Int64.ofNat k))).Formed next := by
  have hsize : slots.size = k := by
    rw [← Slots.length_names, hs]
    simp
  have hfield : (Node.withField { id, kind := .array, slots } "length"
      (.int (Int64.ofNat k))).field? "length" = some (.int (Int64.ofNat k)) := by
    simp [field?, withField]
  refine ⟨⟨fun key hkey => ?_, nofun⟩, fun h => absurd rfl h, fun _ => ⟨?_, ?_, ?_⟩⟩
  · rw [List.mem_singleton.1 (show key ∈ ["length"] from hkey)]
    exact ⟨_, hfield, by simp [Kind.takes, Datum.int?]⟩
  · show slots.names = (List.range slots.size).map elementSlot
    rw [hsize, hs]
  · rw [int?, hfield]
    show some (Int64.ofNat k) = some (Int64.ofNat slots.size)
    rw [hsize]
  · show 2 * slots.size < UInt64.size ∨ 2 * slots.size < next
    rwa [hsize]

/-! ### Fields that are there -/

theorem needText_eq_ok_iff {n : Node} {key s : String} :
    n.needText key = .ok s ↔ n.text? key = some s := by
  unfold Node.needText
  split <;> simp_all

theorem HasFields.exists_needText {n : Node} (h : n.HasFields) {key : String}
    (hkey : key ∈ n.kind.declaredFields)
    (ht : ∀ value, n.kind.takes key value = true → value.text?.isSome = true) :
    ∃ s, n.text? key = some s ∧ n.needText key = .ok s := by
  obtain ⟨value, hv, htakes⟩ := h.takes key hkey
  obtain ⟨s, hs⟩ := Option.isSome_iff_exists.1 (ht value htakes)
  have htext : n.text? key = some s := by rw [text?, hv, Option.bind_some, hs]
  exact ⟨s, htext, by rw [needText, htext]⟩

theorem HasFields.exists_needInt {n : Node} (h : n.HasFields) {key : String}
    (hkey : key ∈ n.kind.declaredFields)
    (ht : ∀ value, n.kind.takes key value = true → value.int?.isSome = true) :
    ∃ i, n.int? key = some i ∧ n.needInt key = .ok i := by
  obtain ⟨value, hv, htakes⟩ := h.takes key hkey
  obtain ⟨i, hi⟩ := Option.isSome_iff_exists.1 (ht value htakes)
  have hint : n.int? key = some i := by rw [int?, hv, Option.bind_some, hi]
  exact ⟨i, hint, by rw [needInt, hint]⟩

theorem HasFields.exists_needBool {n : Node} (h : n.HasFields) {key : String}
    (hkey : key ∈ n.kind.declaredFields)
    (ht : ∀ value, n.kind.takes key value = true → value.bool?.isSome = true) :
    ∃ b, n.bool? key = some b ∧ n.needBool key = .ok b := by
  obtain ⟨value, hv, htakes⟩ := h.takes key hkey
  obtain ⟨b, hb⟩ := Option.isSome_iff_exists.1 (ht value htakes)
  have hbool : n.bool? key = some b := by rw [bool?, hv, Option.bind_some, hb]
  exact ⟨b, hbool, by rw [needBool, hbool]⟩

/-- Symbols, binders, variables, references and definitions have a name. -/
theorem HasFields.exists_name {n : Node} (h : n.HasFields)
    (hk : "name" ∈ n.kind.declaredFields) :
    ∃ s, n.name? = some s ∧ n.needText "name" = .ok s :=
  h.exists_needText hk fun value hv => by simpa [Kind.takes] using hv

/-- A number has a value. -/
theorem HasFields.exists_number {n : Node} (h : n.HasFields) (hk : n.kind = .number) :
    ∃ i, n.int? "value" = some i ∧ n.needInt "value" = .ok i :=
  h.exists_needInt (by rw [hk]; decide) fun value hv => by simpa [Kind.takes, hk] using hv

/-- A truth value has a value. -/
theorem HasFields.exists_boolean {n : Node} (h : n.HasFields) (hk : n.kind = .boolean) :
    ∃ b, n.bool? "value" = some b ∧ n.needBool "value" = .ok b :=
  h.exists_needBool (by rw [hk]; decide) fun value hv => by simpa [Kind.takes, hk] using hv

/-- A string has a value. -/
theorem HasFields.exists_string {n : Node} (h : n.HasFields) (hk : n.kind = .string) :
    ∃ s, n.text? "value" = some s ∧ n.needText "value" = .ok s :=
  h.exists_needText (by rw [hk]; decide) fun value hv => by simpa [Kind.takes, hk] using hv

/-- An array has a length. -/
theorem HasFields.exists_length {n : Node} (h : n.HasFields) (hk : n.kind = .array) :
    ∃ i, n.int? "length" = some i ∧ n.needInt "length" = .ok i :=
  h.exists_needInt (by rw [hk]; decide) fun value hv => by simpa [Kind.takes] using hv

/-- A binary operation has one of the eight operators. -/
theorem HasFields.exists_operator {n : Node} (h : n.HasFields) (hk : n.kind = .binop) :
    ∃ text op, n.needText "op" = .ok text ∧ Operator.ofText? text = some op := by
  obtain ⟨text, op, ht, hop⟩ := h.operator hk
  exact ⟨text, op, by rw [needText, ht], hop⟩

/-! ### Slots that are there -/

@[simp] theorem needSlot_eq_ok_iff {n : Node} {slot : String} {c : NodeId} :
    n.needSlot slot = .ok c ↔ n.slots.get? slot = some c := by
  unfold Node.needSlot
  split <;> simp_all

/-- A declared slot is filled. -/
theorem Formed.exists_needSlot {n : Node} {next : Nat} (h : n.Formed next) (hk : n.kind ≠ .array)
    (slot : String) (hs : slot ∈ n.declaredSlots) :
    ∃ c, n.slots.get? slot = some c ∧ n.needSlot slot = .ok c := by
  rw [← h.slots hk] at hs
  obtain ⟨c, hc⟩ := Slots.mem_names_iff.1 hs
  exact ⟨c, hc, by rw [needSlot, hc]⟩

/-- An array has an element at every position below its length. -/
theorem Formed.exists_element {n : Node} {next : Nat} (h : n.Formed next) (hk : n.kind = .array)
    {length position : Int64} (hl : n.needInt "length" = .ok length) (h0 : 0 ≤ position)
    (hlt : position < length) :
    ∃ c, n.slots.get? (elementSlot position.toInt.toNat) = some c := by
  obtain ⟨hnames, hlength, -⟩ := h.elements hk
  rw [needInt, hlength, Except.ok.injEq] at hl
  rw [← Slots.mem_names_iff, hnames, List.mem_map]
  refine ⟨_, List.mem_range.2 ?_, rfl⟩
  have h0' : 0 ≤ position.toInt := by simpa using Int64.le_iff_toInt_le.1 h0
  have hlt' := Int64.lt_iff_toInt_lt.1 hlt
  have hle : (Int64.ofNat n.slots.size).toInt ≤ n.slots.size := by
    rw [Int64.toInt_ofNat', Int.bmod_def, show Int64.size = 2 ^ 64 from rfl]
    split <;> omega
  rw [← hl] at hlt'
  omega

end Node

end TermForest
