import Mathlib.Data.List.Nodup
import TermForest.Proofs.Except
import TermForest.Proofs.Node

/-!
# Fields and slots of loaded nodes

A node that passes the checks of the loader has the fields of its kind. Its slots have different
names unless it is a reference that names a parameter twice, which the loader lets pass.
-/

namespace TermForest

/-! ### Fields that are put together -/

/-- Fields set over others hide them. -/
theorem getElem?_foldl_insert (own given : Fields) (key : String) :
    (own.foldl (fun fields key value => fields.insert key value) given)[key]? =
      own[key]?.or given[key]? := by
  rw [Std.ExtTreeMap.foldl_eq_foldl_toList, ← Std.ExtTreeMap.insertMany_list_eq_foldl]
  cases hown : own[key]? with
  | some value =>
    rw [Option.some_or]
    refine Std.ExtTreeMap.getElem?_insertMany_list_of_mem (k := key) (by simp) ?_
      (Std.ExtTreeMap.mem_toList_iff_getElem?_eq_some.2 hown)
    exact Std.ExtTreeMap.distinct_keys_toList
  | none =>
    rw [Option.none_or]
    refine Std.ExtTreeMap.getElem?_insertMany_list_of_contains_eq_false ?_
    rw [Std.ExtTreeMap.map_fst_toList_eq_keys]
    simpa [Std.ExtTreeMap.contains_keys] using hown

namespace Node

theorem field?_eq_getElem? (n : Node) (key : String) : n.field? key = n.fields[key]? := rfl

/-- A reference has the parameters that its term names, or none. -/
theorem params_loadedFields (own : Fields) :
    (loadedFields .reference [] own)["params"]? = some ((own["params"]?).getD (.list [])) := by
  have hgiven := getElem?_foldl_insert own ∅ "params"
  rw [Std.ExtTreeMap.getElem?_empty, Option.or_none] at hgiven
  unfold loadedFields
  rw [List.foldl_nil]
  dsimp only
  rw [Std.ExtTreeMap.contains_eq_isSome_getElem?, hgiven]
  cases hown : own["params"]? with
  | some value => simp [hgiven, hown]
  | none => simp

/-! ### Checked fields -/

/-- The loader checks what makes a node well-formed, but for its slots. -/
theorem hasFields_of_checkFields {n : Node} (h : n.checkFields = .ok ()) :
    n.HasFields ∧ (n.kind = .array → ∃ length, n.int? "length" = some length ∧ 0 ≤ length) := by
  unfold checkFields at h
  cases habsent : n.kind.declaredFields.find? fun key => (n.field? key).isNone with
  | some key =>
    rw [habsent] at h
    cases h
  | none =>
    cases hshape : n.kind.declaredFields.find? fun key =>
        (n.field? key).any (!n.kind.takes key ·) with
    | some key =>
      rw [habsent, hshape] at h
      cases h
    | none =>
      rw [habsent, hshape] at h
      rw [List.find?_eq_none] at habsent hshape
      have htakes : ∀ key ∈ n.kind.declaredFields, ∃ value, n.field? key = some value ∧
          n.kind.takes key value = true := by
        intro key hkey
        cases hv : n.field? key with
        | none => simpa [hv] using habsent key hkey
        | some value => exact ⟨value, rfl, by simpa [hv] using hshape key hkey⟩
      refine ⟨⟨htakes, fun hk => ?_⟩, fun hk => ?_⟩
      · obtain ⟨value, hv, hshape⟩ := htakes "op" (by simp [hk, Kind.declaredFields])
        obtain ⟨text, ht⟩ : ∃ text, value.text? = some text := by
          simpa [hk, Kind.takes, Option.isSome_iff_exists] using hshape
        have htext : n.text? "op" = some text := by rw [text?, hv, Option.bind_some, ht]
        cases hop : Operator.ofText? text with
        | some op => exact ⟨text, op, htext, hop⟩
        | none =>
          simp only [hk, htext, if_true, Option.getD_some, hop, Option.isNone_none] at h
          cases h
      · cases hl : n.int? "length" with
        | none => simp [hk, hl] at h
        | some length =>
          by_cases h0 : 0 ≤ length
          · exact ⟨length, rfl, h0⟩
          · simp [hk, hl, h0] at h

/-! ### Declared slots -/

theorem nodup_declaredSlots {n : Node} (h : n.kind = .reference → n.parameters.Nodup) :
    n.declaredSlots.Nodup := by
  unfold declaredSlots
  split <;> try decide
  · exact List.nodup_range.map elementSlot_injective
  · next hk => exact (h hk).map parameterSlot_injective

/-- A node that passes the checks is well-formed with its declared slots. -/
theorem wellFormed_of_checkFields {n : Node} (h : n.checkFields = .ok ()) {slots : Slots}
    (hs : slots.names = n.declaredSlots) : { n with slots }.WellFormed := by
  obtain ⟨⟨ht, ho⟩, hl⟩ := hasFields_of_checkFields h
  exact ⟨⟨ht, ho⟩, hl, hs⟩

end Node

/-! ### References of terms -/

mutual

/-- No reference in a term names a parameter twice. -/
def Term.Distinct : Term → Prop
  | .mk _ tag fields parts =>
    (tag = Kind.reference.tag → ∀ value, fields["params"]? = some value → value.texts.Nodup) ∧
      parts.Distinct

/-- No reference in some terms names a parameter twice. -/
def Terms.Distinct : Terms → Prop
  | .nil => True
  | .cons _ t rest => t.Distinct ∧ rest.Distinct

end

theorem Terms.distinct_iff : (ts : Terms) → (ts.Distinct ↔ ∀ e ∈ ts.toList, e.2.Distinct)
  | .nil => by simp [Terms.Distinct, Terms.toList]
  | .cons slot t rest => by simp [Terms.Distinct, Terms.toList, distinct_iff rest]

/-- A signature that has no further tag for references. -/
def Signature.TagsReferences (S : Signature) : Prop := ∀ a ∈ S.aliases, a.kind ≠ .reference

theorem Signature.tagsReferences_standard : standard.TagsReferences := by
  unfold TagsReferences
  decide

/-- A loaded reference names no parameter twice if its term does not. -/
theorem Signature.TagsReferences.nodup_parameters {S : Signature} (hS : S.TagsReferences)
    {tag : String} {own : Fields} {k : Kind} {implied : List (String × Datum)}
    (ht : tag = Kind.reference.tag → ∀ value, own["params"]? = some value → value.texts.Nodup)
    (hk : S.kindOfTag tag = .ok (k, implied)) (id : NodeId)
    (hr : k = .reference) :
    (Node.parameters { id, kind := k, fields := Node.loadedFields k implied own }).Nodup := by
  subst hr
  unfold kindOfTag at hk
  split at hk
  · next k hk' =>
    obtain ⟨-, -, hk⟩ := bind_eq_ok_iff.1 hk
    cases hk
    rw [Node.parameters, Node.field?_eq_getElem?, Node.params_loadedFields, Option.map_some,
      Option.getD_some]
    cases hown : own["params"]? with
    | some value => exact ht (Kind.tag_of_ofTag? hk').symm value hown
    | none => exact .nil
  · split at hk
    · next a ha =>
      obtain ⟨-, -, hk⟩ := bind_eq_ok_iff.1 hk
      injection hk with hk
      exact absurd (congrArg Prod.fst hk) (hS a (List.mem_of_find?_eq_some ha))
    · cases hk

/-- A term of the tag of references whose declared slots have different names names no parameter
twice. -/
theorem Signature.nodup_texts_of_kindOfTag {S : Signature} {own : Fields} {k : Kind}
    {implied : List (String × Datum)} (hk : S.kindOfTag Kind.reference.tag = .ok (k, implied))
    {id : NodeId}
    (h : (Node.declaredSlots
      { id, kind := k, fields := Node.loadedFields k implied own }).Nodup)
    {value : Datum} (hown : own["params"]? = some value) : value.texts.Nodup := by
  rw [kindOfTag, Kind.ofTag?_tag] at hk
  obtain ⟨-, -, hk⟩ := bind_eq_ok_iff.1 hk
  cases hk
  rw [Node.declaredSlots, Node.parameters, Node.field?_eq_getElem?, Node.params_loadedFields, hown]
    at h
  exact List.Nodup.of_map _ h

end TermForest
