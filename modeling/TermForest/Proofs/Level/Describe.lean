import Mathlib.Data.List.Induction
import TermForest.Level.Load
import TermForest.Proofs.Forest.Joined
import TermForest.Proofs.Level.Fields

/-!
# What terms describe

A term of a level file describes a tree up to the ids: the kind that its tag stands for, the fields
that it sets or the tag implies, and in each declared slot what the term there describes, or a hole.
-/

namespace TermForest

/-! ### Terms in slots -/

namespace Terms

/-- The term in a slot. Of several terms in one slot the last counts. -/
def get? (slot : String) : Terms → Option Term
  | .nil => none
  | .cons name t rest => (rest.get? slot).or (if name = slot then some t else none)

theorem mem_toList_of_get? {slot : String} {t : Term} :
    {ts : Terms} → ts.get? slot = some t → (slot, t) ∈ ts.toList
  | .nil, h => nomatch h
  | .cons name t' rest, h => by
    rw [get?, Option.or_eq_some_iff] at h
    rcases h with h | ⟨-, h⟩
    · exact List.mem_cons_of_mem _ (mem_toList_of_get? h)
    · split at h
      · next hname =>
        cases h
        exact hname ▸ List.mem_cons_self
      · cases h

theorem names_eq_map : (ts : Terms) → ts.names = ts.toList.map Prod.fst
  | .nil => rfl
  | .cons slot t rest => by rw [names, toList, List.map_cons, names_eq_map rest]

theorem mem_names_of_get? {ts : Terms} {slot : String} {t : Term} (h : ts.get? slot = some t) :
    slot ∈ ts.names :=
  ts.names_eq_map ▸ List.mem_map_of_mem (mem_toList_of_get? h)

/-- What the loader runs for a slot is what loads the term there. -/
theorem getElem?_loaders (S : Signature) (slot : String) : (ts : Terms) →
    (Std.ExtTreeMap.ofList (ts.loaders S))[slot]? = (ts.get? slot).map (Term.load S)
  | .nil => by simp [loaders, get?]
  | .cons name t rest => by
    have hrest := getElem?_loaders S slot rest
    rw [Std.ExtTreeMap.ofList_eq_insertMany_empty, Std.ExtTreeMap.getElem?_insertMany_list,
      Std.ExtTreeMap.getElem?_empty, Option.or_none, List.findSomeRev?_eq_findSome?_reverse]
      at hrest ⊢
    rw [loaders, List.reverse_cons, List.findSome?_append, hrest, get?]
    by_cases hname : name = slot
    · subst hname
      cases rest.get? name <;> simp
    · cases rest.get? slot <;> simp [hname]

/-- What fills a slot of a term: the term there, or a hole. -/
theorem getD_loaders (S : Signature) (ts : Terms) (slot : String) :
    (∃ t, ts.get? slot = some t ∧
      (Std.ExtTreeMap.ofList (ts.loaders S)).getD slot loadHole = t.load S) ∨
    (ts.get? slot = none ∧
      (Std.ExtTreeMap.ofList (ts.loaders S)).getD slot loadHole = loadHole) := by
  rw [Std.ExtTreeMap.getD_eq_getD_getElem?, getElem?_loaders]
  cases ts.get? slot with
  | some t => exact .inl ⟨t, rfl, rfl⟩
  | none => exact .inr ⟨rfl, rfl⟩

end Terms

/-- What holds of a term when it holds of the terms in its slots holds of every term. -/
theorem Term.induct {P : Term → Prop}
    (step : ∀ id tag fields parts, (∀ slot t, parts.get? slot = some t → P t) →
      P (.mk id tag fields parts))
    (t : Term) : P t :=
  @Term.rec P (fun parts => ∀ e ∈ parts.toList, P e.2)
    (fun id tag fields parts ih => step id tag fields parts fun _ _ h =>
      ih _ (Terms.mem_toList_of_get? h)) nofun
    (fun _ _ _ ht hrest => List.forall_mem_cons.2 ⟨ht, hrest⟩) t

/-! ### Fields -/

/-- The value of a field of a node for a term: what the term sets, or else what its tag implies; and
a reference has no parameters unless it names some. -/
def Term.value? (k : Kind) (implied : List (String × Datum)) (own : Fields) (key : String) :
    Option Datum :=
  own[key]?.or ((implied.reverse.lookup key).or
    (if k = .reference ∧ key = "params" then some (.list []) else none))

theorem getElem?_foldl_insert_list (implied : List (String × Datum)) (key : String) :
    (implied.foldl (fun fields e => fields.insert e.1 e.2) (∅ : Fields))[key]? =
      implied.reverse.lookup key := by
  induction implied using List.reverseRecOn with
  | nil => simp
  | append_singleton implied e ih =>
    rw [List.foldl_append, List.foldl_cons, List.foldl_nil, Std.ExtTreeMap.getElem?_insert, ih,
      List.reverse_append, List.reverse_singleton, List.singleton_append, List.lookup_cons]
    by_cases hkey : key = e.1
    · simp [hkey]
    · simp [beq_false_of_ne hkey, Ne.symm hkey]

theorem Node.getElem?_loadedFields (k : Kind) (implied : List (String × Datum)) (own : Fields)
    (key : String) : (loadedFields k implied own)[key]? = Term.value? k implied own key := by
  have hgiven := fun key => getElem?_foldl_insert own
    (implied.foldl (fun fields e => fields.insert e.1 e.2) ∅) key
  simp only [getElem?_foldl_insert_list] at hgiven
  unfold loadedFields Term.value?
  dsimp only
  split
  · next h =>
    obtain ⟨rfl, habsent⟩ := h
    rw [Std.ExtTreeMap.contains_eq_isSome_getElem?, hgiven, Bool.not_eq_true',
      Option.isSome_eq_false_iff, Option.isNone_iff_eq_none] at habsent
    by_cases hkey : key = "params"
    · subst hkey
      rw [Std.ExtTreeMap.getElem?_insert_self, ← Option.or_assoc, habsent, Option.none_or,
        if_pos ⟨rfl, rfl⟩]
    · rw [Std.ExtTreeMap.getElem?_insert,
        if_neg fun h => hkey (Std.LawfulEqCmp.eq_of_compare h).symm, hgiven,
        if_neg fun h => hkey h.2, Option.or_none]
  · next h =>
    rw [hgiven]
    by_cases hk : k = .reference ∧ key = "params"
    · obtain ⟨rfl, rfl⟩ := hk
      have hthere := not_and.1 h rfl
      rw [Bool.not_eq_true, Bool.not_eq_false', Std.ExtTreeMap.contains_eq_isSome_getElem?,
        hgiven] at hthere
      obtain ⟨value, hvalue⟩ := Option.isSome_iff_exists.1 hthere
      rw [← Option.or_assoc, hvalue, Option.some_or]
    · rw [if_neg hk, Option.or_none]

/-! ### Shapes -/

/-- An empty place. -/
def Shape.hole : Shape := .mk .hole ∅ [] []

/-- The slots of a node of a kind with some fields, in their order. A parameter that is named twice
has one slot. -/
def Shape.slots (k : Kind) (fields : Fields) : List String :=
  (Node.declaredSlots { id := 0, kind := k, fields }).eraseDups

theorem eraseDups_of_nodup {names : List String} (h : names.Nodup) : names.eraseDups = names := by
  induction names with
  | nil => rfl
  | cons name names ih =>
    rw [List.nodup_cons] at h
    have hfilter : names.filter (fun other => !other == name) = names :=
      List.filter_eq_self.2 fun other hother => by
        rw [Bool.not_eq_true', beq_eq_false_iff_ne]
        rintro rfl
        exact h.1 hother
    rw [List.eraseDups_cons, hfilter, ih h.2]

theorem Node.slots_eq_declaredSlots {n : Node} (h : n.declaredSlots.Nodup) :
    Shape.slots n.kind n.fields = n.declaredSlots :=
  eraseDups_of_nodup h

/-- A term describes a shape: the root has the kind that the tag stands for and the fields of the
term, merged with those that the tag implies; all terms in slots are in declared ones; and in each
declared slot, in order, stands what the term there describes, or a hole. -/
inductive Term.Describes (S : Signature) : Term → Shape → Prop
  | mk {id? : Option NodeId} {tag : String} {own : Fields} {parts : Terms} {k : Kind}
      {implied : List (String × Datum)} {fields : Fields} {shapes : List Shape}
      (kind : S.kindOfTag tag = .ok (k, implied))
      (fields_eq : ∀ key : String, fields[key]? = value? k implied own key)
      (known : ∀ slot ∈ parts.names, slot ∈ Shape.slots k fields)
      (length : (Shape.slots k fields).length = shapes.length)
      (filled : ∀ slot shape t, (slot, shape) ∈ (Shape.slots k fields).zip shapes →
        parts.get? slot = some t → t.Describes S shape)
      (empty : ∀ slot shape, (slot, shape) ∈ (Shape.slots k fields).zip shapes →
        parts.get? slot = none → shape = .hole) :
      Describes S (.mk id? tag own parts) (.mk k fields (Shape.slots k fields) shapes)

/-- A shape that may stand in a slot: what the term there describes, or a hole. -/
def Terms.Fills (S : Signature) (parts : Terms) (slot : String) (shape : Shape) : Prop :=
  (∀ t, parts.get? slot = some t → t.Describes S shape) ∧ (parts.get? slot = none → shape = .hole)

theorem Term.Describes.exists_implied {S : Signature} {t : Term} {u : Plant}
    (h : t.Describes S u.shape) : ∃ implied, S.kindOfTag t.tag = .ok (u.root.kind, implied) := by
  obtain ⟨root, parts⟩ := u
  rw [Plant.shape_mk] at h
  generalize root.slots.names = names at h
  cases h with
  | mk kind => exact ⟨_, kind⟩

theorem getElem_mem_zip {α β : Type} {as : List α} {bs : List β} {i : Nat} (ha : i < as.length)
    (hb : i < bs.length) : (as[i], bs[i]) ∈ as.zip bs :=
  List.mem_iff_getElem.2 ⟨i, by rw [List.length_zip]; omega, List.getElem_zip⟩

/-- A term describes one shape only. -/
theorem Term.Describes.unique {S : Signature} {t : Term} {a b : Shape} (ha : t.Describes S a)
    (hb : t.Describes S b) : a = b := by
  induction ha generalizing b with
  | @mk id? tag own parts k implied fields shapes hk hf _ hlen _ hempty ih =>
    cases hb with
    | @mk _ _ _ _ k' implied' fields' shapes' hk' hf' _ hlen' hfilled' hempty' =>
    cases hk.symm.trans hk'
    obtain rfl : fields = fields' :=
      Std.ExtTreeMap.ext_getElem? fun key => (hf key).trans (hf' key).symm
    congr 1
    refine List.ext_getElem (hlen.symm.trans hlen') fun i hi hi' => ?_
    have hslot : i < (Shape.slots k fields).length := hlen ▸ hi
    have hmem := getElem_mem_zip hslot hi
    have hmem' := getElem_mem_zip hslot hi'
    cases hpart : parts.get? (Shape.slots k fields)[i] with
    | some t => exact ih _ _ t hmem hpart (hfilled' _ _ t hmem' hpart)
    | none => exact (hempty _ _ hmem hpart).trans (hempty' _ _ hmem' hpart).symm

/-! ### Parameters -/

/-- No reference in a term names a parameter twice. Of several terms in one slot only the last
counts. -/
inductive Term.NamesOnce : Term → Prop
  | mk {id? : Option NodeId} {tag : String} {own : Fields} {parts : Terms}
      (parameters : tag = Kind.reference.tag → ∀ value, own["params"]? = some value →
        value.texts.Nodup)
      (parts_once : ∀ slot t, parts.get? slot = some t → t.NamesOnce) :
      NamesOnce (.mk id? tag own parts)

theorem Term.Distinct.namesOnce {t : Term} (h : t.Distinct) : t.NamesOnce := by
  induction t using Term.induct with
  | step id? tag own parts ih =>
    rw [Distinct] at h
    exact .mk h.1 fun slot t ht =>
      ih slot t ht (parts.distinct_iff.1 h.2 _ (Terms.mem_toList_of_get? ht))

end TermForest
