import TermForest.Proofs.Level.Hung

/-!
# Valid terms

A term is valid when its tag names a kind that the signature admits, its fields and the slots that it
fills are those of that kind, and the terms in its slots are valid. A level loads exactly if all its
terms are valid and its definitions are definitions, whichever ids are handed out.
-/

namespace TermForest

open Supply (Meets)

/-! ### Tags -/

/-- A tag names an admitted kind, with the fields that it implies. A tag that is the tag of a kind
names that kind and implies nothing; of the aliases of any other tag the first counts. -/
inductive Signature.Names (S : Signature) : String → Kind → List (String × Datum) → Prop
  | kind {k : Kind} (admitted : k ∈ S.kinds) : Names S k.tag k []
  | alias {a : Alias} {before after : List Alias} (other : ∀ k : Kind, k.tag ≠ a.tag)
      (split : S.aliases = before ++ a :: after) (first : ∀ b ∈ before, b.tag ≠ a.tag)
      (admitted : a.kind ∈ S.kinds) : Names S a.tag a.kind a.implied

theorem Kind.ofTag?_eq_none_iff {tag : String} : ofTag? tag = none ↔ ∀ k : Kind, k.tag ≠ tag := by
  rw [ofTag?, List.find?_eq_none]
  constructor
  · intro h k hk
    exact h k k.mem_all (by simpa using hk)
  · intro h k _
    simpa using h k

namespace Signature

variable {S : Signature} {tag : String} {k : Kind} {implied : List (String × Datum)}

theorem requireKind_eq_ok_iff : S.requireKind k = .ok () ↔ k ∈ S.kinds := by
  unfold requireKind
  split <;> simp [*]

/-- The loader finds what a tag names. -/
theorem kindOfTag_eq_ok_iff : S.kindOfTag tag = .ok (k, implied) ↔ S.Names tag k implied := by
  constructor
  · intro h
    unfold kindOfTag at h
    split at h
    · next k' hk' =>
      obtain ⟨⟨⟩, hadmitted, h⟩ := bind_eq_ok_iff.1 h
      cases h
      exact Kind.tag_of_ofTag? hk' ▸ .kind (requireKind_eq_ok_iff.1 hadmitted)
    · next hother =>
      split at h
      · next a ha =>
        obtain ⟨⟨⟩, hadmitted, h⟩ := bind_eq_ok_iff.1 h
        cases h
        obtain ⟨htag, before, after, hsplit, hfirst⟩ := List.find?_eq_some_iff_append.1 ha
        obtain rfl : a.tag = tag := by simpa using htag
        exact .alias (Kind.ofTag?_eq_none_iff.1 hother) hsplit
          (fun b hb => by simpa using hfirst b hb) (requireKind_eq_ok_iff.1 hadmitted)
      · cases h
  · rintro (⟨hadmitted⟩ | ⟨hother, hsplit, hfirst, hadmitted⟩)
    · rw [kindOfTag, Kind.ofTag?_tag]
      dsimp only
      rw [requireKind_eq_ok_iff.2 hadmitted]
      rfl
    · next a before after =>
      have hfind : S.aliases.find? (·.tag = a.tag) = some a :=
        List.find?_eq_some_iff_append.2 ⟨by simp, before, after, hsplit,
          fun b hb => by simpa using hfirst b hb⟩
      rw [kindOfTag, Kind.ofTag?_eq_none_iff.2 hother]
      dsimp only
      rw [hfind]
      dsimp only
      rw [requireKind_eq_ok_iff.2 hadmitted]
      rfl

end Signature

/-! ### Fields -/

/-- What a declared field may hold. -/
inductive FieldSort where
  | int
  | bool
  | text
  | texts

/-- A value is of a sort. -/
inductive FieldSort.Admits : FieldSort → Datum → Prop
  | int (n : Int64) : Admits .int (.int n)
  | bool (b : Bool) : Admits .bool (.bool b)
  | text (s : String) : Admits .text (.text s)
  | texts (ss : List String) : Admits .texts (.list (ss.map .text))

/-- The fields that every node of a kind has, with what they hold. -/
def Kind.fieldSorts : Kind → List (String × FieldSort)
  | .number => [("value", .int)]
  | .boolean => [("value", .bool)]
  | .string => [("value", .text)]
  | .symbol | .binder | .var | .define => [("name", .text)]
  | .array => [("length", .int)]
  | .binop => [("op", .text)]
  | .reference => [("name", .text), ("params", .texts)]
  | .void | .hole | .lambda | .apply | .conditional | .not | .member => []

theorem Kind.declaredFields_eq (k : Kind) : k.declaredFields = k.fieldSorts.map Prod.fst := by
  cases k <;> rfl

theorem FieldSort.admits_int_iff {d : Datum} : int.Admits d ↔ d.int?.isSome := by
  constructor
  · rintro ⟨n⟩
    rfl
  · cases d with
    | int n => exact fun _ => .int n
    | _ => nofun

theorem FieldSort.admits_bool_iff {d : Datum} : bool.Admits d ↔ d.bool?.isSome := by
  constructor
  · rintro ⟨b⟩
    rfl
  · cases d with
    | bool b => exact fun _ => .bool b
    | _ => nofun

theorem FieldSort.admits_text_iff {d : Datum} : text.Admits d ↔ d.text?.isSome := by
  constructor
  · rintro ⟨s⟩
    rfl
  · cases d with
    | text s => exact fun _ => .text s
    | _ => nofun

theorem FieldSort.admits_texts_iff {d : Datum} :
    texts.Admits d ↔ d.list?.any fun items => items.all fun d => d.text?.isSome := by
  constructor
  · rintro ⟨ss⟩
    simp [Datum.list?, Datum.text?]
  · cases d with
    | list items =>
      intro h
      have hitems : items = (items.filterMap Datum.text?).map .text := by
        rw [Datum.list?, Option.any_some, List.all_eq_true] at h
        induction items with
        | nil => rfl
        | cons d items ih =>
          rw [List.forall_mem_cons] at h
          cases admits_text_iff.2 h.1 with
          | text s => rw [List.filterMap_cons_some (f := Datum.text?) rfl, List.map_cons, ← ih h.2]
      exact hitems ▸ .texts _
    | bool | int | text => simp [Datum.list?]

/-- The loader checks that a declared field is of its sort. -/
theorem Kind.takes_iff {k : Kind} {key : String} {sort : FieldSort} (h : (key, sort) ∈ k.fieldSorts)
    (d : Datum) : k.takes key d = true ↔ sort.Admits d := by
  have hall : ∀ e ∈ k.fieldSorts, k.takes e.1 d = true ↔ e.2.Admits d := by
    cases k <;> simp [fieldSorts, takes, FieldSort.admits_int_iff, FieldSort.admits_bool_iff,
      FieldSort.admits_text_iff, FieldSort.admits_texts_iff]
  exact hall _ h

/-- The fields `value?` of a node of a kind are those that the kind declares: each is there and of its
sort, an operator is one of the eight, and a length counts elements. -/
structure Kind.Declares (k : Kind) (value? : String → Option Datum) : Prop where
  fields : ∀ key sort, (key, sort) ∈ k.fieldSorts → ∃ d, value? key = some d ∧ sort.Admits d
  operator : k = .binop → ∃ op : Operator, value? "op" = some (.text op.text)
  length : k = .array → ∃ n, value? "length" = some (.int n) ∧ 0 ≤ n

/-- The loader checks the declared fields of a node. -/
theorem Node.checkFields_eq_ok_iff {n : Node} :
    n.checkFields = .ok () ↔ n.kind.Declares n.field? := by
  constructor
  · intro h
    obtain ⟨⟨htakes, hoperator⟩, hlength⟩ := hasFields_of_checkFields h
    refine ⟨fun key sort hkey => ?_, fun hk => ?_, fun hk => ?_⟩
    · obtain ⟨d, hd, ht⟩ := htakes key (by
        rw [Kind.declaredFields_eq]
        exact List.mem_map_of_mem hkey)
      exact ⟨d, hd, (Kind.takes_iff hkey d).1 ht⟩
    · obtain ⟨text, op, htext, hop⟩ := hoperator hk
      obtain ⟨d, hd, ht⟩ := Option.bind_eq_some_iff.1 htext
      obtain ⟨s⟩ := FieldSort.admits_text_iff.2 (Option.isSome_of_eq_some ht)
      cases ht
      exact ⟨op, Operator.ofText?_eq_some_iff.1 hop ▸ hd⟩
    · obtain ⟨length, hl, h0⟩ := hlength hk
      obtain ⟨d, hd, hint⟩ := Option.bind_eq_some_iff.1 hl
      obtain ⟨n⟩ := FieldSort.admits_int_iff.2 (Option.isSome_of_eq_some hint)
      cases hint
      exact ⟨length, hd, h0⟩
  · rintro ⟨hfields, hoperator, hlength⟩
    have hfield : ∀ key ∈ n.kind.declaredFields, ∃ d, n.field? key = some d ∧
        n.kind.takes key d = true := by
      intro key hkey
      rw [Kind.declaredFields_eq] at hkey
      obtain ⟨⟨key, sort⟩, hmem, rfl⟩ := List.mem_map.1 hkey
      obtain ⟨d, hd, hsort⟩ := hfields key sort hmem
      exact ⟨d, hd, (Kind.takes_iff hmem d).2 hsort⟩
    have habsent : n.kind.declaredFields.find? (fun key => (n.field? key).isNone) = none := by
      rw [List.find?_eq_none]
      intro key hkey
      obtain ⟨d, hd, -⟩ := hfield key hkey
      simp [hd]
    have hshape : n.kind.declaredFields.find? (fun key =>
        (n.field? key).any (!n.kind.takes key ·)) = none := by
      rw [List.find?_eq_none]
      intro key hkey
      obtain ⟨d, hd, ht⟩ := hfield key hkey
      simp [hd, ht]
    have hop : n.kind = .binop →
        (Operator.ofText? ((n.text? "op").getD "")).isNone = false := by
      intro hk
      obtain ⟨op, hop⟩ := hoperator hk
      rw [text?, hop, Option.bind_some, Datum.text?, Option.getD_some,
        Operator.ofText?_eq_some_iff.2 rfl, Option.isNone_some]
    have hcount : n.kind = .array → (n.int? "length").any (0 ≤ ·) = true := by
      intro hk
      obtain ⟨length, hl, h0⟩ := hlength hk
      simp [int?, hl, Datum.int?, h0]
    unfold checkFields
    rw [habsent, hshape]
    by_cases hk : n.kind = .binop
    · simp [hk, hop hk]
    · by_cases hk' : n.kind = .array
      · simp [hk', hcount hk']
      · simp [hk, hk']

/-! ### Terms -/

/-- The slots of a term whose tag stands for a kind and implies some fields. -/
def Term.slotNames (k : Kind) (implied : List (String × Datum)) (own : Fields) : List String :=
  (seed 0 k implied own).declaredSlots

/-- A term is valid: its tag names an admitted kind, its fields are those that the kind declares, it
fills no slots but those that follow from its fields, and the terms there are valid. -/
inductive Term.Valid (S : Signature) : Term → Prop
  | mk {id? : Option NodeId} {tag : String} {own : Fields} {parts : Terms} {k : Kind}
      {implied : List (String × Datum)} (names : S.Names tag k implied)
      (declares : k.Declares (value? k implied own))
      (known : ∀ slot ∈ parts.names, slot ∈ slotNames k implied own)
      (parts_valid : ∀ slot t, parts.get? slot = some t → t.Valid S) :
      Valid S (.mk id? tag own parts)

/-- A level is valid: so are its terms, and its definitions stand for `define` nodes. -/
structure Level.Valid (S : Signature) (l : Level) : Prop where
  terms : ∀ t ∈ l.terms, t.Valid S
  defs : ∀ t ∈ l.defs, ∃ implied, S.Names t.tag .define implied

namespace Terms

theorem get?_eq_none_iff {slot : String} : {ts : Terms} → (ts.get? slot = none ↔ slot ∉ ts.names)
  | .nil => by simp [get?, names]
  | .cons name t rest => by
    rw [get?, Option.or_eq_none_iff, get?_eq_none_iff, names, List.mem_cons, not_or, and_comm]
    simp [eq_comm]

end Terms

end TermForest
