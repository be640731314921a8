import TermForest.Proofs.Evaluation.Redex
import TermForest.Proofs.Rule.Reduce
import TermForest.Proofs.Rule.Refusal

/-!
# Rules and evaluation

A redex without names and functions is refused or reduced as evaluation has it: the check and the rule
of its kind together come to the reduct of its shape, or refuse one of its nodes for the reason for
which there is none.
-/

namespace TermForest

open Supply (Meets)

/-- A failure that refuses one of some nodes, for the reason for which there is no value. -/
def Failure.Refuses {α : Type} (ids : List NodeId) (x : Except Stuck α) (e : Failure) : Prop :=
  ∃ why, x = .error why ∧ ∃ id ∈ ids, e = .rejected (why.rejection id)

theorem Failure.Refuses.bind {α β : Type} {ids : List NodeId} {x : Except Stuck α} {e : Failure}
    (h : e.Refuses ids x) (f : α → Except Stuck β) : e.Refuses ids (x >>= f) := by
  obtain ⟨why, rfl, hid⟩ := h
  exact ⟨why, rfl, hid⟩

theorem Failure.Refuses.mono {α : Type} {ids ids' : List NodeId} {x : Except Stuck α} {e : Failure}
    (h : e.Refuses ids x) (hids : ids ⊆ ids') : e.Refuses ids' x := by
  obtain ⟨why, hx, id, hid, he⟩ := h
  exact ⟨why, hx, id, hids hid, he⟩

/-- The outcome of a rule is a plant of a shape. -/
def Outcome.Leaves (o : Outcome) (v : Shape) : Prop :=
  ∃ (G : Forest) (u : Plant), o = .replaced ⟨G, u.id⟩ ∧ G.Holds u ∧ u.Calculates ∧ u.shape = v

/-! ### Values -/

namespace Kind

/-- The kinds of values that have to do with neither names nor functions. -/
def values : List Kind := [.number, .boolean, .string, .symbol, .array]

/-- The type of such a value. -/
def valueType : Kind → CoarseType
  | .number => .number
  | .boolean => .boolean
  | .string => .string
  | .symbol => .symbol
  | .array => .array
  | _ => .expression

theorem mem_values {k : Kind} (hk : k.calculates = true) (hv : k.category = .value) :
    k ∈ values := by
  revert hk hv
  cases k <;> decide

theorem valueType_eq_iff : ∀ k ∈ values, ∀ k' ∈ values, k.valueType = k'.valueType ↔ k = k' := by
  decide

theorem valueType_mem_iff : ∀ k ∈ values,
    k.valueType ∈ [CoarseType.number, .boolean, .string, .symbol] ↔
      k ∈ [number, boolean, string, symbol] := by
  decide

theorem valueType_mem_pair_iff : ∀ k ∈ values,
    k.valueType ∈ [CoarseType.number, .string] ↔ k ∈ [number, string] := by
  decide

theorem name_valueType : ∀ k ∈ values, k.valueType.name = k.tag := by decide

theorem valueType_ne_hole : ∀ k ∈ values, k.valueType ≠ .hole := by decide

end Kind

theorem Node.coarseType_eq_valueType {n : Node} (h : n.kind ∈ Kind.values)
    (peek : NodeId → Option Node) : n.coarseType peek = n.kind.valueType := by
  simp only [Kind.values, List.mem_cons, List.not_mem_nil, or_false] at h
  rcases h with h | h | h | h | h <;> rw [coarseType, h] <;> rfl

/-- There is no element where the index is out of bounds. -/
theorem Shape.lookup_eq_none_iff (vs : List Shape) (i : Int64) {length : Int64}
    (h : length.toInt = vs.length) :
    (if 0 ≤ i then vs[i.toInt.toNat]? else none) = none ↔ i < 0 ∨ length ≤ i := by
  have h0 : (0 : Int64).toInt = 0 := rfl
  have hnonneg : 0 ≤ i ↔ 0 ≤ i.toInt := by rw [Int64.le_iff_toInt_le, h0]
  have hout : i < 0 ∨ length ≤ i ↔ i.toInt < 0 ∨ (vs.length : Int) ≤ i.toInt := by
    rw [Int64.lt_iff_toInt_lt, Int64.le_iff_toInt_le, h, h0]
  rw [hout]
  split
  · next hi =>
    rw [hnonneg] at hi
    rw [List.getElem?_eq_none_iff]
    lia
  · next hi => exact iff_of_true rfl (.inl (Int.not_le.1 (mt hnonneg.2 hi)))

namespace Plant

theorem int?_shape (t : Plant) :
    t.shape.int? = if t.root.kind = .number then t.root.int? "value" else none := by
  obtain ⟨⟨_, k, _, _, _, _, _⟩, parts⟩ := t
  cases k <;> rfl

theorem bool?_shape (t : Plant) :
    t.shape.bool? = if t.root.kind = .boolean then t.root.bool? "value" else none := by
  obtain ⟨⟨_, k, _, _, _, _, _⟩, parts⟩ := t
  cases k <;> rfl

theorem text?_shape (t : Plant) :
    t.shape.text? = if t.root.kind = .string then t.root.text? "value" else none := by
  obtain ⟨⟨_, k, _, _, _, _, _⟩, parts⟩ := t
  cases k <;> rfl

theorem elements?_shape (t : Plant) :
    t.shape.elements? = if t.root.kind = .array then some (t.parts.map shape) else none := by
  obtain ⟨⟨_, k, _, _, _, _, _⟩, parts⟩ := t
  rw [shape_mk]
  cases k <;> rfl

/-- A value that a forest holds. -/
structure ValueIn (F : Forest) (p : Plant) : Prop where
  held : F.Holds p
  nodup : p.ids.Nodup
  calculates : p.Calculates
  value : p.shape.IsValue

namespace ValueIn

variable {S : Signature} {F : Forest} {p q : Plant}

theorem kind_mem (h : ValueIn F p) : p.root.kind ∈ Kind.values :=
  Kind.mem_values h.calculates.kind (isValue_shape_iff.1 h.value).1

theorem requireOneOf_eq (h : ValueIn F p) (hS : S.Full) (permitted : List CoarseType)
    (expected : String) : S.requireOneOf F p.id permitted expected =
      if p.root.kind.valueType ∈ permitted then .ok ()
      else refuse (.wrongType p.id expected p.root.kind.tag) := by
  rw [Signature.requireOneOf, liftM_eq_ok_iff.2 (hS.coarseType_eq h.held.get?_id), ok_bind,
    Node.coarseType_eq_valueType h.kind_mem, if_neg (Kind.valueType_ne_hole _ h.kind_mem),
    Kind.name_valueType _ h.kind_mem]
  rfl

theorem requireType_eq (h : ValueIn F p) (hS : S.Full) {k : Kind} (hk : k ∈ Kind.values) :
    S.requireType F p.id k.valueType = if p.root.kind = k then .ok ()
      else refuse (.wrongType p.id k.tag p.root.kind.tag) := by
  rw [Signature.requireType, h.requireOneOf_eq hS, Kind.name_valueType k hk]
  simp only [List.mem_singleton, Kind.valueType_eq_iff _ h.kind_mem k hk]

/-- A value passes for a type when what is expected is read off it. -/
theorem ends_expect {α : Type} (h : ValueIn F p) (hS : S.Full) {k : Kind} (hk : k ∈ Kind.values)
    {o : Option α} {Q : α → Prop} (hsome : p.root.kind = k → ∃ a, o = some a ∧ Q a)
    (hnone : p.root.kind ≠ k → o = none) :
    Ends (S.requireType F p.id k.valueType)
      (fun _ => ∃ a, p.shape.expect k.tag o = .ok a ∧ Q a)
      (Failure.Refuses [p.id] (p.shape.expect k.tag o)) := by
  rw [h.requireType_eq hS hk]
  split
  · next hkp =>
    obtain ⟨a, rfl, ha⟩ := hsome hkp
    exact ⟨a, rfl, ha⟩
  · next hkp =>
    rw [hnone hkp]
    exact ⟨_, rfl, p.id, List.mem_singleton_self _, by rw [kind_shape]; rfl⟩

theorem ends_int (h : ValueIn F p) (hS : S.Full) : Ends (S.requireType F p.id .number)
    (fun _ => ∃ i, p.shape.expect "number" p.shape.int? = .ok i ∧ p.root.needInt "value" = .ok i)
    (Failure.Refuses [p.id] (p.shape.expect "number" p.shape.int?)) := by
  refine h.ends_expect hS (k := .number) (by decide) (fun hk => ?_) fun hk => ?_
  · rw [int?_shape, if_pos hk]
    exact h.calculates.formed.root.exists_number hk
  · rw [int?_shape, if_neg hk]

theorem ends_bool (h : ValueIn F p) (hS : S.Full) : Ends (S.requireType F p.id .boolean)
    (fun _ => ∃ b, p.shape.expect "boolean" p.shape.bool? = .ok b ∧
      p.root.needBool "value" = .ok b)
    (Failure.Refuses [p.id] (p.shape.expect "boolean" p.shape.bool?)) := by
  refine h.ends_expect hS (k := .boolean) (by decide) (fun hk => ?_) fun hk => ?_
  · rw [bool?_shape, if_pos hk]
    exact h.calculates.formed.root.exists_boolean hk
  · rw [bool?_shape, if_neg hk]

theorem ends_text (h : ValueIn F p) (hS : S.Full) : Ends (S.requireType F p.id .string)
    (fun _ => ∃ text, p.shape.expect "string" p.shape.text? = .ok text ∧
      p.root.needText "value" = .ok text)
    (Failure.Refuses [p.id] (p.shape.expect "string" p.shape.text?)) := by
  refine h.ends_expect hS (k := .string) (by decide) (fun hk => ?_) fun hk => ?_
  · rw [text?_shape, if_pos hk]
    exact h.calculates.formed.root.exists_string hk
  · rw [text?_shape, if_neg hk]

theorem ends_elements (h : ValueIn F p) (hS : S.Full) : Ends (S.requireType F p.id .array)
    (fun _ => ∃ elements, p.shape.expect "array" p.shape.elements? = .ok elements ∧
      elements = p.parts.map shape ∧ p.root.kind = .array)
    (Failure.Refuses [p.id] (p.shape.expect "array" p.shape.elements?)) := by
  refine h.ends_expect hS (k := .array) (by decide) (fun hk => ?_) fun hk => ?_
  · exact ⟨_, by rw [elements?_shape, if_pos hk], rfl, hk⟩
  · rw [elements?_shape, if_neg hk]

/-- A literal has no parts. -/
theorem parts_eq_nil (h : ValueIn F p) (hk : p.root.kind ≠ .array) : p.parts = [] := by
  have hlen := h.calculates.length_parts h.held.children hk
  have hmem := h.kind_mem
  simp only [Kind.values, List.mem_cons, List.not_mem_nil, or_false] at hmem
  rw [← List.length_eq_zero_iff, hlen]
  rcases hmem with h | h | h | h | h <;> simp_all [Node.declaredSlots]

/-- Literals of one kind have the same shape when they have the same fields. -/
theorem sameShape_eq (hp : ValueIn F p) (hq : ValueIn F q) (hk : p.root.kind ≠ .array)
    (hkind : q.root.kind = p.root.kind) :
    sameShape F p.id F q.id = .ok (decide (p.shape.fields = q.shape.fields)) := by
  have hleft := hp.held.tree_shows hp.nodup
  have hright := hq.held.tree_shows hq.nodup
  have hnil := hp.parts_eq_nil hk
  have hnil' := hq.parts_eq_nil (hkind ▸ hk)
  rw [sameShape]
  generalize F.tree p.id = T at hleft ⊢
  generalize F.tree q.id = U at hright ⊢
  cases hleft with
  | @node m below parts children shown =>
    cases hright with
    | @node n below' parts' children' shown' =>
      obtain rfl : parts = [] := hnil
      obtain rfl : parts' = [] := hnil'
      have hm : m.slots.entries = [] := List.map_eq_nil_iff.1 children
      have hn : n.slots.entries = [] := List.map_eq_nil_iff.1 children'
      rw [Tree.sameShape, Plant.fields_shape, Plant.fields_shape, Slots.size, Slots.size, hm, hn]
      by_cases hf : m.fields = n.fields
      · rw [if_neg (by simp [hf, show n.kind = m.kind from hkind])]
        exact congrArg _ (decide_eq_true hf).symm
      · rw [if_pos (.inr (.inl hf))]
        exact congrArg _ (decide_eq_false hf).symm

end ValueIn

end Plant

namespace State

variable {s : State} {lo : Nat}

/-- A new literal in the place of the reduced node. -/
theorem meets_literal {ε : Type} {E : ε → Prop} {v : Shape} {k : Kind} {value : Datum}
    (hd : k.declaredFields = ["value"]) (ht : k.takes "value" value = true) (hb : k ≠ .binop)
    (ha : k ≠ .array) (hk : k.calculates = true)
    (hs : ∀ id, (Node.withField { id, kind := k } "value" value).declaredSlots = [])
    (hv : ∀ id, (Plant.mk (Node.withField { id, kind := k } "value" value) []).shape = v) :
    (do let id ← Supply.take; return s.replaceBy (Node.withField { id, kind := k } "value" value) :
      Supply ε Outcome).Meets lo (fun o _ => o.Leaves v) E := by
  refine .take_bind (.pure ⟨_, .mk (Node.withField { id := lo, kind := k } "value" value) [], rfl,
    .mk (by rw [Forest.get?_insert, if_pos rfl]) rfl nofun, Plant.calculates_mk_iff.2 ⟨?_, nofun⟩,
    hv lo⟩)
  exact ⟨Node.formed_withField hd ht hb ha (hs lo), hk, rfl⟩

theorem meets_ofBool {ε : Type} {E : ε → Prop} (b : Bool) :
    (do let id ← Supply.take; return s.replaceBy (.ofBool id b) : Supply ε Outcome).Meets lo
      (fun o _ => o.Leaves (Shape.ofBool b)) E :=
  meets_literal rfl rfl (by decide) (by decide) rfl (fun _ => rfl) fun _ => rfl

theorem meets_ofInt {ε : Type} {E : ε → Prop} (i : Int64) :
    (do let id ← Supply.take; return s.replaceBy (.ofInt id i) : Supply ε Outcome).Meets lo
      (fun o _ => o.Leaves (Shape.ofInt i)) E :=
  meets_literal rfl rfl (by decide) (by decide) rfl (fun _ => rfl) fun _ => rfl

theorem meets_ofText {ε : Type} {E : ε → Prop} (text : String) :
    (do let id ← Supply.take; return s.replaceBy (.ofText id text) : Supply ε Outcome).Meets lo
      (fun o _ => o.Leaves (Shape.ofText text)) E :=
  meets_literal rfl rfl (by decide) (by decide) rfl (fun _ => rfl) fun _ => rfl

/-- A copy of a plant in the place of the reduced node. -/
theorem meets_copied {p : Plant} (hp : s.nodes.Holds p) (hn : p.ids.Nodup) (hc : p.Calculates) :
    (s.replaceByEdit (Editing.copyOf p.id)).Meets lo (fun o _ => o.Leaves p.shape)
      fun _ => False := by
  rw [replaceByEdit, Editing.replacement, bind_assoc]
  refine (Editing.meets_copyOf hp hn (hc.formed.mono (Nat.zero_le lo))).bind ?_
  rintro ⟨_, G⟩ hi - ⟨u, rfl, hu, hshape⟩
  exact .pure ⟨G, u, rfl, hu.held, ⟨hc.formed.of_shape_eq hshape,
    Plant.kinds_of_shape_eq hshape hc.kinds, hu.grown.unlocked⟩, hshape⟩

end State

/-! ### Rules -/

/-- The check and the rule for the root of a plant come to the reduct of its shape. -/
def Plant.Contracts (S : Signature) (s : State) (most : Int64) (lo : Nat) (r : Plant) : Prop :=
  Ends (S.check s r.root)
    (fun _ => (s.reduce S most r.root).Meets lo
      (fun o _ => ∃ v, r.shape.reduct = .ok v ∧ o.Leaves v) (Failure.Refuses r.ids r.shape.reduct))
    (Failure.Refuses r.ids r.shape.reduct)

/-- A redex that a state holds. -/
structure Plant.ReadyIn (s : State) (r : Plant) : Prop where
  held : s.nodes.Holds r
  nodup : r.ids.Nodup
  calculates : r.Calculates
  ready : r.shape.Ready

namespace Plant.ReadyIn

variable {S : Signature} {s : State} {most : Int64} {lo : Nat} {r p : Plant}

theorem valueIn (h : r.ReadyIn s) (hp : p ∈ r.strict) : ValueIn s.nodes p := by
  have hpart := r.strict_initial.subset hp
  have hsub := mem_subs_of_mem_parts hpart
  refine ⟨h.held.of_mem_subs hsub, nodup_ids_of_mem_subs h.nodup hsub,
    h.calculates.of_mem_parts hpart, h.ready.values _ ?_⟩
  rw [strict_shape]
  exact List.mem_map_of_mem hp

theorem needSlot_eq (h : r.ReadyIn s) (hk : r.root.kind ≠ .array) {i : Nat} {slot : String}
    (hslot : r.root.declaredSlots[i]? = some slot) (hp : r.parts[i]? = some p) :
    r.root.needSlot slot = .ok p.id :=
  Plant.needSlot_eq h.held.children (h.calculates.formed.root.slots hk) hslot hp

theorem singleton_subset (hp : p ∈ r.parts) : [p.id] ⊆ r.ids := by
  refine List.cons_subset.2 ⟨?_, List.nil_subset _⟩
  exact ids_subset_of_mem_subs (mem_subs_of_mem_parts hp) p.id_mem_ids

theorem contracts_hole (hk : r.root.kind = .hole) : r.Contracts S s most lo := by
  have hreduct : r.shape.reduct = .error .emptyHole := by
    rw [shape_eq, hk]
    rfl
  rw [Contracts, Signature.check, hk]
  exact ⟨_, hreduct, r.id, r.id_mem_ids, rfl⟩

variable (h : r.ReadyIn s) (hS : S.Full)
include h hS

theorem contracts_not (hk : r.root.kind = .not) : r.Contracts S s most lo := by
  have hlen := h.calculates.length_parts h.held.children (by simp [hk])
  rw [Node.declaredSlots, hk] at hlen
  obtain ⟨p, hparts⟩ := List.length_eq_one_iff.1 hlen
  have hp : p ∈ r.parts := by simp [hparts]
  have hslot : r.root.needSlot "value" = .ok p.id :=
    h.needSlot_eq (by simp [hk]) (i := 0) (by simp [Node.declaredSlots, hk]) (by simp [hparts])
  have hvalue : ValueIn s.nodes p := h.valueIn (by rwa [strict, if_neg (by simp [hk])])
  have hreduct : r.shape.reduct = (p.shape.expect "boolean" p.shape.bool? >>= fun b =>
      pure (Shape.ofBool !b)) := by
    rw [shape_eq, hk, hparts]
    rfl
  rw [Contracts, hreduct, Signature.check, hk]
  dsimp only
  rw [liftM_eq_ok_iff.2 hslot, ok_bind]
  refine (hvalue.ends_bool hS).imp ?_ fun e he => (he.mono (singleton_subset hp)).bind _
  rintro - ⟨b, hb, hneed⟩
  rw [State.reduce, hk]
  refine .liftSupply (Meets.imp (E := fun _ => False) ?_ (fun _ _ _ h => h) fun _ => False.elim)
  simp only [State.reduceNot, Supply.liftM_ok hslot, pure_bind,
    Supply.liftM_ok (Forest.find_eq_ok_iff.2 hvalue.held.get?_id), Supply.liftM_ok hneed]
  exact (State.meets_ofBool _).imp (fun o _ _ ho => ⟨_, by rw [hb]; rfl, ho⟩) fun _ h => h

theorem contracts_conditional (hk : r.root.kind = .conditional) : r.Contracts S s most lo := by
  have hlen := h.calculates.length_parts h.held.children (by simp [hk])
  rw [Node.declaredSlots, hk] at hlen
  obtain ⟨c, positive, negative, hparts⟩ := List.length_eq_three.1 hlen
  have hslot : ∀ {i : Nat} {slot : String} {p : Plant}, r.root.declaredSlots[i]? = some slot →
      r.parts[i]? = some p → r.root.needSlot slot = .ok p.id := h.needSlot_eq (by simp [hk])
  have hcondition : r.root.needSlot "condition" = .ok c.id :=
    hslot (i := 0) (by simp [Node.declaredSlots, hk]) (by simp [hparts])
  have hvalue : ValueIn s.nodes c := h.valueIn (by simp [strict, hk, hparts])
  have hreduct : r.shape.reduct = (c.shape.expect "boolean" c.shape.bool? >>= fun b =>
      pure (if b then positive.shape else negative.shape)) := by
    rw [shape_eq, hk, hparts]
    rfl
  rw [Contracts, hreduct, Signature.check, hk]
  dsimp only
  rw [liftM_eq_ok_iff.2 hcondition, ok_bind]
  refine (hvalue.ends_bool hS).imp ?_ fun e he =>
    (he.mono (singleton_subset (by simp [hparts]))).bind _
  rintro - ⟨b, hb, hneed⟩
  obtain ⟨branch, hmem, hbranch, hshape⟩ : ∃ branch ∈ r.parts,
      r.root.needSlot (if b then "positive" else "negative") = .ok branch.id ∧
      branch.shape = if b then positive.shape else negative.shape := by
    cases b
    · exact ⟨negative, by simp [hparts],
        hslot (i := 2) (by simp [Node.declaredSlots, hk]) (by simp [hparts]), rfl⟩
    · exact ⟨positive, by simp [hparts],
        hslot (i := 1) (by simp [Node.declaredSlots, hk]) (by simp [hparts]), rfl⟩
  have hsub := mem_subs_of_mem_parts hmem
  rw [State.reduce, hk]
  refine .liftSupply (Meets.imp (E := fun _ => False) ?_ (fun _ _ _ h => h) fun _ => False.elim)
  simp only [State.reduceConditional, Supply.liftM_ok hcondition, pure_bind,
    Supply.liftM_ok (Forest.find_eq_ok_iff.2 hvalue.held.get?_id), Supply.liftM_ok hneed,
    Supply.liftM_ok hbranch]
  exact (State.meets_copied (h.held.of_mem_subs hsub) (nodup_ids_of_mem_subs h.nodup hsub)
    (h.calculates.of_mem_subs hsub)).imp (fun o _ _ ho => ⟨_, by rw [hb]; rfl, hshape ▸ ho⟩) fun _ h => h

theorem contracts_member (hk : r.root.kind = .member) : r.Contracts S s most lo := by
  have hlen := h.calculates.length_parts h.held.children (by simp [hk])
  rw [Node.declaredSlots, hk] at hlen
  obtain ⟨a, i, hparts⟩ := List.length_eq_two.1 hlen
  have hstrict : r.strict = [a, i] := by rw [strict, if_neg (by simp [hk]), hparts]
  have harray : r.root.needSlot "array" = .ok a.id :=
    h.needSlot_eq (by simp [hk]) (i := 0) (by simp [Node.declaredSlots, hk]) (by simp [hparts])
  have hindex : r.root.needSlot "index" = .ok i.id :=
    h.needSlot_eq (by simp [hk]) (i := 1) (by simp [Node.declaredSlots, hk]) (by simp [hparts])
  have ha : ValueIn s.nodes a := h.valueIn (by simp [hstrict])
  have hi : ValueIn s.nodes i := h.valueIn (by simp [hstrict])
  have hreduct : r.shape.reduct = Shape.element a.shape i.shape := by
    rw [shape_eq, hk, hparts]
    rfl
  rw [Contracts, hreduct, Signature.check, hk, Shape.element]
  dsimp only
  rw [Signature.checkMember, liftM_eq_ok_iff.2 harray, ok_bind, liftM_eq_ok_iff.2 hindex, ok_bind]
  refine ((ha.ends_elements hS).imp (fun _ h => h) fun e he =>
    (he.mono (singleton_subset (by simp [hparts]))).bind _).bind ?_
  rintro - ⟨_, helements, rfl, hka⟩
  rw [helements, ok_bind]
  refine ((hi.ends_int hS).imp (fun _ h => h) fun e he =>
    (he.mono (singleton_subset (by simp [hparts]))).bind _).bind ?_
  rintro - ⟨position, hposition, hneed⟩
  obtain ⟨length, hlength, hlen, hslots⟩ := ha.calculates.exists_length ha.held.children hka
  have hnumber : s.nodes.number i.id = .ok position := by
    rw [Forest.number, Forest.find_eq_ok_iff.2 hi.held.get?_id, ok_bind, hneed]
  have hfind := Forest.find_eq_ok_iff.2 ha.held.get?_id
  rw [hposition, ok_bind, liftM_eq_ok_iff.2 hnumber, ok_bind, liftM_eq_ok_iff.2 hfind, ok_bind,
    liftM_eq_ok_iff.2 hlength, ok_bind]
  have hrange := Shape.lookup_eq_none_iff (a.parts.map shape) position (by simpa using hlen)
  split
  · next hout =>
    rw [hrange.2 hout]
    refine ⟨_, rfl, i.id, singleton_subset (by simp [hparts]) (List.mem_singleton_self _), ?_⟩
    simp [Stuck.rejection, hlen]
  · next hin =>
    have hpos : 0 ≤ position := Int64.not_lt.1 fun hneg => hin (.inl hneg)
    have hsome := mt hrange.1 hin
    rw [if_pos hpos, List.getElem?_map, Option.map_eq_none_iff] at hsome
    obtain ⟨p, hp⟩ := Option.ne_none_iff_exists'.1 hsome
    rw [if_pos hpos, List.getElem?_map, hp]
    have hsub := mem_subs_of_mem_parts (List.mem_of_getElem? hp)
    show Meets _ _ _ _
    rw [State.reduce, hk]
    refine .liftSupply (Meets.imp (E := fun _ => False) ?_ (fun _ _ _ h => h) fun _ => False.elim)
    simp only [State.reduceMember, Supply.liftM_ok harray, Supply.liftM_ok hindex, pure_bind,
      Supply.liftM_ok hfind, Supply.liftM_ok hnumber, Supply.liftM_ok (hslots _ p hp)]
    exact (State.meets_copied (ha.held.of_mem_subs hsub) (nodup_ids_of_mem_subs ha.nodup hsub)
      (ha.calculates.of_mem_subs hsub)).imp
        (fun o _ _ ho => ⟨_, rfl, ho⟩) fun _ h => h

end Plant.ReadyIn

/-! ### Binary operations -/

theorem State.meets_calculate_shape {s : State} {lo : Nat} {n l r : Node} {ids : List NodeId}
    {a b : Int64} (hn : n.id ∈ ids) (ha : l.needInt "value" = .ok a)
    (hb : r.needInt "value" = .ok b) (op : Operator) :
    (reduceBinop.calculate s n op l r).Meets lo
      (fun o _ => ∃ v, Shape.calculate op a b = .ok v ∧ o.Leaves v)
      (Failure.Refuses ids (Shape.calculate op a b)) := by
  simp only [reduceBinop.calculate, Supply.liftM_fault_ok ha, Supply.liftM_fault_ok hb, pure_bind]
  cases op with
  | less | greater => exact (meets_ofBool _).imp (fun _ _ _ ho => ⟨_, rfl, ho⟩) fun _ h => h
  | add | sub | mul | div | equal | unequal =>
    simp only [Shape.calculate]
    generalize Operator.calculate? _ a b = o
    cases o with
    | some i => exact (meets_ofInt _).imp (fun _ _ _ ho => ⟨_, rfl, ho⟩) fun _ h => h
    | none => exact .throw ⟨_, rfl, n.id, hn, rfl⟩

namespace Plant

/-- A binary operation on two values. -/
structure Operates (s : State) (op : Operator) (p q r : Plant) : Prop where
  text : ∃ text, r.root.needText "op" = .ok text ∧ Operator.ofText? text = some op
  left : r.root.needSlot "left" = .ok p.id
  right : r.root.needSlot "right" = .ok q.id
  parts : r.parts = [p, q]
  leftValue : ValueIn s.nodes p
  rightValue : ValueIn s.nodes q

namespace Operates

variable {S : Signature} {s : State} {lo : Nat} {p q r : Plant} {op : Operator}

theorem left_subset (h : Operates s op p q r) : [p.id] ⊆ r.ids :=
  ReadyIn.singleton_subset (by simp [h.parts])

theorem right_subset (h : Operates s op p q r) : [q.id] ⊆ r.ids :=
  ReadyIn.singleton_subset (by simp [h.parts])

/-- The check of a binary operation, once its operands have been looked up. -/
theorem checkBinop_eq (h : Operates s op p q r) (hS : S.Full) : S.checkBinop s r.root =
    (match op with
    | .add => do
      S.requireOneOf s.nodes p.id [.number, .string] "number or string"
      S.requireType s.nodes q.id p.root.kind.valueType
    | .equal | .unequal => do
      S.requireOneOf s.nodes p.id [.number, .boolean, .string, .symbol] "comparable value"
      S.requireType s.nodes q.id p.root.kind.valueType
    | op => do
      S.requireType s.nodes p.id .number
      S.requireType s.nodes q.id .number
      if op = .div then
        if (← s.nodes.number q.id) = 0 then refuse (.builtin q.id "division by zero")) := by
  obtain ⟨text, htext, hofText⟩ := h.text
  rw [Signature.checkBinop, liftM_eq_ok_iff.2 htext, ok_bind, liftM_eq_ok_iff.2 h.left, ok_bind,
    liftM_eq_ok_iff.2 h.right, ok_bind, hofText, hS.coarseType_eq h.leftValue.held.get?_id,
    Node.coarseType_eq_valueType h.leftValue.kind_mem]
  cases op <;> rfl

/-- The rule of a binary operation, once its operands have been looked up. -/
theorem reduceBinop_eq (h : Operates s op p q r) : s.reduceBinop r.root =
    match op with
    | .equal => do
      let same ← sameShape s.nodes p.id s.nodes q.id
      return s.replaceBy (.ofBool (← Supply.take) same)
    | .unequal => do
      let same ← sameShape s.nodes p.id s.nodes q.id
      return s.replaceBy (.ofBool (← Supply.take) !same)
    | .add =>
      if p.root.kind = .string then do
        let first ← p.root.needText "value"
        let last ← q.root.needText "value"
        return s.replaceBy (.ofText (← Supply.take) (first ++ last))
      else State.reduceBinop.calculate s r.root .add p.root q.root
    | op => State.reduceBinop.calculate s r.root op p.root q.root := by
  obtain ⟨text, htext, hofText⟩ := h.text
  simp only [State.reduceBinop, Supply.liftM_fault_ok htext, Supply.liftM_fault_ok h.left,
    Supply.liftM_fault_ok h.right, pure_bind, hofText,
    Supply.liftM_fault_ok (Forest.find_eq_ok_iff.2 h.leftValue.held.get?_id),
    Supply.liftM_fault_ok (Forest.find_eq_ok_iff.2 h.rightValue.held.get?_id)]
  cases op <;> rfl

/-- The check and the rule of a binary operation come to what its operator makes of the operands. -/
def Contracts (S : Signature) (s : State) (lo : Nat) (op : Operator) (p q r : Plant) : Prop :=
  Ends (S.checkBinop s r.root)
    (fun _ => (s.reduceBinop r.root).Meets lo
      (fun o _ => ∃ v, Shape.operate op p.shape q.shape = .ok v ∧ o.Leaves v)
      (Failure.Refuses r.ids (Shape.operate op p.shape q.shape)))
    (Failure.Refuses r.ids (Shape.operate op p.shape q.shape))

variable (h : Operates s op p q r) (hS : S.Full)
include h hS

theorem contracts_same (hop : op = .equal ∨ op = .unequal) : Contracts S s lo op p q r := by
  have hl := h.leftValue
  have hr := h.rightValue
  have hcheck : S.checkBinop s r.root = (do
      S.requireOneOf s.nodes p.id [.number, .boolean, .string, .symbol] "comparable value"
      S.requireType s.nodes q.id p.root.kind.valueType) := by
    rw [h.checkBinop_eq hS]
    rcases hop with rfl | rfl <;> rfl
  have hsame : Ends (S.checkBinop s r.root)
      (fun _ => p.shape.same q.shape = .ok (decide (p.shape.fields = q.shape.fields)) ∧
        sameShape s.nodes p.id s.nodes q.id = .ok (decide (p.shape.fields = q.shape.fields)))
      (Failure.Refuses r.ids (p.shape.same q.shape)) := by
    rw [hcheck, hl.requireOneOf_eq hS, Shape.same, kind_shape, kind_shape]
    by_cases hk : p.root.kind ∈ [Kind.number, .boolean, .string, .symbol]
    · rw [if_pos ((Kind.valueType_mem_iff _ hl.kind_mem).2 hk), ok_bind,
        hr.requireType_eq hS hl.kind_mem, if_pos hk]
      split
      · next hkind =>
        exact ⟨rfl, hl.sameShape_eq hr (fun he => by simp [he] at hk) hkind⟩
      · exact ⟨_, rfl, q.id, h.right_subset (List.mem_singleton_self _), rfl⟩
    · rw [if_neg (mt (Kind.valueType_mem_iff _ hl.kind_mem).1 hk), if_neg hk]
      exact ⟨_, rfl, p.id, h.left_subset (List.mem_singleton_self _), rfl⟩
  refine hsame.imp ?_ fun e he => ?_
  · rintro - ⟨hshape, htree⟩
    rw [h.reduceBinop_eq]
    rcases hop with rfl | rfl
    all_goals
      dsimp only
      rw [Supply.liftM_fault_ok htree, pure_bind, Shape.operate, hshape]
      exact (State.meets_ofBool _).imp (fun _ _ _ ho => ⟨_, rfl, ho⟩) fun _ h => h
  · rcases hop with rfl | rfl <;> exact he.bind _

theorem contracts_add (hop : op = .add) : Contracts S s lo op p q r := by
  subst hop
  have hl := h.leftValue
  have hr := h.rightValue
  have hformed := hl.calculates.formed.root
  rw [Contracts, h.checkBinop_eq hS, h.reduceBinop_eq, Shape.operate]
  dsimp only
  rw [hl.requireOneOf_eq hS]
  by_cases hstring : p.root.kind = .string
  · obtain ⟨first, hfirst, hneed⟩ := hformed.exists_string hstring
    have htext : p.shape.text? = some first := by rw [text?_shape, if_pos hstring, hfirst]
    rw [htext, hstring, if_pos (by decide), ok_bind]
    refine (hr.ends_text hS).imp ?_ fun e he => (he.mono h.right_subset).bind _
    rintro - ⟨last, hlast, hneed'⟩
    simp only [Supply.liftM_fault_ok hneed, Supply.liftM_fault_ok hneed', pure_bind, if_true, hlast]
    exact (State.meets_ofText _).imp (fun _ _ _ ho => ⟨_, rfl, ho⟩) fun _ h => h
  have htext : p.shape.text? = none := by rw [text?_shape, if_neg hstring]
  by_cases hnumber : p.root.kind = .number
  · obtain ⟨a, ha, hneed⟩ := hformed.exists_number hnumber
    have hint : p.shape.int? = some a := by rw [int?_shape, if_pos hnumber, ha]
    rw [htext, hint, if_neg hstring, hnumber, if_pos (by decide), ok_bind]
    refine (hr.ends_int hS).imp ?_ fun e he => (he.mono h.right_subset).bind _
    rintro - ⟨b, hb, hneed'⟩
    rw [hb]
    exact State.meets_calculate_shape r.id_mem_ids hneed hneed' .add
  · have hint : p.shape.int? = none := by rw [int?_shape, if_neg hnumber]
    have hout : p.root.kind.valueType ∉ [CoarseType.number, .string] := by
      rw [Kind.valueType_mem_pair_iff _ hl.kind_mem]
      simp [hstring, hnumber]
    rw [if_neg hout, htext, hint]
    refine ⟨.wrongType "number or string" p.root.kind.tag, ?_, p.id,
      h.left_subset (List.mem_singleton_self _), rfl⟩
    simp [Shape.expect]

theorem contracts_numbers (hop : op ∈ [.sub, .mul, .div, .less, .greater]) :
    Contracts S s lo op p q r := by
  have hl := h.leftValue
  have hr := h.rightValue
  have hcheck : S.checkBinop s r.root = (do
      S.requireType s.nodes p.id .number
      S.requireType s.nodes q.id .number
      if op = .div then
        if (← s.nodes.number q.id) = 0 then refuse (.builtin q.id "division by zero")) := by
    rw [h.checkBinop_eq hS]
    cases op <;> first | rfl | simp at hop
  have hreduce : s.reduceBinop r.root = State.reduceBinop.calculate s r.root op p.root q.root := by
    rw [h.reduceBinop_eq]
    cases op <;> first | rfl | simp at hop
  have hoperate : Shape.operate op p.shape q.shape = (do
      let a ← p.shape.expect "number" p.shape.int?
      let b ← q.shape.expect "number" q.shape.int?
      if op = .div ∧ b = 0 then .error .divisionByZero else Shape.calculate op a b) := by
    cases op <;> first | rfl | simp at hop
  rw [Contracts, hcheck, hreduce, hoperate]
  refine ((hl.ends_int hS).imp (fun _ h => h) fun e he => (he.mono h.left_subset).bind _).bind ?_
  rintro - ⟨a, ha, hneed⟩
  rw [ha, ok_bind]
  refine ((hr.ends_int hS).imp (fun _ h => h) fun e he => (he.mono h.right_subset).bind _).bind ?_
  rintro - ⟨b, hb, hneed'⟩
  have hnumber : s.nodes.number q.id = .ok b := by
    rw [Forest.number, Forest.find_eq_ok_iff.2 hr.held.get?_id, ok_bind, hneed']
  rw [hb, ok_bind]
  by_cases hzero : op = .div ∧ b = 0
  · rw [if_pos hzero, if_pos hzero.1, liftM_eq_ok_iff.2 hnumber, ok_bind, if_pos hzero.2]
    exact ⟨_, rfl, q.id, h.right_subset (List.mem_singleton_self _), rfl⟩
  · rw [if_neg hzero]
    split
    · next hdiv =>
      rw [liftM_eq_ok_iff.2 hnumber, ok_bind, if_neg fun hb => hzero ⟨hdiv, hb⟩]
      exact State.meets_calculate_shape r.id_mem_ids hneed hneed' op
    · exact State.meets_calculate_shape r.id_mem_ids hneed hneed' op

theorem contracts : Contracts S s lo op p q r := by
  cases op with
  | equal => exact h.contracts_same hS (.inl rfl)
  | unequal => exact h.contracts_same hS (.inr rfl)
  | add => exact h.contracts_add hS rfl
  | sub | mul | div | less | greater => exact h.contracts_numbers hS (by simp)

end Operates

end Plant

/-! ### Redexes -/

namespace Plant.ReadyIn

variable {S : Signature} {s : State} {most : Int64} {lo : Nat} {r : Plant}

theorem contracts_binop (h : r.ReadyIn s) (hS : S.Full) (hk : r.root.kind = .binop) :
    r.Contracts S s most lo := by
  have hlen := h.calculates.length_parts h.held.children (by simp [hk])
  rw [Node.declaredSlots, hk] at hlen
  obtain ⟨p, q, hparts⟩ := List.length_eq_two.1 hlen
  have hstrict : r.strict = [p, q] := by rw [strict, if_neg (by simp [hk]), hparts]
  obtain ⟨text, op, htext, hop⟩ := h.calculates.formed.root.operator hk
  have hoperates : Operates s op p q r := {
    text := ⟨text, by rw [Node.needText, htext], hop⟩
    left := h.needSlot_eq (by simp [hk]) (i := 0) (by simp [Node.declaredSlots, hk])
      (by simp [hparts])
    right := h.needSlot_eq (by simp [hk]) (i := 1) (by simp [Node.declaredSlots, hk])
      (by simp [hparts])
    parts := hparts
    leftValue := h.valueIn (by simp [hstrict])
    rightValue := h.valueIn (by simp [hstrict]) }
  have hreduct : r.shape.reduct = Shape.operate op p.shape q.shape := by
    have hop' : ((r.root.fields.get? "op").bind Datum.text?).bind Operator.ofText? = some op :=
      Option.bind_eq_some_iff.2 ⟨text, htext, hop⟩
    simp only [shape_eq, hk, hparts, List.map_cons, List.map_nil, Shape.reduct, hop']
  rw [Contracts, hreduct, Signature.check, hk, State.reduce, hk]
  exact hoperates.contracts hS

/-- The check and the rule for a redex come to the reduct of its shape. -/
theorem contracts (h : r.ReadyIn s) (hS : S.Full) : r.Contracts S s most lo := by
  have hkind := h.calculates.kind
  have hexpression := h.ready.expression
  rw [kind_shape] at hexpression
  cases hk : r.root.kind with
  | hole => exact contracts_hole hk
  | not => exact h.contracts_not hS hk
  | binop => exact h.contracts_binop hS hk
  | conditional => exact h.contracts_conditional hS hk
  | member => exact h.contracts_member hS hk
  | var | apply | reference => simp [hk, Kind.calculates] at hkind
  | number | boolean | string | symbol | void | lambda | binder | array | define =>
    simp [hk, Kind.category] at hexpression

end Plant.ReadyIn

end TermForest
