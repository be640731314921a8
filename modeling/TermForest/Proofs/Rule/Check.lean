import TermForest.Proofs.Rule.Edits
import TermForest.Rule.Check

/-!
# What a passed check says

A node that passes the check of its kind has children of the types that its rule reads.
-/

namespace TermForest

/-! ### Faults and refusals -/

@[simp] theorem liftM_eq_ok_iff {α : Type} {x : Except Fault α} {a : α} :
    (liftM x : Except Failure α) = .ok a ↔ x = .ok a := by
  cases x with
  | ok a' =>
    show Except.ok a' = _ ↔ _
    simp
  | error e =>
    show Except.error _ = _ ↔ _
    simp

@[simp] theorem Node.needInt_eq_ok_iff {n : Node} {key : String} {i : Int64} :
    n.needInt key = .ok i ↔ n.int? key = some i := by
  unfold Node.needInt
  split <;> simp_all

/-- An operator is written in one way only. -/
theorem Node.text?_of_operator {n : Node} {text : String} {op : Operator}
    (ht : n.needText "op" = .ok text) (hop : Operator.ofText? text = some op) :
    n.text? "op" = some op.text := by
  unfold Node.needText at ht
  split at ht
  · next s hs =>
    cases ht
    have htext : op.text = text := by simpa using List.find?_some hop
    rw [hs, htext]
  · cases ht

@[simp] theorem refuse_ne_ok {α : Type} {why : Rejection} {a : α} :
    (refuse why : Except Failure α) ≠ .ok a := nofun

@[simp] theorem refuse_bind {α β : Type} {why : Rejection} {f : α → Except Failure β} :
    (refuse why >>= f) = refuse why := rfl

/-- What a guard that refuses lets through. -/
@[simp] theorem ite_refuse_eq_ok_iff {α : Type} {p : Prop} [Decidable p] {why : Rejection}
    {x : Except Failure α} {a : α} :
    (if p then refuse why else x) = .ok a ↔ ¬p ∧ x = .ok a := by
  split <;> simp_all

/-! ### Types -/

namespace Node

variable {n : Node} {peek : NodeId → Option Node}

/-- Whether a type is that of one kind alone. -/
theorem kind_of_coarseType {c : CoarseType} (h : n.coarseType peek = c) :
    (c = .number → n.kind = .number) ∧ (c = .boolean → n.kind = .boolean) ∧
      (c = .string → n.kind = .string) ∧ (c = .symbol → n.kind = .symbol) ∧
      (c = .array → n.kind = .array) ∧ (c = .define → n.kind = .define) ∧
      (c = .hole → n.kind = .hole) := by
  unfold coarseType at h
  split at h
  case h_10 => split at h <;> subst h <;> simp
  all_goals
    subst h
    simp_all

end Node

namespace Signature

variable {S : Signature} {F : Forest} {id : NodeId}

theorem coarseType_eq_ok {c : CoarseType} (h : S.coarseType F id = .ok c) :
    ∃ n, F.get? id = some n ∧ n.coarseType F.get? = c := by
  rw [Signature.coarseType, bind_eq_ok_iff] at h
  obtain ⟨n, hn, h⟩ := h
  rw [bind_eq_ok_iff] at h
  obtain ⟨_, -, h⟩ := h
  exact ⟨n, Forest.find_eq_ok_iff.1 hn, Except.ok.inj h⟩

theorem requireOneOf_ok {permitted : List CoarseType} {expected : String}
    (h : S.requireOneOf F id permitted expected = .ok ()) :
    ∃ n, F.get? id = some n ∧ n.coarseType F.get? ∈ permitted := by
  rw [requireOneOf, bind_eq_ok_iff] at h
  obtain ⟨c, hc, h⟩ := h
  obtain ⟨n, hn, rfl⟩ := coarseType_eq_ok (liftM_eq_ok_iff.1 hc)
  refine ⟨n, hn, ?_⟩
  split at h
  · cases h
  · split at h
    · assumption
    · cases h

theorem requireType_ok {c : CoarseType} (h : S.requireType F id c = .ok ()) :
    ∃ n, F.get? id = some n ∧ n.coarseType F.get? = c := by
  obtain ⟨n, hn, hc⟩ := requireOneOf_ok h
  exact ⟨n, hn, List.mem_singleton.1 hc⟩

/-! ### Kinds of nodes -/

variable {s : State} {n : Node}

theorem checkApply_ok (h : S.checkApply s n = .ok ()) {callee : NodeId} {f : Node}
    (hc : n.slots.get? "callee" = some callee) (hf : s.nodes.get? callee = some f) :
    (f.kind = .lambda ∧ ∃ arg binder, f.slots.get? "arg" = some arg ∧
      s.nodes.get? arg = some binder ∧ binder.kind = .binder) ∨
    (f.kind = .reference ∧ (s.nodes.openParameter? f).isSome = true) := by
  simp only [checkApply, bind_eq_ok_iff, liftM_eq_ok_iff, Node.needSlot_eq_ok_iff,
    Forest.find_eq_ok_iff] at h
  obtain ⟨callee', hc', f', hf', h⟩ := h
  rw [hc, Option.some.injEq] at hc'
  subst hc'
  rw [hf, Option.some.injEq] at hf'
  subst hf'
  split at h
  · cases h
  · next hk =>
    simp only [bind_eq_ok_iff, liftM_eq_ok_iff, Node.needSlot_eq_ok_iff,
      Forest.find_eq_ok_iff] at h
    obtain ⟨arg, harg, binder, hbinder, h⟩ := h
    split at h
    · next hb => exact .inl ⟨hk, arg, binder, harg, hbinder, hb⟩
    · cases h
    · cases h
  · next hk =>
    refine .inr ⟨hk, ?_⟩
    simp only [bind_eq_ok_iff] at h
    obtain ⟨name, -, h⟩ := h
    simp only [refuse_bind, ite_refuse_eq_ok_iff] at h
    exact Option.isNone_eq_false_iff.1 (Bool.eq_false_iff.2 h.2.1)
  · simp only [bind_eq_ok_iff] at h
    obtain ⟨_, -, h⟩ := h
    cases h

/-- What a passed check of a binary operation says about its operands. -/
def OperandsFit (op : Operator) (l r : Node) : Prop :=
  match op with
  | .add => (l.kind = .string ∧ r.kind = .string) ∨ (l.kind = .number ∧ r.kind = .number)
  | .equal | .unequal => True
  | .div => (l.kind = .number ∧ r.kind = .number) ∧ r.int? "value" ≠ some 0
  | .sub | .mul | .less | .greater => l.kind = .number ∧ r.kind = .number

theorem kind_number_of_requireType (h : S.requireType F id .number = .ok ())
    (hn : F.get? id = some n) : n.kind = .number := by
  obtain ⟨m, hm, hc⟩ := requireType_ok h
  rw [hn, Option.some.injEq] at hm
  exact (Node.kind_of_coarseType (hm ▸ hc)).1 rfl

theorem kind_boolean_of_requireType (h : S.requireType F id .boolean = .ok ())
    (hn : F.get? id = some n) : n.kind = .boolean := by
  obtain ⟨m, hm, hc⟩ := requireType_ok h
  rw [hn, Option.some.injEq] at hm
  exact (Node.kind_of_coarseType (hm ▸ hc)).2.1 rfl

theorem kind_array_of_requireType (h : S.requireType F id .array = .ok ())
    (hn : F.get? id = some n) : n.kind = .array := by
  obtain ⟨m, hm, hc⟩ := requireType_ok h
  rw [hn, Option.some.injEq] at hm
  exact (Node.kind_of_coarseType (hm ▸ hc)).2.2.2.2.1 rfl

theorem checkBinop_ok (h : S.checkBinop s n = .ok ()) {text : String} {op : Operator}
    (ht : n.needText "op" = .ok text) (hop : Operator.ofText? text = some op)
    {left right : NodeId} {l r : Node} (hleft : n.slots.get? "left" = some left)
    (hright : n.slots.get? "right" = some right) (hl : s.nodes.get? left = some l)
    (hr : s.nodes.get? right = some r) : OperandsFit op l r := by
  simp only [checkBinop, bind_eq_ok_iff, liftM_eq_ok_iff, Node.needSlot_eq_ok_iff] at h
  obtain ⟨text', ht', left', hleft', right', hright', h⟩ := h
  rw [ht, Except.ok.injEq] at ht'
  rw [hleft, Option.some.injEq] at hleft'
  rw [hright, Option.some.injEq] at hright'
  subst ht' hleft' hright'
  rw [hop] at h
  cases op with
  | equal | unequal => trivial
  | add =>
    simp only [bind_eq_ok_iff, liftM_eq_ok_iff] at h
    obtain ⟨_, hleft', c, hc, hright'⟩ := h
    obtain ⟨l', hl', hcl⟩ := requireOneOf_ok hleft'
    obtain ⟨l'', hl'', rfl⟩ := coarseType_eq_ok hc
    obtain ⟨r', hr', hcr⟩ := requireType_ok hright'
    rw [hl, Option.some.injEq] at hl' hl''
    rw [hr, Option.some.injEq] at hr'
    subst hl' hl'' hr'
    rcases List.mem_pair.1 hcl with hcl | hcl
    · exact .inr ⟨(Node.kind_of_coarseType hcl).1 rfl, (Node.kind_of_coarseType (hcr.trans hcl)).1 rfl⟩
    · exact .inl ⟨(Node.kind_of_coarseType hcl).2.2.1 rfl,
        (Node.kind_of_coarseType (hcr.trans hcl)).2.2.1 rfl⟩
  | sub | mul | less | greater =>
    simp only [bind_eq_ok_iff] at h
    obtain ⟨_, hleft', _, hright', -⟩ := h
    exact ⟨kind_number_of_requireType hleft' hl, kind_number_of_requireType hright' hr⟩
  | div =>
    simp only [bind_eq_ok_iff, if_true, liftM_eq_ok_iff, ite_refuse_eq_ok_iff] at h
    obtain ⟨_, hleft', _, hright', divisor, hdivisor, hne, -⟩ := h
    refine ⟨⟨kind_number_of_requireType hleft' hl, kind_number_of_requireType hright' hr⟩,
      fun hzero => hne ?_⟩
    rw [Forest.number, Forest.find_eq_ok_iff.2 hr, ok_bind, Node.needInt, hzero] at hdivisor
    exact (Except.ok.inj hdivisor).symm

theorem checkMember_ok (h : S.checkMember s n = .ok ()) {array index : NodeId} {a i : Node}
    (harray : n.slots.get? "array" = some array) (hindex : n.slots.get? "index" = some index)
    (ha : s.nodes.get? array = some a) (hi : s.nodes.get? index = some i) :
    a.kind = .array ∧ i.kind = .number ∧ ∃ position length, s.nodes.number index = .ok position ∧
      a.needInt "length" = .ok length ∧ 0 ≤ position ∧ position < length := by
  simp only [checkMember, bind_eq_ok_iff, liftM_eq_ok_iff, Node.needSlot_eq_ok_iff,
    Forest.find_eq_ok_iff] at h
  obtain ⟨array', harray', index', hindex', _, htype, _, htype', position, hposition, a', ha',
    length, hlength, h⟩ := h
  rw [harray, Option.some.injEq] at harray'
  rw [hindex, Option.some.injEq] at hindex'
  subst harray' hindex'
  rw [ha, Option.some.injEq] at ha'
  subst ha'
  refine ⟨kind_array_of_requireType htype ha, kind_number_of_requireType htype' hi, position,
    length, hposition, hlength, ?_⟩
  simp only [ite_refuse_eq_ok_iff, not_or] at h
  exact ⟨Int64.not_lt.1 h.1.1, Int64.not_le.1 h.1.2⟩

/-! ### Calls -/

theorem checkReference_ok (h : S.checkReference s n = .ok ()) {name : String} {p : Primitive}
    (hname : n.needText "name" = .ok name) (hp : S.builtin? name = some p) :
    n.parameters.length = p.builtin.parameters.length ∧
      p.builtin.check S s.nodes n n.slots.children = .ok () := by
  simp only [checkReference, bind_eq_ok_iff, liftM_eq_ok_iff] at h
  obtain ⟨name', hname', h⟩ := h
  rw [hname, Except.ok.injEq] at hname'
  subst hname'
  rw [hp] at h
  simp only [refuse_bind, ite_refuse_eq_ok_iff, not_not] at h
  refine ⟨h.1, ?_⟩
  have h := h.2
  split at h
  · cases h
  · exact h

theorem name_of_builtin? {name : String} {p : Primitive} (hp : S.builtin? name = some p) :
    p.builtin.name = name := by
  simpa using List.find?_some hp

/-- A reference to no builtin that passes the check names a definition. -/
theorem isSome_definition?_of_checkReference (h : S.checkReference s n = .ok ()) {name : String}
    (hname : n.needText "name" = .ok name) (hp : S.builtin? name = none) :
    (s.definition? name).isSome = true := by
  simp only [checkReference, bind_eq_ok_iff, liftM_eq_ok_iff] at h
  obtain ⟨name', hname', h⟩ := h
  rw [hname, Except.ok.injEq] at hname'
  subst hname'
  rw [hp] at h
  simp only [refuse_bind, ite_refuse_eq_ok_iff] at h
  exact Option.isNone_eq_false_iff.1 (Bool.eq_false_iff.2 h.1)

end Signature

@[simp] theorem Node.argument_eq_ok_iff {call : Node} {arguments : List NodeId} {position : Nat}
    {id : NodeId} : call.argument arguments position = .ok id ↔ arguments[position]? = some id := by
  unfold Node.argument
  split <;> simp_all

namespace Builtin

variable {S : Signature} {F : Forest} {call : Node} {arguments : List NodeId}

/-- The arguments of a builtin whose call has passed its check. -/
def ArgumentsFit (b : Builtin) (F : Forest) (arguments : List NodeId) : Prop :=
  match b with
  | .eat => True
  | .repeat => (∃ id n, arguments[0]? = some id ∧ F.get? id = some n ∧ n.kind = .number) ∧
      ∃ id n, arguments[1]? = some id ∧ F.get? id = some n
  | .length => ∃ id n, arguments[0]? = some id ∧ F.get? id = some n ∧ n.kind = .array
  | .concat => (∃ id n, arguments[0]? = some id ∧ F.get? id = some n ∧ n.kind = .array) ∧
      ∃ id n, arguments[1]? = some id ∧ F.get? id = some n ∧ n.kind = .array

theorem exists_array_of_requireType {id : NodeId} (h : S.requireType F id .array = .ok ()) :
    ∃ n, F.get? id = some n ∧ n.kind = .array := by
  obtain ⟨n, hn, hc⟩ := Signature.requireType_ok h
  exact ⟨n, hn, (Node.kind_of_coarseType hc).2.2.2.2.1 rfl⟩

theorem check_ok {b : Builtin} (h : b.check S F call arguments = .ok ()) :
    b.ArgumentsFit F arguments := by
  cases b with
  | eat => trivial
  | «repeat» =>
    simp only [check, bind_eq_ok_iff, liftM_eq_ok_iff, Node.argument_eq_ok_iff] at h
    obtain ⟨count, hcount, function, hfunction, _, hnumber, hlambda⟩ := h
    obtain ⟨n, hn, hc⟩ := Signature.requireType_ok hnumber
    obtain ⟨f, hf, -⟩ := Signature.requireType_ok hlambda
    exact ⟨⟨count, n, hcount, hn, (Node.kind_of_coarseType hc).1 rfl⟩, function, f, hfunction, hf⟩
  | length =>
    simp only [check, bind_eq_ok_iff, liftM_eq_ok_iff, Node.argument_eq_ok_iff] at h
    obtain ⟨id, hid, h⟩ := h
    obtain ⟨n, hn, hk⟩ := exists_array_of_requireType h
    exact ⟨id, n, hid, hn, hk⟩
  | concat =>
    simp only [check, bind_eq_ok_iff, liftM_eq_ok_iff, Node.argument_eq_ok_iff] at h
    obtain ⟨left, hleft, _, hl, right, hright, hr⟩ := h
    obtain ⟨l, hl, hkl⟩ := exists_array_of_requireType hl
    obtain ⟨r, hr, hkr⟩ := exists_array_of_requireType hr
    exact ⟨⟨left, l, hleft, hl, hkl⟩, right, r, hright, hr, hkr⟩

end Builtin

end TermForest
