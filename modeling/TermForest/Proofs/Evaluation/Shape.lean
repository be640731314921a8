import TermForest.Proofs.Forest.Joined

/-!
# Evaluation of terms

Terms without names and functions have a value, or a reason why they have none. Evaluation goes
through the strict parts of a term from left to right, applies the operation to their values, and
enters the chosen branch of a conditional only. It is a recursion on shapes: ids, links and locks do
not count.

A term may also be taken apart at a place that evaluation comes to first. The value then depends on
what stands there through its value alone.
-/

namespace TermForest

/-! ### Terms without a value -/

/-- Why a term has no value. -/
inductive Stuck where
  | emptyHole
  | wrongType (expected actual : String)
  | divisionByZero
  | overflow
  | outOfBounds (index length : Int)
  deriving DecidableEq, Repr

/-- How a step at a node is refused for this reason. -/
def Stuck.rejection (node : NodeId) : Stuck → Rejection
  | .emptyHole => .emptyHole node
  | .wrongType expected actual => .wrongType node expected actual
  | .divisionByZero => .builtin node "division by zero"
  | .overflow => .builtin node "arithmetic overflow"
  | .outOfBounds index length =>
    .builtin node s!"index {index} is out of bounds for an array of length {length}"

namespace Shape

/-! ### Reading values -/

/-- The number that a term stands for. -/
def int? : Shape → Option Int64
  | .mk .number fields .. => (fields.get? "value").bind Datum.int?
  | _ => none

/-- The truth value that a term stands for. -/
def bool? : Shape → Option Bool
  | .mk .boolean fields .. => (fields.get? "value").bind Datum.bool?
  | _ => none

/-- The text that a term stands for. -/
def text? : Shape → Option String
  | .mk .string fields .. => (fields.get? "value").bind Datum.text?
  | _ => none

/-- The elements of an array. -/
def elements? : Shape → Option (List Shape)
  | .mk .array _ _ elements => some elements
  | _ => none

/-- What is read off a value, which has the wrong type if nothing is. -/
def expect {α : Type} (v : Shape) (expected : String) : Option α → Except Stuck α
  | some a => .ok a
  | none => .error (.wrongType expected v.kind.tag)

/-! ### Operations on values -/

/-- A truth value. -/
def ofBool (b : Bool) : Shape :=
  .mk .boolean ((∅ : Fields).insert "value" (.bool b)) [] []

/-- A number. -/
def ofInt (i : Int64) : Shape :=
  .mk .number ((∅ : Fields).insert "value" (.int i)) [] []

/-- A string. -/
def ofText (text : String) : Shape :=
  .mk .string ((∅ : Fields).insert "value" (.text text)) [] []

/-- Whether two literals of one kind are the same. -/
def same (l r : Shape) : Except Stuck Bool :=
  if l.kind ∈ [.number, .boolean, .string, .symbol] then
    if r.kind = l.kind then .ok (l.fields = r.fields)
    else .error (.wrongType l.kind.tag r.kind.tag)
  else .error (.wrongType "comparable value" l.kind.tag)

/-- An operator applied to two numbers. -/
def calculate (op : Operator) (a b : Int64) : Except Stuck Shape :=
  match op with
  | .less => .ok (ofBool (a < b))
  | .greater => .ok (ofBool (b < a))
  | op =>
    match op.calculate? a b with
    | some i => .ok (ofInt i)
    | none => .error .overflow

/-- An operator applied to two values. -/
def operate (op : Operator) (l r : Shape) : Except Stuck Shape :=
  match op with
  | .equal => return ofBool (← l.same r)
  | .unequal => return ofBool !(← l.same r)
  | .add =>
    match l.text? with
    | some first => return ofText (first ++ (← r.expect "string" r.text?))
    | none => do
      let a ← l.expect "number or string" l.int?
      calculate .add a (← r.expect "number" r.int?)
  | op => do
    let a ← l.expect "number" l.int?
    let b ← r.expect "number" r.int?
    if op = .div ∧ b = 0 then .error .divisionByZero else calculate op a b

/-- The element of an array at an index. -/
def element (array index : Shape) : Except Stuck Shape := do
  let elements ← array.expect "array" array.elements?
  let i ← index.expect "number" index.int?
  match if 0 ≤ i then elements[i.toInt.toNat]? else none with
  | some v => return v
  | none => .error (.outOfBounds i.toInt elements.length)

/-- What a term comes to whose strict parts are values: the result of an operation, or a branch of a
conditional. A value comes to itself; an expression without the parts of its kind is stuck like a
hole. -/
def reduct : Shape → Except Stuck Shape
  | .mk .not _ _ [v] => return ofBool !(← v.expect "boolean" v.bool?)
  | .mk .binop fields _ [l, r] =>
    match ((fields.get? "op").bind Datum.text?).bind Operator.ofText? with
    | some op => operate op l r
    | none => .error .emptyHole
  | .mk .conditional _ _ [c, positive, negative] =>
    return if ← c.expect "boolean" c.bool? then positive else negative
  | .mk .member _ _ [array, index] => element array index
  | t =>
    match t.kind.category with
    | .value => .ok t
    | .expression => .error .emptyHole

/-! ### Evaluation -/

mutual

/-- The value of a term. -/
def eval : Shape → Except Stuck Shape
  | .mk .conditional _ _ [c, positive, negative] => do
    let c ← c.eval
    if ← c.expect "boolean" c.bool? then positive.eval else negative.eval
  | .mk kind fields names parts => do
    let values ← evalAll parts
    (mk kind fields names values).reduct

/-- The values of some terms, from left to right. -/
def evalAll : List Shape → Except Stuck (List Shape)
  | [] => .ok []
  | t :: ts => do
    let v ← t.eval
    return v :: (← evalAll ts)

end

mutual

/-- The number of nodes in a term that are still to be reduced. -/
def expressions : Shape → Nat
  | .mk kind _ _ parts => (if kind.category = .expression then 1 else 0) + expressionsOf parts

/-- The number of such nodes in some terms. -/
def expressionsOf : List Shape → Nat
  | [] => 0
  | t :: ts => t.expressions + expressionsOf ts

end

/-- A term is a value when nothing in it is to be reduced. -/
def IsValue (t : Shape) : Prop := t.expressions = 0

/-- The parts of a term that are evaluated before anything else is done. -/
def strict (t : Shape) : List Shape :=
  if t.kind = .conditional then t.parts.take 1 else t.parts

section

variable {kind : Kind} {fields : Fields} {names : List String} {parts : List Shape}
  {t v l r : Shape}

theorem evalAll_append (ts us : List Shape) :
    evalAll (ts ++ us) = (do
      let vs ← evalAll ts
      let ws ← evalAll us
      return vs ++ ws) := by
  induction ts with
  | nil =>
    rw [List.nil_append, evalAll, ok_bind]
    cases evalAll us <;> rfl
  | cons t ts ih => simp [evalAll, ih]

theorem expressionsOf_append (ts us : List Shape) :
    expressionsOf (ts ++ us) = expressionsOf ts + expressionsOf us := by
  induction ts with
  | nil => simp [expressionsOf]
  | cons t ts ih => simp [expressionsOf, ih, Nat.add_assoc]

theorem le_expressionsOf (h : t ∈ parts) : t.expressions ≤ expressionsOf parts := by
  obtain ⟨before, after, rfl⟩ := List.append_of_mem h
  rw [expressionsOf_append, expressionsOf]
  lia

theorem eval_of_ne (h : kind ≠ .conditional) :
    (mk kind fields names parts).eval =
      evalAll parts >>= fun values => (mk kind fields names values).reduct := by
  rw [eval]
  intro _ _ _ hk
  exact absurd hk h

/-! ### Values -/

theorem isValue_mk_iff :
    (mk kind fields names parts).IsValue ↔ kind.category = .value ∧ ∀ p ∈ parts, p.IsValue := by
  have hparts : expressionsOf parts = 0 ↔ ∀ p ∈ parts, p.IsValue := by
    induction parts with
    | nil => simp [expressionsOf]
    | cons p parts ih => simp [expressionsOf, IsValue, ih]
  rw [← hparts, IsValue, expressions, Nat.add_eq_zero_iff]
  cases kind <;> simp [Kind.category]

theorem reduct_of_value (hk : kind.category = .value) :
    (mk kind fields names parts).reduct = .ok (mk kind fields names parts) := by
  cases kind <;> first | rfl | cases hk

theorem evalAll_of_values (h : ∀ p ∈ parts, p.eval = .ok p) : evalAll parts = .ok parts := by
  induction parts with
  | nil => rfl
  | cons p parts ih =>
    rw [evalAll, h p List.mem_cons_self, ok_bind, ih fun q hq => h q (List.mem_cons_of_mem _ hq)]
    rfl

/-- A value evaluates to itself. -/
theorem IsValue.eval_eq (h : t.IsValue) : t.eval = .ok t := by
  induction t using induct with
  | step kind fields names parts ih =>
    obtain ⟨hk, hparts⟩ := isValue_mk_iff.1 h
    have hne : kind ≠ .conditional := by
      rintro rfl
      cases hk
    rw [eval_of_ne hne, evalAll_of_values fun p hp => ih p hp (hparts p hp), ok_bind,
      reduct_of_value hk]

theorem isValue_ofBool (b : Bool) : (ofBool b).IsValue := rfl

theorem isValue_ofInt (i : Int64) : (ofInt i).IsValue := rfl

theorem isValue_ofText (text : String) : (ofText text).IsValue := rfl

theorem isValue_of_calculate {op : Operator} {a b : Int64} (h : calculate op a b = .ok v) :
    v.IsValue := by
  unfold calculate at h
  split at h
  · exact Except.ok.inj h ▸ isValue_ofBool _
  · exact Except.ok.inj h ▸ isValue_ofBool _
  · split at h
    · exact Except.ok.inj h ▸ isValue_ofInt _
    · cases h

theorem isValue_of_operate {op : Operator} (h : operate op l r = .ok v) : v.IsValue := by
  unfold operate at h
  split at h
  · obtain ⟨b, -, h⟩ := bind_eq_ok_iff.1 h
    exact Except.ok.inj h ▸ isValue_ofBool _
  · obtain ⟨b, -, h⟩ := bind_eq_ok_iff.1 h
    exact Except.ok.inj h ▸ isValue_ofBool _
  · split at h
    · obtain ⟨last, -, h⟩ := bind_eq_ok_iff.1 h
      exact Except.ok.inj h ▸ isValue_ofText _
    · obtain ⟨a, -, h⟩ := bind_eq_ok_iff.1 h
      obtain ⟨b, -, h⟩ := bind_eq_ok_iff.1 h
      exact isValue_of_calculate h
  · obtain ⟨a, -, h⟩ := bind_eq_ok_iff.1 h
    obtain ⟨b, -, h⟩ := bind_eq_ok_iff.1 h
    split at h
    · cases h
    · exact isValue_of_calculate h

theorem isValue_of_element {array index : Shape} (ha : array.IsValue)
    (h : element array index = .ok v) : v.IsValue := by
  obtain ⟨elements, helements, h⟩ := bind_eq_ok_iff.1 h
  obtain ⟨i, -, h⟩ := bind_eq_ok_iff.1 h
  split at h
  · next w hw =>
    cases h
    split at hw
    · obtain ⟨kind, fields, names, parts⟩ := array
      obtain rfl : elements = parts := by
        cases kind <;> cases helements
        rfl
      exact (isValue_mk_iff.1 ha).2 _ (List.mem_of_getElem? hw)
    · cases hw
  · cases h

/-! ### Terms that are ready -/

/-- An expression is ready to be reduced when its strict parts are values. A conditional has two
branches besides. -/
structure Ready (t : Shape) : Prop where
  expression : t.kind.category = .expression
  values : ∀ p ∈ t.strict, p.IsValue
  branches : t.kind = .conditional → t.parts.length = 3

namespace Ready

/-- What a term that is ready comes to is a value, or a branch. -/
theorem reduct_cases (h : t.Ready) (hv : t.reduct = .ok v) :
    (t.kind ≠ .conditional ∧ v.IsValue) ∨ (t.kind = .conditional ∧ v ∈ t.parts) := by
  have hvalues := h.values
  unfold reduct at hv
  split at hv
  · obtain ⟨b, -, hv⟩ := bind_eq_ok_iff.1 hv
    exact .inl ⟨nofun, Except.ok.inj hv ▸ isValue_ofBool _⟩
  · split at hv
    · exact .inl ⟨nofun, isValue_of_operate hv⟩
    · cases hv
  · next c positive negative =>
    obtain ⟨b, -, hv⟩ := bind_eq_ok_iff.1 hv
    refine .inr ⟨rfl, ?_⟩
    cases b <;> cases hv <;> simp [Shape.parts]
  · exact .inl ⟨nofun, isValue_of_element (hvalues _ (by simp [strict, Shape.parts, Shape.kind])) hv⟩
  · rw [h.expression] at hv
    cases hv

theorem expressions_reduct_lt (h : t.Ready) (hv : t.reduct = .ok v) :
    v.expressions < t.expressions := by
  have hparts : expressionsOf t.parts < t.expressions := by
    obtain ⟨kind, fields, names, parts⟩ := t
    rw [expressions, if_pos (show kind.category = _ from h.expression)]
    exact Nat.lt_add_of_pos_left Nat.zero_lt_one
  rcases h.reduct_cases hv with ⟨-, hv⟩ | ⟨-, hmem⟩
  · exact Nat.lt_of_le_of_lt (Nat.le_of_eq hv) (Nat.zero_lt_of_lt hparts)
  · exact Nat.lt_of_le_of_lt (le_expressionsOf hmem) hparts

/-- Evaluation of a term that is ready begins by reducing it. -/
theorem eval_eq (h : t.Ready) : t.eval = t.reduct >>= eval := by
  obtain ⟨kind, fields, names, parts⟩ := t
  by_cases hk : kind = .conditional
  · subst hk
    obtain ⟨c, positive, negative, rfl⟩ := List.length_eq_three.1 (h.branches rfl)
    have hc : c.IsValue := h.values c List.mem_cons_self
    rw [eval, hc.eval_eq, ok_bind, reduct]
    cases c.expect "boolean" c.bool? with
    | error e => rfl
    | ok b => cases b <;> rfl
  · have hvalues : ∀ p ∈ parts, p.IsValue := by
      simpa [strict, Shape.kind, Shape.parts, hk] using h.values
    rw [eval_of_ne hk, evalAll_of_values fun p hp => (hvalues p hp).eval_eq, ok_bind]
    cases hv : (Shape.mk kind fields names parts).reduct with
    | error e => rfl
    | ok v =>
      rcases h.reduct_cases hv with ⟨-, hv⟩ | ⟨hk', -⟩
      · exact hv.eval_eq.symm
      · exact absurd hk' hk

end Ready

/-! ### Places that evaluation comes to first -/

/-- The terms are the same, except that `t` has `r` where `t'` has `r'`, at a place that is strict
and has only values before it, all the way down. -/
inductive Differs (r r' : Shape) : Shape → Shape → Prop
  | here : Differs r r' r r'
  | inside {kind : Kind} {fields : Fields} {names : List String} {before after : List Shape}
      {t t' : Shape} (values : ∀ v ∈ before, v.IsValue) (first : kind = .conditional → before = [])
      (part : Differs r r' t t') :
      Differs r r' (.mk kind fields names (before ++ t :: after))
        (.mk kind fields names (before ++ t' :: after))

namespace Differs

variable {r' t' : Shape}

/-- Evaluation of either term goes on from the value of what stands there, in the same way. -/
theorem exists_eval_eq (h : Differs r r' t t') :
    ∃ k : Shape → Except Stuck Shape, t.eval = r.eval >>= k ∧ t'.eval = r'.eval >>= k := by
  induction h with
  | here => exact ⟨.ok, (bind_pure _).symm, (bind_pure _).symm⟩
  | @inside kind fields names before after t t' values first _ ih =>
    obtain ⟨k, ht, ht'⟩ := ih
    suffices h : ∃ k, ∀ u : Shape,
        (Shape.mk kind fields names (before ++ u :: after)).eval = u.eval >>= k by
      obtain ⟨k', hk⟩ := h
      exact ⟨fun v => k v >>= k', by rw [hk, ht, bind_assoc], by rw [hk, ht', bind_assoc]⟩
    have hall : ∃ k, ∀ u : Shape, (evalAll (before ++ u :: after) >>= fun values =>
        (Shape.mk kind fields names values).reduct) = u.eval >>= k := by
      refine ⟨fun v => evalAll after >>= fun vs =>
        (Shape.mk kind fields names (before ++ v :: vs)).reduct, fun u => ?_⟩
      rw [evalAll_append, evalAll_of_values fun p hp => (values p hp).eval_eq]
      simp [evalAll]
    by_cases hk : kind = .conditional
    · subst hk
      obtain rfl := first rfl
      rcases after with _ | ⟨positive, _ | ⟨negative, _ | ⟨_, _⟩⟩⟩
      case cons.cons.nil => exact ⟨_, fun u => rfl⟩
      all_goals exact hall
    · simpa only [eval_of_ne hk] using hall

theorem expressions_add (h : Differs r r' t t') :
    t'.expressions + r.expressions = t.expressions + r'.expressions := by
  induction h with
  | here => exact Nat.add_comm ..
  | inside _ _ _ ih =>
    rw [expressions, expressions, expressionsOf_append, expressionsOf_append, expressionsOf,
      expressionsOf]
    lia

end Differs

end

end Shape

end TermForest
