import TermForest.Proofs.Rule.Refusal
import TermForest.Proofs.Rule.Substitute

/-!
# Reducing a node that passed its check

An expression that passed its check is reduced to a plant that sprouts, or its reduction is put off, or
it asks for more than numbers and `repeat` allow and is refused. It never ends in a fault.
-/

namespace TermForest

open Supply (Meets)

/-- A rule leaves a plant that sprouts or a call that can be finished. -/
def Outcome.Fits (F : Forest) (lo hi : Nat) : Outcome → Prop
  | .replaced w => ∃ u : Plant, w.root = u.id ∧ F.Sprouts w.forest lo hi u
  | .deferred e => e.Fits F
  | .noRule => False

/-- A rule leaves a plant of a given shape that sprouts. -/
def Outcome.Builds (F : Forest) (lo hi : Nat) (shape : Shape) (o : Outcome) : Prop :=
  ∃ (w : Replacement) (u : Plant), o = .replaced w ∧ w.root = u.id ∧ F.Sprouts w.forest lo hi u ∧
    u.shape = shape

theorem Outcome.Builds.fits {F : Forest} {lo hi : Nat} {shape : Shape} {o : Outcome}
    (h : o.Builds F lo hi shape) : o.Fits F lo hi := by
  obtain ⟨w, u, rfl, hw, hu, -⟩ := h
  exact ⟨u, hw, hu⟩

/-! ### Limits -/

/-- What an operator makes of two integers of any size. Division drops the fraction. -/
def Operator.unbounded? (op : Operator) (a b : Int) : Option Int :=
  match op with
  | .add => some (a + b)
  | .sub => some (a - b)
  | .mul => some (a * b)
  | .div => if b = 0 then none else some (a.tdiv b)
  | .less | .greater | .equal | .unequal => none

theorem Operator.calculate?_eq (op : Operator) (a b : Int64) :
    op.calculate? a b = (op.unbounded? a.toInt b.toInt).bind int64? := by
  cases op with
  | div =>
    simp only [calculate?, unbounded?]
    split <;> rfl
  | add | sub | mul | less | greater | equal | unequal => rfl

/-- The node of an id is a number. -/
def Forest.NumberAt (F : Forest) (id : NodeId) (i : Int64) : Prop :=
  ∃ n, F.get? id = some n ∧ n.kind = .number ∧ n.int? "value" = some i

/-- What is refused although it has passed its check. -/
inductive State.Exceeds (s : State) (most : Int64) (n : Node) : Rejection → Prop where
  /-- The result of an operator on two numbers does not fit 64 bits. -/
  | overflow (op : Operator) (left right : NodeId) (a b : Int64) (value : Int)
      (kind : n.kind = .binop) (text : n.text? "op" = some op.text)
      (onLeft : n.slots.get? "left" = some left) (leftNumber : s.nodes.NumberAt left a)
      (onRight : n.slots.get? "right" = some right) (rightNumber : s.nodes.NumberAt right b)
      (exact : op.unbounded? a.toInt b.toInt = some value)
      (outside : value < Int64.minValue.toInt ∨ Int64.maxValue.toInt < value) :
      Exceeds s most n (.builtin n.id "arithmetic overflow")
  /-- `repeat` is to go on for less than no or more than `most` times. -/
  | count (count : NodeId) (times : Int64) (kind : n.kind = .reference)
      (name : n.name? = some "repeat") (first : n.slots.children[0]? = some count)
      (number : s.nodes.NumberAt count times) (outside : times < 0 ∨ most < times) :
      Exceeds s most n (.builtin count
        s!"repeat count must be between 0 and {most.toInt}, got {times.toInt}")

/-- A refusal of what exceeds a limit. -/
def Failure.Exceeds (s : State) (most : Int64) (n : Node) (e : Failure) : Prop :=
  ∃ why, e = .rejected why ∧ s.Exceeds most n why

/-- An exceeded limit is put down to the operation or to the count. -/
theorem Failure.Exceeds.blames {s : State} {most : Int64} {n : Node} {e : Failure}
    (h : e.Exceeds s most n) : e.Blames s.nodes n := by
  obtain ⟨why, he, hwhy⟩ := h
  refine ⟨why, he, ?_⟩
  cases hwhy with
  | overflow => exact .self
  | count count times kind name first => exact .child (List.mem_of_getElem? first)

namespace Forest.Stocked

variable {F : Forest} {next : Nat}

/-- The children of two children of a node are different. -/
theorem nodup_grandchildren (h : F.Stocked next) {id left right : NodeId} {n l r : Node}
    (hn : F.get? id = some n) (hleft : n.slots.children[0]? = some left)
    (hright : n.slots.children[1]? = some right) (hl : F.get? left = some l)
    (hr : F.get? right = some r) : (l.slots.children ++ r.slots.children).Nodup := by
  obtain ⟨t, rfl, ht, hnodup, -⟩ := h id n hn
  rw [ht.children, List.getElem?_map, Option.map_eq_some_iff] at hleft hright
  obtain ⟨p, hp, rfl⟩ := hleft
  obtain ⟨q, hq, rfl⟩ := hright
  have hpmem := List.mem_of_getElem? hp
  have hqmem := List.mem_of_getElem? hq
  have hpheld := ht.of_mem_subs (Plant.mem_subs_of_mem_parts hpmem)
  have hqheld := ht.of_mem_subs (Plant.mem_subs_of_mem_parts hqmem)
  rw [hpheld.get?_id, Option.some.injEq] at hl
  rw [hqheld.get?_id, Option.some.injEq] at hr
  subst hl hr
  have hsub : ∀ {u : Plant} {c : NodeId}, F.Holds u → c ∈ u.root.slots.children → c ∈ u.ids := by
    intro u c hu hc
    rw [hu.children, List.mem_map] at hc
    obtain ⟨v, hv, rfl⟩ := hc
    exact Plant.ids_subset_of_mem_subs (Plant.mem_subs_of_mem_parts hv) v.id_mem_ids
  -- parts at two positions have no id in common
  have hdisjoint : ∀ x ∈ p.ids, x ∉ q.ids := by
    obtain ⟨root, parts⟩ := t
    rw [Plant.ids_mk, List.nodup_append, List.nodup_flatMap, List.pairwise_iff_getElem] at hnodup
    obtain ⟨hi, hp⟩ := List.getElem?_eq_some_iff.1 hp
    obtain ⟨hj, hq⟩ := List.getElem?_eq_some_iff.1 hq
    have hd : List.Disjoint _ _ := hnodup.1.2 0 1 hi hj Nat.zero_lt_one
    simp only [Plant.parts_mk] at hp hq
    subst hp hq
    exact fun x hx hx' => hd hx hx'
  refine List.nodup_append.2 ⟨h.nodup_children hpheld.get?_id, h.nodup_children hqheld.get?_id,
    fun a ha b hb e => ?_⟩
  exact hdisjoint a (hsub hpheld ha) (e ▸ hsub hqheld hb)

end Forest.Stocked

namespace State

variable {s : State} {lo : Nat} {n : Node}

theorem exists_of_definition? {name : String} {d : Node} (h : s.definition? name = some d) :
    ∃ id, s.nodes.get? id = some d ∧ d.kind = .define := by
  obtain ⟨id, -, hid⟩ := List.mem_filterMap.1 (List.mem_of_find?_eq_some h)
  have hd := List.find?_some h
  exact ⟨id, hid, (by simpa using hd : d.kind = .define ∧ _).1⟩

/-! ### Results -/

/-- A new node without slots. -/
theorem builds_replaceBy {ε : Type} {E : ε → Prop} (f : NodeId → Node) (hid : (f lo).id = lo)
    (hs : (f lo).slots.entries = []) (hp : (f lo).parent = none) (hps : (f lo).parentSlot = none)
    (hf : (f lo).Formed (lo + 1)) (hl : (f lo).locked = false) :
    (do let id ← Supply.take; return s.replaceBy (f id) : Supply ε Outcome).Meets lo
      (fun o hi => o.Builds s.nodes lo hi (.mk (f lo).kind (f lo).fields [] [])) E := by
  refine .take_bind (.pure ⟨_, .mk (f lo) [], rfl, rfl,
    Forest.sprouts_insert (by lia) (by lia) hs hp hps hf hl, ?_⟩)
  rw [Plant.shape_mk, Slots.names, hs]
  rfl

theorem meets_replaceBy {ε : Type} {E : ε → Prop} (f : NodeId → Node) (hid : (f lo).id = lo)
    (hs : (f lo).slots.entries = []) (hp : (f lo).parent = none) (hps : (f lo).parentSlot = none)
    (hf : (f lo).Formed (lo + 1)) (hl : (f lo).locked = false) :
    (do let id ← Supply.take; return s.replaceBy (f id) : Supply ε Outcome).Meets lo
      (fun o hi => o.Fits s.nodes lo hi) E :=
  (builds_replaceBy f hid hs hp hps hf hl).imp (fun _ _ _ ho => ho.fits) fun _ => id

theorem meets_replaceByBool {ε : Type} {E : ε → Prop} (b : Bool) :
    (do let id ← Supply.take; return s.replaceBy (.ofBool id b) : Supply ε Outcome).Meets lo
      (fun o hi => o.Fits s.nodes lo hi) E :=
  meets_replaceBy (fun id => .ofBool id b) rfl rfl rfl rfl
    (Node.formed_withField rfl rfl (by decide) (by decide) rfl) rfl

theorem meets_replaceByInt {ε : Type} {E : ε → Prop} (i : Int64) :
    (do let id ← Supply.take; return s.replaceBy (.ofInt id i) : Supply ε Outcome).Meets lo
      (fun o hi => o.Fits s.nodes lo hi) E :=
  meets_replaceBy (fun id => .ofInt id i) rfl rfl rfl rfl
    (Node.formed_withField rfl rfl (by decide) (by decide) rfl) rfl

theorem meets_replaceByText {ε : Type} {E : ε → Prop} (text : String) :
    (do let id ← Supply.take; return s.replaceBy (.ofText id text) : Supply ε Outcome).Meets lo
      (fun o hi => o.Fits s.nodes lo hi) E :=
  meets_replaceBy (fun id => .ofText id text) rfl rfl rfl rfl
    (Node.formed_withField rfl rfl (by decide) (by decide) rfl) rfl

theorem meets_replaceByEdit {edit : Editing NodeId} {E : Fault → Prop}
    (h : (edit.run s.nodes).Meets lo
      (fun o hi => ∃ u : Plant, o.1 = u.id ∧ s.nodes.Sprouts o.2 lo hi u) E) :
    (s.replaceByEdit edit).Meets lo (fun o hi => o.Fits s.nodes lo hi) E := by
  rw [replaceByEdit, Editing.replacement, bind_assoc]
  refine h.bind ?_
  rintro ⟨_, G⟩ hi - ⟨u, rfl, hu⟩
  exact .pure ⟨u, rfl, hu⟩

/-- What an edit builds stands in place of the reduced node. -/
theorem builds_replaceByEdit {edit : Editing NodeId} {shape : Shape} {E : Fault → Prop}
    (h : (edit.run s.nodes).Meets lo
      (fun o hi => ∃ u : Plant, o.1 = u.id ∧ s.nodes.Sprouts o.2 lo hi u ∧ u.shape = shape) E) :
    (s.replaceByEdit edit).Meets lo (fun o hi => o.Builds s.nodes lo hi shape) E := by
  rw [replaceByEdit, Editing.replacement, bind_assoc]
  refine h.bind ?_
  rintro ⟨_, G⟩ hi - ⟨u, rfl, hu, hshape⟩
  exact .pure ⟨_, u, rfl, rfl, hu, hshape⟩

/-! ### Rules -/

/-- Calculating with two numbers gives a number or a truth value, or is refused because the result is
out of range. -/
theorem meets_calculate (op : Operator) {l r : Node} {a b : Int64}
    (ha : l.needInt "value" = .ok a) (hb : r.needInt "value" = .ok b) :
    (reduceBinop.calculate s n op l r).Meets lo (fun o hi => o.Fits s.nodes lo hi) fun e =>
      e = .rejected (.builtin n.id "arithmetic overflow") ∧ op.calculate? a b = none ∧
        op ≠ .less ∧ op ≠ .greater := by
  simp only [reduceBinop.calculate, Supply.liftM_fault_ok ha, Supply.liftM_fault_ok hb, pure_bind]
  split
  · exact meets_replaceByBool _
  · exact meets_replaceByBool _
  · next hless hgreater =>
    split
    · exact meets_replaceByInt _
    · next hnone => exact .throw ⟨rfl, hnone, hless, hgreater⟩

variable (hF : s.nodes.Stocked lo)
include hF

theorem meets_reduceConditional (hn : s.nodes.get? n.id = some n) (hk : n.kind = .conditional)
    {S : Signature} (hc : S.check s n = .ok ()) :
    (s.reduceConditional n).Meets lo (fun o hi => o.Fits s.nodes lo hi) fun _ => False := by
  have hslots : n.declaredSlots = ["condition", "positive", "negative"] := by
    rw [Node.declaredSlots, hk]
  obtain ⟨condition, m, -, hcondition, hm⟩ :=
    hF.exists_declared hn (by simp [hk]) "condition" (by simp [hslots])
  have hbool : m.kind = .boolean := by
    simp only [Signature.check, hk, bind_eq_ok_iff, liftM_eq_ok_iff, hcondition,
      Except.ok.injEq, exists_eq_left'] at hc
    exact Signature.kind_boolean_of_requireType hc hm
  obtain ⟨b, -, hb⟩ := (hF.formed hm).exists_boolean hbool
  obtain ⟨branch, m', -, hbranch, hm'⟩ := hF.exists_declared hn (by simp [hk])
    (if b then "positive" else "negative") (by cases b <;> simp [hslots])
  simp only [reduceConditional, Supply.liftM_ok hcondition, pure_bind,
    Supply.liftM_ok (Forest.find_eq_ok_iff.2 hm), Supply.liftM_ok hb, Supply.liftM_ok hbranch]
  exact meets_replaceByEdit (Editing.meets_copyOf_of_stocked hF (fun _ _ => rfl) (Nat.le_refl _) hm')

theorem meets_reduceNot (hn : s.nodes.get? n.id = some n) (hk : n.kind = .not) {S : Signature}
    (hc : S.check s n = .ok ()) :
    (s.reduceNot n).Meets lo (fun o hi => o.Fits s.nodes lo hi) fun _ => False := by
  obtain ⟨value, m, -, hvalue, hm⟩ := hF.exists_declared hn (by simp [hk]) "value"
    (by simp [Node.declaredSlots, hk])
  have hbool : m.kind = .boolean := by
    simp only [Signature.check, hk, bind_eq_ok_iff, liftM_eq_ok_iff, hvalue, Except.ok.injEq,
      exists_eq_left'] at hc
    exact Signature.kind_boolean_of_requireType hc hm
  obtain ⟨b, -, hb⟩ := (hF.formed hm).exists_boolean hbool
  simp only [reduceNot, Supply.liftM_ok hvalue, pure_bind,
    Supply.liftM_ok (Forest.find_eq_ok_iff.2 hm), Supply.liftM_ok hb]
  exact meets_replaceByBool _

/-- An access to an array at one of its positions is reduced to a copy of the element there. -/
theorem meets_element {array index : NodeId} {a : Node} {position : Int64} {p : Plant}
    (harray : n.needSlot "array" = .ok array) (hindex : n.needSlot "index" = .ok index)
    (ha : s.nodes.get? array = some a) (hposition : s.nodes.number index = .ok position)
    (hp : a.needSlot (elementSlot position.toInt.toNat) = .ok p.id) (hheld : s.nodes.Holds p) :
    (s.reduceMember n).Meets lo (fun o hi => o.Builds s.nodes lo hi p.shape) fun _ => False := by
  simp only [reduceMember, Supply.liftM_ok harray, Supply.liftM_ok hindex, pure_bind,
    Supply.liftM_ok (Forest.find_eq_ok_iff.2 ha), Supply.liftM_ok hposition, Supply.liftM_ok hp]
  exact builds_replaceByEdit
    (Editing.meets_copyOf_of_holds hF (fun _ _ => rfl) (Nat.le_refl _) hheld)

theorem meets_reduceMember (hn : s.nodes.get? n.id = some n) (hk : n.kind = .member)
    {S : Signature} (hc : S.check s n = .ok ()) :
    (s.reduceMember n).Meets lo (fun o hi => o.Fits s.nodes lo hi) fun _ => False := by
  have hslots : n.declaredSlots = ["array", "index"] := by rw [Node.declaredSlots, hk]
  obtain ⟨array, a, harray', harray, ha⟩ :=
    hF.exists_declared hn (by simp [hk]) "array" (by simp [hslots])
  obtain ⟨index, i, hindex', hindex, hi⟩ :=
    hF.exists_declared hn (by simp [hk]) "index" (by simp [hslots])
  rw [Signature.check, hk] at hc
  obtain ⟨hka, -, position, length, hposition, hlength, h0, hlt⟩ :=
    Signature.checkMember_ok hc harray' hindex' ha hi
  obtain ⟨c, hc⟩ := (hF.formed ha).exists_element hka hlength h0 hlt
  obtain ⟨m, hm⟩ := hF.exists_child ha (Slots.mem_children_iff.2 ⟨_, hc⟩)
  obtain ⟨p, rfl, hp, -⟩ := hF c m hm
  obtain rfl := Forest.id_of_get? hm
  exact (meets_element hF harray hindex ha hposition (Node.needSlot_eq_ok_iff.2 hc) hp).imp
    (fun _ _ _ ho => ho.fits) fun _ => id

/-- An application of a named function with an open parameter is reduced to a copy of the function whose
first hole is filled with a copy of the argument. -/
theorem meets_supply {f v : Plant} (hcallee : n.needSlot "callee" = .ok f.id)
    (hargument : n.needSlot "argument" = .ok v.id) (hf : s.nodes.Holds f) (hv : s.nodes.Holds v)
    (hk : f.root.kind = .reference) (hopen : (s.nodes.openParameter? f.root).isSome = true) :
    (s.reduceApply n).Meets lo
      (fun o hi => o.Builds s.nodes lo hi (.mk .reference f.root.fields f.root.slots.names
        (Shape.fill (f.parts.map Plant.shape) [v.shape])))
      fun _ => False := by
  simp only [reduceApply, Supply.liftM_ok hcallee, Supply.liftM_ok hargument, pure_bind,
    Supply.liftM_ok (Forest.find_eq_ok_iff.2 hf.get?_id), hk]
  refine builds_replaceByEdit ((Editing.meets_supplyArgument hF hf hk hv).imp (fun _ _ _ h => h)
    fun _ hnone => ?_)
  rw [hnone] at hopen
  cases hopen

theorem meets_reduceApply (hn : s.nodes.get? n.id = some n) (hk : n.kind = .apply)
    {S : Signature} (hc : S.check s n = .ok ()) :
    (s.reduceApply n).Meets lo (fun o hi => o.Fits s.nodes lo hi) fun _ => False := by
  have hslots : n.declaredSlots = ["callee", "argument"] := by rw [Node.declaredSlots, hk]
  obtain ⟨callee, f, hcallee', hcallee, hf⟩ :=
    hF.exists_declared hn (by simp [hk]) "callee" (by simp [hslots])
  obtain ⟨argument, m, -, hargument, hm⟩ :=
    hF.exists_declared hn (by simp [hk]) "argument" (by simp [hslots])
  rw [Signature.check, hk] at hc
  rcases Signature.checkApply_ok hc hcallee' hf with
    ⟨hkf, arg, binder, harg, hbinder, hkb⟩ | ⟨hkf, hopen⟩
  · simp only [reduceApply, Supply.liftM_ok hcallee, Supply.liftM_ok hargument, pure_bind,
      Supply.liftM_ok (Forest.find_eq_ok_iff.2 hf), hkf]
    refine meets_replaceByEdit ((Editing.meets_applyLambda_of_stocked hF hf hkf hm).imp
      (fun _ _ _ h => h) ?_)
    exact fun _ h => h arg binder harg hbinder hkb
  · obtain ⟨t, rfl, ht, -⟩ := hF callee f hf
    obtain ⟨v, rfl, hv, -⟩ := hF argument m hm
    obtain rfl := Forest.id_of_get? hf
    obtain rfl := Forest.id_of_get? hm
    exact (meets_supply hF hcallee hargument ht hv hkf hopen).imp (fun _ _ _ ho => ho.fits)
      fun _ h => h

theorem meets_reduceBinop (hn : s.nodes.get? n.id = some n) (hk : n.kind = .binop)
    {S : Signature} (most : Int64) (hc : S.check s n = .ok ()) :
    (s.reduceBinop n).Meets lo (fun o hi => o.Fits s.nodes lo hi)
      (Failure.Exceeds s most n) := by
  have hslots : n.declaredSlots = ["left", "right"] := by rw [Node.declaredSlots, hk]
  obtain ⟨left, l, hleft', hleft, hl⟩ :=
    hF.exists_declared hn (by simp [hk]) "left" (by simp [hslots])
  obtain ⟨right, r, hright', hright, hr⟩ :=
    hF.exists_declared hn (by simp [hk]) "right" (by simp [hslots])
  obtain ⟨text, op, htext, hop⟩ := (hF.formed hn).exists_operator hk
  have htext' : n.text? "op" = some op.text := Node.text?_of_operator htext hop
  rw [Signature.check, hk] at hc
  have hfit := Signature.checkBinop_ok hc htext hop hleft' hright' hl hr
  obtain ⟨same, hsame⟩ : ∃ same, sameShape s.nodes left s.nodes right = .ok same := by
    obtain ⟨t, rfl, ht, hnt, -⟩ := hF left l hl
    obtain ⟨u, rfl, hu, hnu, -⟩ := hF right r hr
    obtain rfl := Forest.id_of_get? hl
    obtain rfl := Forest.id_of_get? hr
    obtain ⟨same, hsame, -⟩ := ht.sameShape hnt hu hnu
    exact ⟨same, hsame⟩
  have hnumbers : l.kind = .number → r.kind = .number →
      (∀ a b : Int64, r.int? "value" = some b → op ≠ .less → op ≠ .greater →
        ∃ value, op.unbounded? a.toInt b.toInt = some value) →
      (reduceBinop.calculate s n op l r).Meets lo (fun o hi => o.Fits s.nodes lo hi)
        (Failure.Exceeds s most n) := by
    intro hkl hkr hexact
    obtain ⟨a, ha, ha'⟩ := (hF.formed hl).exists_number hkl
    obtain ⟨b, hb, hb'⟩ := (hF.formed hr).exists_number hkr
    refine (meets_calculate op ha' hb').imp (fun _ _ _ h => h) ?_
    rintro _ ⟨rfl, hnone, hless, hgreater⟩
    obtain ⟨value, hvalue⟩ := hexact a b hb hless hgreater
    rw [Operator.calculate?_eq, hvalue, Option.bind_some, int64?, ite_eq_right_iff] at hnone
    refine ⟨_, rfl, .overflow op left right a b value hk htext' hleft' ⟨l, hl, hkl, ha⟩ hright'
      ⟨r, hr, hkr, hb⟩ hvalue ?_⟩
    by_contra hinside
    rw [not_or, Int.not_lt, Int.not_lt] at hinside
    cases hnone hinside
  simp only [reduceBinop, Supply.liftM_fault_ok htext, Supply.liftM_fault_ok hleft,
    Supply.liftM_fault_ok hright, Supply.liftM_fault_ok (Forest.find_eq_ok_iff.2 hl),
    Supply.liftM_fault_ok (Forest.find_eq_ok_iff.2 hr), Supply.liftM_fault_ok hsame, pure_bind, hop]
  cases op with
  | equal | unequal => exact meets_replaceByBool _
  | add =>
    rcases hfit with ⟨hkl, hkr⟩ | ⟨hkl, hkr⟩
    · obtain ⟨first, -, hfirst⟩ := (hF.formed hl).exists_string hkl
      obtain ⟨last, -, hlast⟩ := (hF.formed hr).exists_string hkr
      simp only [if_pos hkl, Supply.liftM_fault_ok hfirst, Supply.liftM_fault_ok hlast, pure_bind]
      exact meets_replaceByText _
    · simp only [if_neg (show l.kind ≠ .string by simp [hkl])]
      exact hnumbers hkl hkr fun _ _ _ _ _ => ⟨_, rfl⟩
  | sub | mul => exact hnumbers hfit.1 hfit.2 fun _ _ _ _ _ => ⟨_, rfl⟩
  | div =>
    refine hnumbers hfit.1.1 hfit.1.2 fun a b hb _ _ => ⟨_, if_neg fun hzero => hfit.2 ?_⟩
    rw [hb, Int64.toInt.inj (hzero.trans Int64.toInt_zero.symm)]
  | less => exact hnumbers hfit.1 hfit.2 fun _ _ _ h => absurd rfl h
  | greater => exact hnumbers hfit.1 hfit.2 fun _ _ _ _ h => absurd rfl h

/-- A call of `concat` is reduced to an array of copies of the elements of both arguments. -/
theorem meets_concat (most : Int64) (hn : s.nodes.get? n.id = some n) {p q : Plant}
    (hleft : n.slots.children[0]? = some p.id) (hright : n.slots.children[1]? = some q.id)
    (hp : s.nodes.Holds p) (hq : s.nodes.Holds q) :
    (Builtin.concat.apply most s n n.slots.children).Meets lo
      (fun o hi => o.Builds s.nodes lo hi (.array ((p.parts ++ q.parts).map Plant.shape)))
      fun _ => False := by
  have hchildren : p.root.slots.children ++ q.root.slots.children =
      (p.parts ++ q.parts).map Plant.id := by
    rw [hp.children, hq.children, List.map_append]
  have hnodup := hF.nodup_grandchildren hn hleft hright hp.get?_id hq.get?_id
  simp only [Builtin.apply, Supply.liftM_fault_ok (Node.argument_eq_ok_iff.2 hleft),
    Supply.liftM_fault_ok (Node.argument_eq_ok_iff.2 hright),
    Supply.liftM_fault_ok (Forest.find_eq_ok_iff.2 hp.get?_id),
    Supply.liftM_fault_ok (Forest.find_eq_ok_iff.2 hq.get?_id), pure_bind]
  rw [hchildren] at hnodup ⊢
  refine .liftSupply ((builds_replaceByEdit (Editing.meets_joined hF hnodup fun t ht => ?_)).imp
    (fun _ _ _ h => h) nofun)
  rcases List.mem_append.1 ht with ht | ht
  · exact hp.of_mem_subs (Plant.mem_subs_of_mem_parts ht)
  · exact hq.of_mem_subs (Plant.mem_subs_of_mem_parts ht)

omit hF in
/-- A call of `length` is reduced to a number. -/
theorem meets_length (most : Int64) {p : Plant} {length : Int64}
    (harray : n.slots.children[0]? = some p.id) (hp : s.nodes.Holds p)
    (hlength : p.root.needInt "length" = .ok length) :
    (Builtin.length.apply most s n n.slots.children).Meets lo
      (fun o hi => o.Builds s.nodes lo hi
        (.mk .number ((∅ : Fields).insert "value" (.int length)) [] []))
      fun _ => False := by
  simp only [Builtin.apply, Supply.liftM_fault_ok (Node.argument_eq_ok_iff.2 harray),
    Supply.liftM_fault_ok (Forest.find_eq_ok_iff.2 hp.get?_id), Supply.liftM_fault_ok hlength,
    pure_bind]
  exact builds_replaceBy (fun id => .ofInt id length) rfl rfl rfl rfl
    (Node.formed_withField rfl rfl (by decide) (by decide) rfl) rfl

theorem meets_applyBuiltin (hn : s.nodes.get? n.id = some n) (hk : n.kind = .reference)
    (b : Builtin) (hname : n.name? = some b.name) (most : Int64)
    (hfit : b.ArgumentsFit s.nodes n.slots.children) :
    (b.apply most s n n.slots.children).Meets lo (fun o hi => o.Fits s.nodes lo hi)
      (Failure.Exceeds s most n) := by
  cases b with
  | eat =>
    exact meets_replaceBy (fun id => { id, kind := .void }) rfl rfl rfl rfl
      (Node.formed_of_slots rfl rfl) rfl
  | «repeat» =>
    obtain ⟨⟨count, m, hcount, hm, hkm⟩, function, f, hfunction, hf⟩ := hfit
    obtain ⟨times, hneed, htimes⟩ := hF.exists_number hm hkm
    simp only [Builtin.apply, Supply.liftM_fault_ok (Node.argument_eq_ok_iff.2 hcount),
      Supply.liftM_fault_ok htimes, pure_bind]
    split
    · next houtside =>
      exact .throw ⟨_, rfl, .count count times hk hname hcount
        ⟨m, hm, hkm, Node.needInt_eq_ok_iff.1 hneed⟩ houtside⟩
    · exact .pure ⟨rfl, ⟨n, hn⟩, ⟨count, m, times, hcount, hm, hneed⟩, function, f, hfunction, hf⟩
  | length =>
    obtain ⟨array, a, harray, ha, hka⟩ := hfit
    obtain ⟨length, -, hlength⟩ := (hF.formed ha).exists_length hka
    obtain ⟨p, rfl, hp, -⟩ := hF array a ha
    obtain rfl := Forest.id_of_get? ha
    exact (meets_length most harray hp hlength).imp (fun _ _ _ ho => ho.fits) nofun
  | concat =>
    obtain ⟨⟨left, l, hleft, hl, -⟩, right, r, hright, hr, -⟩ := hfit
    obtain ⟨p, rfl, hp, -⟩ := hF left l hl
    obtain ⟨q, rfl, hq, -⟩ := hF right r hr
    obtain rfl := Forest.id_of_get? hl
    obtain rfl := Forest.id_of_get? hr
    exact (meets_concat hF most hn hleft hright hp hq).imp (fun _ _ _ ho => ho.fits) nofun

/-- A reference to a definition is unfolded: to a copy of the body, applied to copies of the arguments
from left to right. -/
theorem meets_unfold {t b : Plant} (ht : s.nodes.Holds t) {S : Signature} (most : Int64)
    {name : String} (hname : t.root.needText "name" = .ok name) (hp : S.builtin? name = none) {d : Node}
    (hd : s.definition? name = some d) (hbody : d.needSlot "body" = .ok b.id)
    (hb : s.nodes.Holds b) :
    (s.reduceReference S most t.root).Meets lo
      (fun o hi => o.Builds s.nodes lo hi ((t.parts.map Plant.shape).foldl .applied b.shape))
      fun _ => False := by
  simp only [reduceReference, Supply.liftM_fault_ok hname, pure_bind, hp, hd, ht.children]
  have hunfold := Editing.meets_unfolding hF hbody hb fun p (hp : p ∈ t.parts) =>
    ht.of_mem_subs (Plant.mem_subs_of_mem_parts hp)
  exact .liftSupply ((builds_replaceByEdit hunfold).imp (fun _ _ _ h => h) nofun)

/-- A definition has a body. -/
theorem exists_body_of_definition? {name : String} {d : Node} (hd : s.definition? name = some d) :
    ∃ b : Plant, d.needSlot "body" = .ok b.id ∧ d.slots.get? "body" = some b.id ∧
      s.nodes.Holds b := by
  obtain ⟨id, hid, hkd⟩ := exists_of_definition? hd
  exact hF.exists_body hid hkd

theorem meets_reduceReference (hn : s.nodes.get? n.id = some n) (hk : n.kind = .reference)
    {S : Signature} (most : Int64) (hc : S.check s n = .ok ()) :
    (s.reduceReference S most n).Meets lo (fun o hi => o.Fits s.nodes lo hi)
      (Failure.Exceeds s most n) := by
  obtain ⟨name, hname', hname⟩ := (hF.formed hn).exists_name (by rw [hk]; decide)
  rw [Signature.check, hk] at hc
  cases hp : S.builtin? name with
  | some p =>
    simp only [reduceReference, Supply.liftM_fault_ok hname, pure_bind, hp]
    exact meets_applyBuiltin hF hn hk p.builtin (by rw [Signature.name_of_builtin? hp, hname']) most
      (Builtin.check_ok (Signature.checkReference_ok hc hname hp).2)
  | none =>
    cases hd : s.definition? name with
    | none =>
      have hdefined := Signature.isSome_definition?_of_checkReference hc hname hp
      rw [hd] at hdefined
      cases hdefined
    | some d =>
      obtain ⟨t, rfl, ht, -⟩ := hF n.id n hn
      obtain ⟨b, hbody, -, hb⟩ := exists_body_of_definition? hF hd
      exact (meets_unfold hF ht most hname hp hd hbody hb).imp (fun _ _ _ ho => ho.fits) nofun

/-- An expression that passed its check is reduced, unless it exceeds a limit. -/
theorem meets_reduce (hn : s.nodes.get? n.id = some n) (hexp : n.kind.category = .expression)
    {S : Signature} (most : Int64) (hc : S.check s n = .ok ()) :
    (s.reduce S most n).Meets lo (fun o hi => o.Fits s.nodes lo hi)
      (Failure.Exceeds s most n) := by
  unfold reduce
  split
  · next hk => exact .liftSupply ((meets_reduceApply hF hn hk hc).imp (fun _ _ _ h => h) nofun)
  · next hk => exact meets_reduceBinop hF hn hk most hc
  · next hk =>
    exact .liftSupply ((meets_reduceConditional hF hn hk hc).imp (fun _ _ _ h => h) nofun)
  · next hk => exact .liftSupply ((meets_reduceNot hF hn hk hc).imp (fun _ _ _ h => h) nofun)
  · next hk => exact .liftSupply ((meets_reduceMember hF hn hk hc).imp (fun _ _ _ h => h) nofun)
  · next hk => exact meets_reduceReference hF hn hk most hc
  -- the check lets no hole and no variable pass, and the other kinds are values
  all_goals
    next hk =>
      rw [hk] at hexp
      simp [Signature.check, hk, Kind.category, bind_eq_ok_iff] at hexp hc

end State

/-- A call of `repeat` that fits names a number and a function. -/
theorem Effect.Fits.exists_function {F : Forest} {lo : Nat} {e : Effect} (he : e.Fits F)
    (hF : F.Stocked lo) : ∃ call count times f taken, F.get? e.node = some call ∧
      e.arguments[0]? = some count ∧ F.number count = .ok times ∧
      e.arguments[1]? = some (Plant.id f) ∧ F.Holds f ∧ F.variableNames f.id = .ok taken := by
  obtain ⟨call, hcall⟩ := he.call
  obtain ⟨count, m, times, hcount, hm, htimes⟩ := he.count
  obtain ⟨function, n, hfunction, hn⟩ := he.function
  obtain ⟨f, rfl, hf, hnodup, -⟩ := hF function n hn
  obtain rfl := Forest.id_of_get? hn
  obtain ⟨taken, htaken⟩ : ∃ taken, F.variableNames f.id = .ok taken := by
    rw [Forest.variableNames, hf.findAll hnodup]
    exact ⟨_, rfl⟩
  refine ⟨call, count, times, f, taken, hcall, hcount, ?_, hfunction, hf, htaken⟩
  rw [Forest.number, Forest.find_eq_ok_iff.2 hm]
  exact htimes

/-- The second phase of a call of `repeat` leaves a lambda around the applications of the function, if
the signature lets it run. -/
theorem Signature.builds_finish {S : Signature} {F : Forest} {lo : Nat} (hF : F.Stocked lo)
    {e : Effect} {p : Primitive} {call : Node} {count : NodeId} {times : Int64} {f : Plant}
    {taken : List String} (hp : S.builtin? e.builtin.name = some p) (hphase : p.secondPhase = true)
    (hcall : F.get? e.node = some call) (hcount : e.arguments[0]? = some count)
    (htimes : F.number count = .ok times) (hfunction : e.arguments[1]? = some f.id)
    (hf : F.Holds f) (htaken : F.variableNames f.id = .ok taken) :
    (S.finish F e).Meets lo
      (fun w hi => ∃ u : Plant, w.root = u.id ∧ F.Sprouts w.forest lo hi u ∧
        u.shape = .lambda (nameOutside taken)
          ((Shape.applied f.shape)^[times.toInt.toNat] (.var (nameOutside taken))))
      fun _ => False := by
  rw [finish, hp]
  dsimp only
  rw [if_pos hphase, Editing.replacement]
  refine (Editing.meets_repeated hF hcall hcount htimes hfunction hf htaken).bind ?_
  rintro ⟨_, G⟩ hi - ⟨u, rfl, hu⟩
  exact .pure ⟨u, rfl, hu⟩

/-- The second phase of a call that is there leaves a plant that sprouts, if the signature lets it
run. -/
theorem Signature.meets_finish {S : Signature} {F : Forest} {lo : Nat} (hF : F.Stocked lo)
    {e : Effect} (he : e.Fits F) :
    (S.finish F e).Meets lo
      (fun w hi => ∃ u : Plant, w.root = u.id ∧ F.Sprouts w.forest lo hi u)
      fun _ => ¬∃ p, S.builtin? e.builtin.name = some p ∧ p.secondPhase = true := by
  obtain ⟨call, count, times, f, taken, hcall, hcount, htimes, hfunction, hf, htaken⟩ :=
    he.exists_function hF
  cases hp : S.builtin? e.builtin.name with
  | none =>
    rw [finish, hp]
    exact .throw (by simp)
  | some p =>
    by_cases hphase : p.secondPhase = true
    · exact (builds_finish hF hp hphase hcall hcount htimes hfunction hf htaken).imp
        (fun _ _ _ ⟨u, hw, hu, _⟩ => ⟨u, hw, hu⟩) nofun
    · rw [finish, hp]
      dsimp only
      rw [if_neg hphase]
      exact .throw (by simpa using hphase)

theorem Signature.Full.exists_finishing {S : Signature} (hS : S.Full) {F : Forest} {e : Effect}
    (he : e.Fits F) : ∃ p, S.builtin? e.builtin.name = some p ∧ p.secondPhase = true := by
  refine ⟨_, hS.builtins _, ?_⟩
  rw [he.repeats]
  rfl

end TermForest
