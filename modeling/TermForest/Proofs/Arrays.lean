import TermForest.Proofs.Reduction

/-!
# Arrays

Arrays are lists of terms. `concat` leaves copies of the elements of both of its arguments, one after
the other, `length` leaves their number, and an access leaves a copy of the element at its index or is
refused. A slot is found by its name, a copy is made in the order of slots, and the length is a field:
the three agree in every state, so the builtins obey the laws of lists.
-/

namespace TermForest

namespace Plant

/-- An array whose slots are named after their positions and whose length counts them. -/
structure Lists (t : Plant) (elements : List Plant) : Prop where
  kind : t.root.kind = .array
  parts : t.parts = elements
  names : t.root.slots.names = (List.range elements.length).map elementSlot
  length : ∃ length, t.root.int? "length" = some length ∧ length.toInt = elements.length

/-- An access to an array at an index. -/
structure Accesses (t array index : Plant) : Prop where
  kind : t.root.kind = .member
  parts : t.parts = [array, index]

/-- The slots of an access lead to the array and to the index. -/
theorem Accesses.needSlot {F : Forest} {t a i : Plant} {next : ℕ} (h : t.Accesses a i)
    (ht : F.Holds t) (hf : t.root.Formed next) :
    t.root.needSlot "array" = .ok a.id ∧ t.root.needSlot "index" = .ok i.id := by
  have hslots : t.root.declaredSlots = ["array", "index"] := by rw [Node.declaredSlots, h.kind]
  have hnames := hf.slots (by simp [h.kind])
  exact ⟨needSlot_eq ht.children hnames (i := 0) (by rw [hslots]; rfl) (by rw [h.parts]; rfl),
    needSlot_eq ht.children hnames (i := 1) (by rw [hslots]; rfl) (by rw [h.parts]; rfl)⟩

/-- An array with the shape of some normal plants as its elements is normal. -/
theorem normal_of_shape_eq_array {u : Plant} {ts : List Plant} (h : ∀ t ∈ ts, t.Normal)
    (hs : u.shape = .array (ts.map shape)) : u.Normal := by
  obtain ⟨hkind, -, -, hparts⟩ := shape_eq_mk_iff.1 hs
  refine .array hkind fun p hp => ?_
  obtain ⟨t, ht, htp⟩ := List.mem_map.1 (hparts ▸ List.mem_map_of_mem hp)
  exact (h t ht).of_shape_eq htp.symm

end Plant

namespace State

variable {s : State} {S : Signature} {most : Int64} {target : NodeId} {t a b : Plant} {next : ℕ}

/-! ### Arrays in states -/

/-- In a well-formed state every array lists its elements. -/
theorem WellFormed.lists (h : s.WellFormed next) (ha : s.nodes.Holds a)
    (hk : a.root.kind = .array) : a.Lists a.parts := by
  have hformed : a.root.Formed 0 := (h.nodes _ _ ha.get?_id).formed 0
  obtain ⟨hnames, hlength, hsize⟩ := hformed.elements hk
  have hcount : a.root.slots.size = a.parts.length := by
    rw [← Slots.length_children, ha.children, List.length_map]
  rw [hcount] at hnames hlength hsize
  exact ⟨hk, rfl, hnames, _, hlength, Node.toInt_ofNat (by omega)⟩

/-- The elements of a normal array are normal. -/
theorem Kept.normal_of_mem_parts (h : s.Kept next) (ha : s.nodes.Holds a)
    (hk : a.root.kind = .array) (hnormal : S.isNormal s.nodes a.id = .ok true) {p : Plant}
    (hp : p ∈ a.parts) : p.Normal := by
  have hshows := ha.tree_shows ((h.linked.hung h.lt).nodup_ids ha)
  cases hshows.normal_of_isNormal hnormal with
  | value _ hne => exact absurd hk hne
  | array _ elements => exact elements p hp
  | function href =>
    rw [hk] at href
    cases href

/-! ### Single steps -/

section

variable (h : s.Finds S target t) (hS : S.Full) (most : Int64)
include h hS

/-- `concat` leaves an array of copies of the elements of both arrays. -/
theorem Finds.exists_concat (hs : s.Kept next) (hc : t.CallsBuiltin .concat [a, b])
    (ha : a.root.kind = .array) (hb : b.root.kind = .array) :
    ∃ s' next' u, (s.step S most target).runFrom next = (.ok (some s'), next') ∧ s'.Kept next' ∧
      s.Grafts t u s' ∧ u.shape = .array ((a.parts ++ b.parts).map Plant.shape) ∧
      ∀ n ∈ u.nodes, n.locked = false ∧ next ≤ n.id ∧ n.id < next' := by
  have hchildren : t.root.slots.children = [a.id, b.id] := by
    rw [h.held.children, hc.parts]
    rfl
  have hheld : s.nodes.Holds a ∧ s.nodes.Holds b :=
    ⟨h.held.of_mem_subs (Plant.mem_subs_of_mem_parts (by simp [hc.parts])),
      h.held.of_mem_subs (Plant.mem_subs_of_mem_parts (by simp [hc.parts]))⟩
  have hcheck : S.check s t.root = .ok () := by
    rw [hs.check_of_callsBuiltin hS h.held hc rfl (by simp [ha, hb]), Builtin.check,
      liftM_eq_ok_iff.2 (Node.argument_eq_ok_iff.2 rfl), ok_bind,
      hS.requireType_eq_ok hheld.1.get?_id (by rw [Node.coarseType, ha]) (by decide), ok_bind,
      liftM_eq_ok_iff.2 (Node.argument_eq_ok_iff.2 rfl), ok_bind,
      hS.requireType_eq_ok hheld.2.get?_id (by rw [Node.coarseType, hb]) (by decide)]
  refine h.exists_step hs hS hcheck ?_
  rw [reduce_of_callsBuiltin hS hc]
  exact meets_concat hs.stocked most h.held.get?_id (by rw [hchildren]; rfl) (by rw [hchildren]; rfl)
    hheld.1 hheld.2

/-- `length` leaves the number of elements. -/
theorem Finds.exists_length {elements : List Plant} (hs : s.Kept next)
    (hc : t.CallsBuiltin .length [a]) (ha : a.Lists elements) :
    ∃ s' next' u length, (s.step S most target).runFrom next = (.ok (some s'), next') ∧
      s.Grafts t u s' ∧ u.IsNumber length ∧ length.toInt = elements.length := by
  have hheld : s.nodes.Holds a := h.held.of_mem_subs (Plant.mem_subs_of_mem_parts (by simp [hc.parts]))
  have hcheck : S.check s t.root = .ok () := by
    rw [hs.check_of_callsBuiltin hS h.held hc rfl (by simp [ha.kind]), Builtin.check,
      liftM_eq_ok_iff.2 (Node.argument_eq_ok_iff.2 rfl), ok_bind,
      hS.requireType_eq_ok hheld.get?_id (by rw [Node.coarseType, ha.kind]) (by decide)]
  obtain ⟨length, hlength, hcount⟩ := ha.length
  have harray : t.root.slots.children[0]? = some a.id := by
    rw [h.held.children, hc.parts]
    rfl
  have hreduce : (s.reduce S most t.root).Meets next
      (fun o hi => o.Builds s.nodes next hi
        (.mk .number ((∅ : Fields).insert "value" (.int length)) [] []))
      fun _ => False := by
    rw [reduce_of_callsBuiltin hS hc]
    exact meets_length most harray hheld (Node.needInt_eq_ok_iff.2 hlength)
  obtain ⟨s', next', u, hstep, -, hgrafts, hshape, -⟩ := h.exists_step hs hS hcheck hreduce
  obtain ⟨hkind, hfields, -⟩ := Plant.shape_eq_mk_iff.1 hshape
  refine ⟨s', next', u, length, hstep, hgrafts, ⟨hkind, ?_⟩, hcount⟩
  rw [Node.int?, Node.field?, hfields]
  simp [Datum.int?]

variable {i : Plant} {position : Int64} {elements : List Plant} (hs : s.Kept next)
  (hacc : t.Accesses a i) (ha : a.Lists elements) (hi : i.IsNumber position)
include hs hacc ha hi

omit most in
/-- Whether an access passes its check is up to its index. -/
theorem Finds.check_of_accesses : ∃ length : Int64, length.toInt = elements.length ∧
    S.check s t.root = if position < 0 ∨ length ≤ position then
      refuse (.builtin i.id
        s!"index {position.toInt} is out of bounds for an array of length {length.toInt}")
      else .ok () := by
  obtain ⟨-, -, hformed⟩ := hs.stocked.of_holds h.held
  obtain ⟨length, hlength, hcount⟩ := ha.length
  obtain ⟨harray, hindex⟩ := hacc.needSlot h.held hformed.root
  have hai : s.nodes.Holds a ∧ s.nodes.Holds i :=
    ⟨h.held.of_mem_subs (Plant.mem_subs_of_mem_parts (by simp [hacc.parts])),
      h.held.of_mem_subs (Plant.mem_subs_of_mem_parts (by simp [hacc.parts]))⟩
  have hnumber := hi.number_eq hai.2
  refine ⟨length, hcount, ?_⟩
  rw [Signature.check, hacc.kind]
  dsimp only
  rw [Signature.checkMember, liftM_eq_ok_iff.2 harray, ok_bind, liftM_eq_ok_iff.2 hindex, ok_bind,
    hS.requireType_eq_ok hai.1.get?_id (by rw [Node.coarseType, ha.kind]) (by decide), ok_bind,
    hS.requireType_eq_ok hai.2.get?_id (by rw [Node.coarseType, hi.kind]) (by decide), ok_bind,
    liftM_eq_ok_iff.2 hnumber, ok_bind, liftM_eq_ok_iff.2 (Forest.find_eq_ok_iff.2 hai.1.get?_id),
    ok_bind, liftM_eq_ok_iff.2 (Node.needInt_eq_ok_iff.2 hlength), ok_bind]
  rfl

/-- An access at a position of the array leaves a copy of the element there. -/
theorem Finds.exists_member {k : ℕ} {p : Plant} (hk : position.toInt = k)
    (hp : elements[k]? = some p) :
    ∃ s' next' u, (s.step S most target).runFrom next = (.ok (some s'), next') ∧
      s.Grafts t u s' ∧ u.shape = p.shape ∧
      ∀ n ∈ u.nodes, n.locked = false ∧ next ≤ n.id ∧ n.id < next' := by
  obtain ⟨-, -, hformed⟩ := hs.stocked.of_holds h.held
  obtain ⟨harray, hindex⟩ := hacc.needSlot h.held hformed.root
  have hheld : s.nodes.Holds a :=
    h.held.of_mem_subs (Plant.mem_subs_of_mem_parts (by simp [hacc.parts]))
  have hnumber : s.nodes.number i.id = .ok position :=
    hi.number_eq (h.held.of_mem_subs (Plant.mem_subs_of_mem_parts (by simp [hacc.parts])))
  obtain ⟨hlt, -⟩ := List.getElem?_eq_some_iff.1 hp
  obtain ⟨length, hcount, hcheck⟩ := h.check_of_accesses hS hs hacc ha hi
  rw [if_neg (by rw [Int64.lt_iff_toInt_lt, Int64.le_iff_toInt_le, hk, hcount, Int64.toInt_zero]; omega)]
    at hcheck
  have hslot : a.root.needSlot (elementSlot position.toInt.toNat) = .ok p.id := by
    rw [hk, Int.toNat_natCast]
    refine Node.needSlot_eq_ok_iff.2 (Slots.get?_of_getElem? (i := k) ?_ ?_)
    · rw [ha.names, List.getElem?_map, List.getElem?_range hlt]
      rfl
    · rw [hheld.children, ha.parts, List.getElem?_map, hp]
      rfl
  have hpart : s.nodes.Holds p :=
    hheld.of_mem_subs (Plant.mem_subs_of_mem_parts (ha.parts ▸ List.mem_of_getElem? hp))
  have hreduce : (s.reduce S most t.root).Meets next
      (fun o hi => o.Builds s.nodes next hi p.shape) fun _ => False := by
    rw [reduce, hacc.kind]
    exact .liftSupply ((meets_element hs.stocked harray hindex hheld.get?_id hnumber hslot hpart).imp
      (fun _ _ _ ho => ho) fun _ => False.elim)
  obtain ⟨s', next', u, hstep, -, hgrafts, hshape, hnew⟩ := h.exists_step hs hS hcheck hreduce
  exact ⟨s', next', u, hstep, hgrafts, hshape, hnew⟩

/-- An access anywhere else is refused, and the index is named. -/
theorem Finds.member_rejected
    (hout : position.toInt < 0 ∨ (elements.length : ℤ) ≤ position.toInt) :
    (s.step S most target).runFrom next = (.error (.rejected (.builtin i.id
      s!"index {position.toInt} is out of bounds for an array of length {elements.length}")), next) := by
  obtain ⟨length, hcount, hcheck⟩ := h.check_of_accesses hS hs hacc ha hi
  rw [if_pos (by rwa [Int64.lt_iff_toInt_lt, Int64.le_iff_toInt_le, hcount, Int64.toInt_zero]),
    hcount] at hcheck
  exact h.step_rejected hs hS hcheck

end

/-! ### Two steps -/

/-- A step at a call or an access first reduces the one part that is not normal, a call of `concat`. -/
theorem Waits.exists_concat (h : s.Waits t) (hs : s.Kept next) (hS : S.Full) (most : Int64) {c : Plant}
    {before after : List Plant} (hparts : t.parts = before ++ c :: after)
    (hnormal : ∀ p ∈ before ++ after, S.isNormal s.nodes p.id = .ok true)
    (hc : c.CallsBuiltin .concat [a, b]) (ha : a.root.kind = .array)
    (ha' : S.isNormal s.nodes a.id = .ok true) (hb : b.root.kind = .array)
    (hb' : S.isNormal s.nodes b.id = .ok true) :
    ∃ s' next' t' u, (s.step S most t.id).runFrom next = (.ok (some s'), next') ∧
      s'.Kept next' ∧ s.InPlace t s' t' ∧ t'.root.kind = t.root.kind ∧
      t'.root.fields = t.root.fields ∧ t'.parts = before ++ u :: after ∧
      u.shape = .array ((a.parts ++ b.parts).map Plant.shape) ∧ s'.nodes.Holds u ∧
      t'.id = t.id ∧ s'.Finds S t.id t' := by
  have hF := hs.linked.hung hs.lt
  have hmem : c ∈ t.parts := by simp [hparts]
  have hsub := Plant.mem_subs_of_mem_parts hmem
  have hheld := h.held.of_mem_subs hsub
  have hargs : ∀ p ∈ c.parts, S.isNormal s.nodes p.id = .ok true := by
    rw [hc.parts]
    simp [ha', hb']
  have hlocked : c.root.locked = false := by
    obtain ⟨root, hroot, hroots⟩ := h.board
    exact hs.unlocked h.held hroot hroots _ (Plant.nodes_subset_of_mem_subs hsub c.root_mem_nodes)
  have hredex := hs.redex_of_parts hS hheld hlocked (by rw [hc.kind]; rfl)
    (by rw [Node.strictChildren, hc.kind]) hargs
  have hunready : S.isNormal s.nodes c.id = .ok false := by
    rw [hheld.isNormal_of_expression (hF.nodup_ids hheld) (hS.requireKind _)
      (by rw [hc.kind]; rfl), Node.coarseType, hc.kind]
    have hopen := hs.openParameter?_eq_none hheld hc.kind hargs
    dsimp only
    rw [show c.root.openParameter? s.nodes.get? = none from hopen]
    rfl
  have hfinds := hs.finds_part hS h.held h.board (h.strictChildren_eq _) hparts
    (fun p hp => hnormal p (List.mem_append_left _ hp)) hunready hredex
  obtain ⟨s', next', u, hstep, hs', hgrafts, hshape, -⟩ := hfinds.exists_concat hS most hs hc ha hb
  obtain ⟨t', hplace, hid, hkind, hfields, hparts'⟩ := hgrafts.exists_whole hs h.held hparts
  have hboard := hgrafts.exists_rootOf_whole hs h.held hmem h.board
  have hwaits : s'.Waits t' := ⟨hplace.held, hid.symm ▸ hboard, hkind.symm ▸ h.kind⟩
  have helements : ∀ p ∈ a.parts ++ b.parts, p.Normal := by
    intro p hp
    rcases List.mem_append.1 hp with hp | hp
    · exact hs.normal_of_mem_parts
        (hheld.of_mem_subs (Plant.mem_subs_of_mem_parts (by simp [hc.parts]))) ha ha' hp
    · exact hs.normal_of_mem_parts
        (hheld.of_mem_subs (Plant.mem_subs_of_mem_parts (by simp [hc.parts]))) hb hb' hp
  refine ⟨s', next', t', u, hstep, hs', hplace, hkind, hfields, hparts', hshape, hgrafts.new, hid,
    hid ▸ hwaits.finds hs' hS fun p hp => ?_⟩
  rw [hparts'] at hp
  have hother : ∀ q ∈ before ++ after, S.isNormal s'.nodes q.id = .ok true := fun q hq => by
    rw [hgrafts.isNormal_part hs h.held hparts hq]
    exact hnormal q hq
  rcases List.mem_append.1 hp with hp | hp
  · exact hother p (List.mem_append_left _ hp)
  · rcases List.mem_cons.1 hp with rfl | hp
    · exact hs'.isNormal_of_normal hS hgrafts.new (Plant.normal_of_shape_eq_array helements hshape)
    · exact hother p (List.mem_append_right _ hp)

/-- A normal array. -/
structure NormalArray (s : State) (S : Signature) (a : Plant) : Prop where
  kind : a.root.kind = .array
  normal : S.isNormal s.nodes a.id = .ok true

/-- The first plant is a call of `concat` with an argument that is itself a call of `concat`; the list
names the elements of the normal arrays below, from left to right. -/
inductive Nests (s : State) (S : Signature) : Plant → List Plant → Prop where
  | left {t c a b d : Plant} (outer : t.CallsBuiltin .concat [c, d])
      (inner : c.CallsBuiltin .concat [a, b]) (ha : s.NormalArray S a) (hb : s.NormalArray S b)
      (hd : s.NormalArray S d) : Nests s S t (a.parts ++ b.parts ++ d.parts)
  | right {t c a b d : Plant} (outer : t.CallsBuiltin .concat [a, c])
      (inner : c.CallsBuiltin .concat [b, d]) (ha : s.NormalArray S a) (hb : s.NormalArray S b)
      (hd : s.NormalArray S d) : Nests s S t (a.parts ++ b.parts ++ d.parts)

/-- Both calls are reduced in two steps, and leave an array of all elements. -/
theorem Waits.exists_concats (h : s.Waits t) (hs : s.Kept next) (hS : S.Full) (most : Int64)
    {elements : List Plant} (hn : s.Nests S t elements) :
    ∃ s' next' u, StepsAt S most t.id 2 (s, next) (s', next') ∧ s'.Kept next' ∧ s.InPlace t s' u ∧
      u.shape = .array (elements.map Plant.shape) := by
  cases hn with
  | @left c a b d outer inner ha hb hd =>
    obtain ⟨s₁, next₁, t₁, u, hstep, hs₁, hplace, hkind, hfields, hparts, hshape, -, hid, hfinds⟩ :=
      h.exists_concat hs hS most (show t.parts = [] ++ c :: [d] from outer.parts)
        (by simpa using hd.normal) inner ha.kind ha.normal hb.kind hb.normal
    obtain ⟨hku, -, -, helements⟩ := Plant.shape_eq_mk_iff.1 hshape
    obtain ⟨s₂, next₂, w, hstep₂, hs₂, hgrafts, hshape₂, -⟩ := hfinds.exists_concat hS most hs₁
      (outer.congr hkind hfields hparts) hku hd.kind
    refine ⟨s₂, next₂, w, .cons hstep (.cons hstep₂ .nil), hs₂,
      hplace.trans (hgrafts.inPlace hs₁) hid, ?_⟩
    rw [hshape₂, List.map_append, helements, ← List.map_append]
  | @right c a b d outer inner ha hb hd =>
    obtain ⟨s₁, next₁, t₁, u, hstep, hs₁, hplace, hkind, hfields, hparts, hshape, -, hid, hfinds⟩ :=
      h.exists_concat hs hS most (show t.parts = [a] ++ c :: [] from outer.parts)
        (by simpa using ha.normal) inner hb.kind hb.normal hd.kind hd.normal
    obtain ⟨hku, -, -, helements⟩ := Plant.shape_eq_mk_iff.1 hshape
    obtain ⟨s₂, next₂, w, hstep₂, hs₂, hgrafts, hshape₂, -⟩ := hfinds.exists_concat hS most hs₁
      (outer.congr hkind hfields hparts) ha.kind hku
    refine ⟨s₂, next₂, w, .cons hstep (.cons hstep₂ .nil), hs₂,
      hplace.trans (hgrafts.inPlace hs₁) hid, ?_⟩
    rw [hshape₂, List.map_append, helements, ← List.map_append, List.append_assoc]

/-! ### All of it -/

/-- How the builtins over arrays and the access to an element behave in a state. -/
structure ComputesArrays (s : State) (S : Signature) (most : Int64) (next : NodeId) : Prop where
  /-- A step at a call or an access on the board whose arguments are normal finds it. -/
  finds : ∀ t, s.Waits t → (∀ p ∈ t.parts, S.isNormal s.nodes p.id = .ok true) → s.Finds S t.id t
  /-- `concat` leaves a new array of the elements of both arrays, whose length counts them. -/
  concat : ∀ target t a b, s.Finds S target t → t.CallsBuiltin .concat [a, b] →
    a.root.kind = .array → b.root.kind = .array →
    ∃ s' next' u, (s.step S most target).runFrom next = (.ok (some s'), next') ∧ s.Grafts t u s' ∧
      u.shape = .array ((a.parts ++ b.parts).map Plant.shape) ∧
      (∀ n ∈ u.nodes, n.locked = false ∧ next ≤ n.id ∧ n.id < next') ∧
      (next' ≤ UInt64.size → ∃ length, u.root.int? "length" = some length ∧
        length.toInt = a.parts.length + b.parts.length)
  /-- `length` leaves the number of elements. -/
  length : ∀ target t a, s.Finds S target t → t.CallsBuiltin .length [a] → a.root.kind = .array →
    ∃ s' next' u length, (s.step S most target).runFrom next = (.ok (some s'), next') ∧
      s.Grafts t u s' ∧ u.IsNumber length ∧ length.toInt = a.parts.length
  /-- An access leaves a new copy of the element at its index. -/
  member : ∀ target t a i position (k : ℕ) p, s.Finds S target t → t.Accesses a i →
    a.root.kind = .array → i.IsNumber position → position.toInt = k → a.parts[k]? = some p →
    ∃ s' next' u, (s.step S most target).runFrom next = (.ok (some s'), next') ∧ s.Grafts t u s' ∧
      u.shape = p.shape ∧ ∀ n ∈ u.nodes, n.locked = false ∧ next ≤ n.id ∧ n.id < next'
  /-- Where there is none, it is refused. -/
  outside : ∀ target t a i position, s.Finds S target t → t.Accesses a i → a.root.kind = .array →
    i.IsNumber position → position.toInt < 0 ∨ (a.parts.length : ℤ) ≤ position.toInt →
    (s.step S most target).runFrom next = (.error (.rejected (.builtin i.id
      s!"index {position.toInt} is out of bounds for an array of length {a.parts.length}")), next)
  /-- The length of two joined arrays is the sum of their lengths. -/
  length_concat : ∀ t c a b, s.Waits t → t.CallsBuiltin .length [c] →
    c.CallsBuiltin .concat [a, b] → s.NormalArray S a → s.NormalArray S b →
    ∃ s₁ next₁, (s.step S most t.id).runFrom next = (.ok (some s₁), next₁) ∧
      (next₁ ≤ UInt64.size → ∃ s₂ next₂ u length,
        (s₁.step S most t.id).runFrom next₁ = (.ok (some s₂), next₂) ∧ s.InPlace t s₂ u ∧
        u.IsNumber length ∧ length.toInt = a.parts.length + b.parts.length)
  /-- It makes no difference which of two calls of `concat` is the argument of the other. -/
  concat_assoc : ∀ t t' elements elements', s.Waits t → s.Waits t' → s.Nests S t elements →
    s.Nests S t' elements' → elements.map Plant.shape = elements'.map Plant.shape →
    ∃ s₁ next₁ u s₂ next₂ u', StepsAt S most t.id 2 (s, next) (s₁, next₁) ∧ s.InPlace t s₁ u ∧
      StepsAt S most t'.id 2 (s, next) (s₂, next₂) ∧ s.InPlace t' s₂ u' ∧
      u.shape = .array (elements.map Plant.shape) ∧
      sameShape s₁.nodes u.id s₂.nodes u'.id = .ok true
  /-- An access to two joined arrays is one to the first or, counted from its end, to the second. -/
  member_concat : ∀ t c a b i position, s.Waits t → t.Accesses c i →
    c.CallsBuiltin .concat [a, b] → s.NormalArray S a → s.NormalArray S b → i.IsNumber position →
    ∃ s₁ next₁, (s.step S most t.id).runFrom next = (.ok (some s₁), next₁) ∧
      (next₁ ≤ UInt64.size →
        (∀ (k : ℕ) p, position.toInt = k → (a.parts ++ b.parts)[k]? = some p →
          ∃ s₂ next₂ u, (s₁.step S most t.id).runFrom next₁ = (.ok (some s₂), next₂) ∧
            s.InPlace t s₂ u ∧ u.shape = p.shape) ∧
        (position.toInt < 0 ∨ (a.parts.length + b.parts.length : ℤ) ≤ position.toInt →
          ∃ text, (s₁.step S most t.id).runFrom next₁ = (.error (.rejected (.builtin i.id text)),
            next₁)))

/-- What the first step leaves of joined arrays lists the elements of both, as long as no more ids
have been handed out than 64 bits tell apart. -/
theorem Kept.exists_lists {s' : State} {next' : ℕ} (hs' : s'.Kept next')
    (hnext : next' ≤ UInt64.size) {u : Plant} (hu : s'.nodes.Holds u) {ts : List Plant}
    (hshape : u.shape = .array (ts.map Plant.shape)) :
    ∃ elements : List Plant, u.Lists elements ∧ elements.map Plant.shape = ts.map Plant.shape ∧
      elements.length = ts.length := by
  obtain ⟨hkind, -, -, hparts⟩ := Plant.shape_eq_mk_iff.1 hshape
  exact ⟨u.parts, (hs'.wellFormed hnext).lists hu hkind, hparts,
    by simpa using congrArg List.length hparts⟩

/-- Arrays compute as lists do. -/
theorem WellFormed.computesArrays (h : s.WellFormed next) (hS : S.Full) (most : Int64) :
    s.ComputesArrays S most next where
  finds t ht hnormal := ht.finds h.kept hS hnormal
  concat target t a b hfinds hc ha hb := by
    obtain ⟨s', next', u, hstep, hs', hgrafts, hshape, hnew⟩ :=
      hfinds.exists_concat hS most h.kept hc ha hb
    refine ⟨s', next', u, hstep, hgrafts, hshape, hnew, fun hnext => ?_⟩
    obtain ⟨elements, hlists, -, hcount⟩ := hs'.exists_lists hnext hgrafts.new hshape
    obtain ⟨length, hlength, heq⟩ := hlists.length
    exact ⟨length, hlength, by rw [heq, hcount, List.length_append, Nat.cast_add]⟩
  length target t a hfinds hc ha := by
    have hheld := hfinds.held.of_mem_subs (Plant.mem_subs_of_mem_parts (u := a) (by simp [hc.parts]))
    exact hfinds.exists_length hS most h.kept hc (h.lists hheld ha)
  member target t a i position k p hfinds hacc ha hi hk hp := by
    have hheld := hfinds.held.of_mem_subs (Plant.mem_subs_of_mem_parts (u := a) (by simp [hacc.parts]))
    exact hfinds.exists_member hS most h.kept hacc (h.lists hheld ha) hi hk hp
  outside target t a i position hfinds hacc ha hi hout := by
    have hheld := hfinds.held.of_mem_subs (Plant.mem_subs_of_mem_parts (u := a) (by simp [hacc.parts]))
    exact hfinds.member_rejected hS most h.kept hacc (h.lists hheld ha) hi hout
  length_concat t c a b ht hlength hc ha hb := by
    obtain ⟨s₁, next₁, t₁, u, hstep, hs₁, hplace, hkind, hfields, hparts, hshape, hu, hid, hfinds⟩ :=
      ht.exists_concat h.kept hS most (show t.parts = [] ++ c :: [] from hlength.parts) (by simp) hc
        ha.kind ha.normal hb.kind hb.normal
    refine ⟨s₁, next₁, hstep, fun hnext => ?_⟩
    obtain ⟨elements, hlists, -, hcount⟩ := hs₁.exists_lists hnext hu hshape
    obtain ⟨s₂, next₂, w, length, hstep₂, hgrafts, hw, heq⟩ :=
      hfinds.exists_length hS most hs₁ (hlength.congr hkind hfields hparts) hlists
    exact ⟨s₂, next₂, w, length, hstep₂, hplace.trans (hgrafts.inPlace hs₁) hid, hw,
      by rw [heq, hcount, List.length_append, Nat.cast_add]⟩
  concat_assoc t t' elements elements' ht ht' hn hn' heq := by
    obtain ⟨s₁, next₁, u, hsteps, hs₁, hplace, hshape⟩ := ht.exists_concats h.kept hS most hn
    obtain ⟨s₂, next₂, u', hsteps', hs₂, hplace', hshape'⟩ := ht'.exists_concats h.kept hS most hn'
    refine ⟨s₁, next₁, u, s₂, next₂, u', hsteps, hplace, hsteps', hplace', hshape, ?_⟩
    obtain ⟨same, hsame, hiff⟩ := hplace.held.sameShape
      ((hs₁.linked.hung hs₁.lt).nodup_ids hplace.held) hplace'.held
      ((hs₂.linked.hung hs₂.lt).nodup_ids hplace'.held)
    rw [hsame, hiff.2 (by rw [hshape, hshape', heq])]
  member_concat t c a b i position ht hacc hc ha hb hi := by
    have hheld := ht.held.of_mem_subs (Plant.mem_subs_of_mem_parts (u := i) (by simp [hacc.parts]))
    obtain ⟨s₁, next₁, t₁, u, hstep, hs₁, hplace, hkind, -, hparts, hshape, hu, hid, hfinds⟩ :=
      ht.exists_concat h.kept hS most (show t.parts = [] ++ c :: [i] from hacc.parts)
        (by simpa using h.kept.isNormal_of_normal hS hheld hi.normal) hc ha.kind ha.normal hb.kind
        hb.normal
    refine ⟨s₁, next₁, hstep, fun hnext => ?_⟩
    obtain ⟨elements, hlists, hshapes, hcount⟩ := hs₁.exists_lists hnext hu hshape
    have hacc₁ : t₁.Accesses u i := ⟨hkind.trans hacc.kind, hparts⟩
    refine ⟨fun k p hk hp => ?_, fun hout => ?_⟩
    · have hshape' : (elements.map Plant.shape)[k]? = some p.shape := by
        rw [hshapes, List.getElem?_map, hp]
        rfl
      rw [List.getElem?_map, Option.map_eq_some_iff] at hshape'
      obtain ⟨q, hq, hqp⟩ := hshape'
      obtain ⟨s₂, next₂, w, hstep₂, hgrafts, hw, -⟩ :=
        hfinds.exists_member hS most hs₁ hacc₁ hlists hi hk hq
      exact ⟨s₂, next₂, w, hstep₂, hplace.trans (hgrafts.inPlace hs₁) hid, hw.trans hqp⟩
    · exact ⟨_, hfinds.member_rejected hS most hs₁ hacc₁ hlists hi
        (by rwa [hcount, List.length_append, Nat.cast_add])⟩

end State

namespace Game

/-- A game with two arrays to join and an access past the end of a third one. -/
def joining : Game where
  levels := ⟨[{
    board := [
      ((Term.reference "concat" ["left", "right"]).withSlot "arg_left"
        (.array [.number 7, .boolean true])).withSlot "arg_right" (.array [.string "x", .number 8]),
      .member (.array [.number 9]) (.number 1)] }]⟩

theorem distinct_joining : joining.levels.Distinct := by
  simp [LevelFile.Distinct, joining, Level.terms, Term.reference, Term.number, Term.boolean, Term.string, Term.fields,
    Term.member, Term.array, Term.withSlot, Term.withField, Term.ofTag, Term.parts, Term.tag, Terms.set,
    Term.Distinct, Terms.Distinct, Kind.tag, or_imp, forall_and]
  decide

section

variable {session : Session State Move} (h : joining.start 0 = .ok session)
  (hwell : session.present.WellFormed session.next)
include h hwell

/-- The first root on the board is a call of `concat` with normal arrays. -/
theorem concat_joining : ∃ t a b, session.present.Finds .standard 1 t ∧
    t.CallsBuiltin .concat [a, b] ∧ a.root.kind = .array ∧ b.root.kind = .array ∧
    (a.parts ++ b.parts).map (·.root.kind) = [.number, .boolean, .string, .number] := by
  have hnodes : (joining.start 0).toOption.map (fun session =>
      [1, 2, 3, 4, 5, 6, 7].map fun x => (session.present.nodes.get? x).map fun n =>
        (n.kind, n.name?, n.slots.children)) =
      some [some (.reference, some "concat", [2, 5]), some (.array, none, [3, 4]),
        some (.number, none, []), some (.boolean, none, []), some (.array, none, [6, 7]),
        some (.string, none, []), some (.number, none, [])] := by
    decide +kernel
  have hredex : (joining.start 0).toOption.map (fun session => (session.present.board,
      (Signature.standard.redex session.present.nodes 1).toOption)) =
      some ([1, 8], some (some 1)) := by
    decide +kernel
  rw [h] at hnodes hredex
  simp only [Except.toOption, Option.map_some, Option.some.injEq, List.map_cons, List.map_nil,
    List.cons.injEq, and_true, Prod.mk.injEq, Option.map_eq_some_iff] at hnodes hredex
  obtain ⟨⟨n₁, h₁, k₁, name, c₁⟩, ⟨n₂, h₂, k₂, -, c₂⟩, ⟨n₃, h₃, k₃, -, -⟩, ⟨n₄, h₄, k₄, -, -⟩,
    ⟨n₅, h₅, k₅, -, c₅⟩, ⟨n₆, h₆, k₆, -, -⟩, n₇, h₇, k₇, -, -⟩ := hnodes
  obtain ⟨hboard, hredex⟩ := hredex
  obtain ⟨t, rfl, ht, -⟩ := hwell.kept.stocked 1 n₁ h₁
  obtain ⟨a, b, hargs, rfl, rfl, ha, hb⟩ := ht.exists_pair c₁ h₂ h₅
  obtain ⟨p, q, hp, rfl, rfl, -⟩ := ha.exists_pair c₂ h₃ h₄
  obtain ⟨v, w, hv, rfl, rfl, -⟩ := hb.exists_pair c₅ h₆ h₇
  have hid : t.id = 1 := Forest.id_of_get? h₁
  have hroot := Forest.Kept.rootOf_self hwell.kept
    (State.Kept.mem_roots_of_board (hboard ▸ List.mem_cons_self))
  refine ⟨t, a, b, ⟨ht, ⟨1, hboard ▸ List.mem_cons_self, hroot⟩, ?_⟩, ⟨k₁, name, hargs⟩, k₂, k₅, ?_⟩
  · rw [hid]
    exact toOption_eq_some_iff.1 hredex
  · simp [hp, hv, k₃, k₄, k₆, k₇]

/-- The second root on the board is an access to an array of one element at the index 1. -/
theorem member_joining : ∃ t a i, session.present.Finds .standard 8 t ∧ t.Accesses a i ∧
    a.root.kind = .array ∧ a.parts.length = 1 ∧ i.id = 11 ∧ i.IsNumber 1 := by
  have hnodes : (joining.start 0).toOption.map (fun session =>
      [8, 9, 11].map fun x => (session.present.nodes.get? x).map fun n =>
        (n.kind, n.int? "value", n.slots.children)) =
      some [some (.member, none, [9, 11]), some (.array, none, [10]),
        some (.number, some 1, [])] := by
    decide +kernel
  have hredex : (joining.start 0).toOption.map (fun session => (session.present.board,
      (Signature.standard.redex session.present.nodes 8).toOption)) =
      some ([1, 8], some (some 8)) := by
    decide +kernel
  rw [h] at hnodes hredex
  simp only [Except.toOption, Option.map_some, Option.some.injEq, List.map_cons, List.map_nil,
    List.cons.injEq, and_true, Prod.mk.injEq, Option.map_eq_some_iff] at hnodes hredex
  obtain ⟨⟨n₈, h₈, k₈, -, c₈⟩, ⟨n₉, h₉, k₉, -, c₉⟩, n₁₁, h₁₁, k₁₁, value, -⟩ := hnodes
  obtain ⟨hboard, hredex⟩ := hredex
  obtain ⟨t, rfl, ht, -⟩ := hwell.kept.stocked 8 n₈ h₈
  obtain ⟨a, i, hparts, rfl, rfl, ha, -⟩ := ht.exists_pair c₈ h₉ h₁₁
  have hid : t.id = 8 := Forest.id_of_get? h₈
  have hroot := Forest.Kept.rootOf_self hwell.kept
    (State.Kept.mem_roots_of_board (hboard ▸ List.mem_cons_of_mem 1 List.mem_cons_self))
  refine ⟨t, a, i, ⟨ht, ⟨8, by simp [hboard], hroot⟩, ?_⟩, ⟨k₈, hparts⟩, k₉, ?_,
    Forest.id_of_get? h₁₁, k₁₁, value⟩
  · rw [hid]
    exact toOption_eq_some_iff.1 hredex
  · rw [← List.length_map Plant.id, ← ha.children, c₉]
    rfl

end

/-- The two arrays are joined in order, and the access is refused. -/
theorem computesArrays_joining : ∃ session, joining.start 0 = .ok session ∧
    session.present.WellFormed session.next ∧
    (∃ s next u,
      (session.present.step .standard 9 1).runFrom session.next = (.ok (some s), next) ∧
      s.nodes.Holds u ∧ u.parts.map (·.root.kind) = [.number, .boolean, .string, .number]) ∧
    (session.present.step .standard 9 8).runFrom session.next = (.error (.rejected
      (.builtin 11 "index 1 is out of bounds for an array of length 1")), session.next) := by
  obtain ⟨session, h, hwell⟩ := Session.exists_wellFormed_start 0
    Signature.tagsReferences_standard distinct_joining (by decide +kernel)
  have hcomputes := hwell.computesArrays Signature.full_standard 9
  refine ⟨session, h, hwell, ?_, ?_⟩
  · obtain ⟨t, a, b, hfinds, hcalls, ha, hb, hkinds⟩ := concat_joining h hwell
    obtain ⟨s, next, u, hstep, hgrafts, hshape, -⟩ :=
      hcomputes.concat 1 t a b hfinds hcalls ha hb
    refine ⟨s, next, u, hstep, hgrafts.new, ?_⟩
    obtain ⟨-, -, -, hparts⟩ := Plant.shape_eq_mk_iff.1 hshape
    have hmap : u.parts.map (·.root.kind) = (a.parts ++ b.parts).map (·.root.kind) := by
      simpa [Function.comp_def] using congrArg (List.map Shape.kind) hparts
    exact hmap.trans hkinds
  · obtain ⟨t, a, i, hfinds, hacc, ha, hlength, hid, hi⟩ := member_joining h hwell
    have hout := hcomputes.outside 8 t a i 1 hfinds hacc ha hi (.inr (by rw [hlength]; decide))
    rw [hid, hlength] at hout
    exact hout

end Game

end TermForest
