import TermForest.Proofs.Partial
import TermForest.Proofs.Reduction

/-!
# Comparisons

Less and greater look at the values of two numbers. Equality looks at all fields of its operands: at the
one that their kind declares, which holds the value of a literal, and at any others that a level file
gives to one of them. So two literals are equal when their values and those other fields agree, and where
only the values agree, none of less, equal and greater holds.
-/

namespace TermForest

namespace Node

variable {m n : Node}

/-! ### What literals stand for -/

/-- What a literal stands for: its value, or the name of a symbol. -/
def literal? (n : Node) : Option Datum := n.field? (if n.kind = .symbol then "name" else "value")

/-- The fields that the kind of the first node does not declare are the same in both. -/
def AgreesBeyond (m n : Node) : Prop := ∀ key ∉ m.kind.declaredFields, m.field? key = n.field? key

theorem declaredFields_of_literal (h : n.kind.IsLiteral) :
    n.kind.declaredFields = [if n.kind = .symbol then "name" else "value"] := by
  rcases Kind.isLiteral_iff.1 h with hk | hk | hk | hk <;> rw [hk] <;> rfl

/-- A literal stands for a value of its kind. -/
theorem HasFields.exists_literal (h : n.HasFields) (hk : n.kind.IsLiteral) :
    ∃ v, n.literal? = some v := by
  obtain ⟨v, hv, -⟩ := h.takes (if n.kind = .symbol then "name" else "value")
    (declaredFields_of_literal hk ▸ List.mem_singleton_self _)
  exact ⟨v, hv⟩

/-- Literals of one kind have the same fields when they stand for the same and agree beyond that. -/
theorem fields_eq_iff (hm : m.kind.IsLiteral) (hk : n.kind = m.kind) :
    m.fields = n.fields ↔ m.literal? = n.literal? ∧ m.AgreesBeyond n := by
  rw [AgreesBeyond, declaredFields_of_literal hm, literal?, literal?, hk]
  constructor
  · intro h
    have hfield : ∀ key, m.field? key = n.field? key := fun key => by rw [field?, h, field?]
    exact ⟨hfield _, fun key _ => hfield key⟩
  · rintro ⟨hvalue, hbeyond⟩
    refine Std.ExtTreeMap.ext_getElem? fun key => ?_
    rw [← field?_eq_getElem?, ← field?_eq_getElem?]
    by_cases hkey : key = if m.kind = .symbol then "name" else "value"
    · exact hkey ▸ hvalue
    · exact hbeyond key (by rwa [List.mem_singleton])

/-- A number stands for its integer. -/
theorem literal?_of_int? (hk : n.kind = .number) {i : Int64} (h : n.int? "value" = some i) :
    n.literal? = some (.int i) := by
  obtain ⟨v, hv, hi⟩ := Option.bind_eq_some_iff.1 h
  cases v <;> cases hi
  rw [literal?, hk]
  exact hv

/-! ### Operations on literals -/

/-- A binary operation on two literals of one kind. -/
structure OperatesOn (n : Node) (F : Forest) (op : Operator) (l r : Node) : Prop where
  kind : n.kind = .binop
  operator : n.text? "op" = some op.text
  left : n.slots.get? "left" = some l.id
  right : n.slots.get? "right" = some r.id
  getLeft : F.get? l.id = some l
  getRight : F.get? r.id = some r
  literal : l.kind.IsLiteral
  same : r.kind = l.kind

end Node

namespace Operator

/-- The truth value that a comparison of two literals of one kind comes to. Equality is that of all
fields. -/
def compare? (op : Operator) (l r : Node) : Option Bool :=
  match op with
  | .equal => some (l.fields = r.fields)
  | .unequal => some (l.fields ≠ r.fields)
  | .less => ordered fun i j => i < j
  | .greater => ordered fun i j => j < i
  | .add | .sub | .mul | .div => none
where
  /-- How the integers of two numbers stand to each other. -/
  ordered (before : Int64 → Int64 → Bool) : Option Bool :=
    if l.kind = .number then do
      let i ← l.int? "value"
      let j ← r.int? "value"
      return before i j
    else none

variable {l r : Node} {b : Bool}

/-- An order is that of the integers of two numbers. -/
theorem ordered_eq_some_iff {before : Int64 → Int64 → Bool} :
    compare?.ordered l r before = some b ↔ l.kind = .number ∧
      ∃ i j, l.int? "value" = some i ∧ r.int? "value" = some j ∧ before i j = b := by
  simp [compare?.ordered, Option.bind_eq_some_iff]

end Operator

/-! ### Searches -/

namespace Forest

variable {F : Forest} {S : Signature} {x r : NodeId} {next : Nat}

/-- A redex is there, and its kind and those of its strict children are known. -/
theorem known_of_redex {depth : Nat} (h : (F.unfold depth x).redex S = .ok (some r)) :
    ∃ n peek cs, F.get? r = some n ∧ S.requireKind n.kind = .ok () ∧
      n.strictChildren peek = .ok cs ∧
      ∀ c ∈ cs, ∃ m, F.get? c = some m ∧ S.requireKind m.kind = .ok () := by
  induction depth generalizing x with
  | zero => cases h
  | succ depth ih =>
    obtain ⟨n, cs, hn, -, hkind, hcs, ⟨c, -, hc⟩ | ⟨rfl, -, hnormal⟩⟩ := redex_cases h
    · exact ih hc
    · exact ⟨n, _, cs, hn, hkind, hcs, fun c hc => exists_of_isNormal (hnormal c hc)⟩

/-- A redex lies below the target of the search. -/
theorem Hung.ascends_redex (hF : F.Hung next) {depth : Nat}
    (h : (F.unfold depth x).redex S = .ok (some r)) : ∃ k, F.Ascends r k x := by
  induction depth generalizing x with
  | zero => cases h
  | succ depth ih =>
    obtain ⟨n, cs, hn, -, -, hcs, ⟨c, hmem, hc⟩ | ⟨rfl, -, -⟩⟩ := redex_cases h
    · obtain ⟨k, hk⟩ := ih hc
      obtain ⟨m, hm, hparent⟩ := hF.exists_child hn (Node.strictChildren_subset hcs hmem)
      exact ⟨k + 1, hk.trans (.up hm hparent (.refl hn))⟩
    · exact ⟨0, .refl hn⟩

/-- What holds a plant below a root is there, outside of the plant. -/
theorem Hung.exists_holder (hF : F.Hung next) (hplain : F.Plain) {t : Plant} (ht : F.Holds t)
    {root p : NodeId} (hroot : F.RootOf t.id root) (hp : t.root.parent = some p) :
    t.root.parentSlot ≠ none ∧ p ∉ t.ids ∧ ∃ m, F.get? p = some m := by
  obtain ⟨-, k, hk⟩ := hroot.of_parent ht.get?_id hp
  refine ⟨fun hslot => ?_, fun hmem => ?_, hk.exists_start⟩
  · cases (hplain.parentSlots _ _ ht.get?_id hslot).symm.trans hp
  · -- the way up from the plant would come back to the plant
    obtain ⟨j, hj⟩ := ht.ascends (hF.joined ht) hmem
    obtain ⟨hself, i, hi⟩ := hroot
    have := ((Ascends.up ht.get?_id hp hj).trans hi).length_unique hself hi
    lia

end Forest

/-! ### Checks and rules -/

namespace Signature

variable {S : Signature} {F : Forest} {n : Node} (hn : F.get? n.id = some n)
  (hkind : S.requireKind n.kind = .ok ())
include hn hkind

theorem coarseType_of_requireKind : S.coarseType F n.id = .ok (n.coarseType F.get?) := by
  rw [coarseType, Forest.find_eq_ok_iff.2 hn, ok_bind, hkind]
  rfl

/-- A node of a known kind that has a permitted type is let through. -/
theorem requireOneOf_eq_ok {permitted : List CoarseType} (hmem : n.coarseType F.get? ∈ permitted)
    (hhole : n.coarseType F.get? ≠ .hole) (expected : String) :
    S.requireOneOf F n.id permitted expected = .ok () := by
  rw [requireOneOf, liftM_eq_ok_iff.2 (coarseType_of_requireKind hn hkind), ok_bind, if_neg hhole,
    if_pos hmem]
  rfl

end Signature

namespace Node.OperatesOn

variable {s : State} {S : Signature} {n l r : Node} {op : Operator} {b : Bool}
  (h : n.OperatesOn s.nodes op l r)
include h

/-- Operands of one kind have one type, which is not that of a hole. -/
theorem coarseType_eq : r.coarseType s.nodes.get? = l.coarseType s.nodes.get? ∧
    l.coarseType s.nodes.get? ∈ [CoarseType.number, .boolean, .string, .symbol] := by
  rcases Kind.isLiteral_iff.1 h.literal with hk | hk | hk | hk <;>
    simp [coarseType, h.same, hk]

/-- A comparison of two literals of one kind passes its check. -/
theorem check_eq_ok (hleft : S.requireKind l.kind = .ok ()) (hb : op.compare? l r = some b) :
    S.check s n = .ok () := by
  obtain ⟨htype, hmem⟩ := h.coarseType_eq
  have hhole : l.coarseType s.nodes.get? ≠ .hole := fun he => by simp [he] at hmem
  have hright : S.requireKind r.kind = .ok () := h.same ▸ hleft
  have hl : ∀ {permitted} expected, l.coarseType s.nodes.get? ∈ permitted →
      S.requireOneOf s.nodes l.id permitted expected = .ok () := fun expected hp =>
    Signature.requireOneOf_eq_ok h.getLeft hleft hp hhole expected
  have hr : ∀ {permitted} expected, l.coarseType s.nodes.get? ∈ permitted →
      S.requireOneOf s.nodes r.id permitted expected = .ok () := fun expected hp =>
    Signature.requireOneOf_eq_ok h.getRight hright (htype ▸ hp) (htype ▸ hhole) expected
  rw [Signature.check, h.kind]
  dsimp only
  rw [Signature.checkBinop, liftM_eq_ok_iff.2 (needText_eq_ok_iff.2 h.operator), ok_bind,
    liftM_eq_ok_iff.2 (needSlot_eq_ok_iff.2 h.left), ok_bind,
    liftM_eq_ok_iff.2 (needSlot_eq_ok_iff.2 h.right), ok_bind, op.ofText?_text]
  cases op with
  | equal | unequal =>
    dsimp only
    rw [hl _ hmem, ok_bind, liftM_eq_ok_iff.2 (Signature.coarseType_of_requireKind h.getLeft hleft), ok_bind]
    exact hr _ (List.mem_singleton_self _)
  | less | greater =>
    have hk : l.kind = .number := (Operator.ordered_eq_some_iff.1 hb).1
    have hnumber : l.coarseType s.nodes.get? ∈ [CoarseType.number] := by
      rw [coarseType, hk]
      exact List.mem_singleton_self _
    dsimp only
    rw [Signature.requireType, Signature.requireType, hl _ hnumber, ok_bind, hr _ hnumber]
    rfl
  | add | sub | mul | div => cases hb

/-- Two literals have the same shape when they have the same fields. -/
theorem sameShape_eq (hplain : s.nodes.Plain) :
    sameShape s.nodes l.id s.nodes r.id = .ok (decide (l.fields = r.fields)) := by
  have hleaf : ∀ {m : Node}, s.nodes.get? m.id = some m → m.kind.IsLiteral →
      s.nodes.Holds (.mk m []) ∧ (Plant.mk m []).shape = .mk m.kind m.fields [] [] := by
    intro m hm hk
    have hslots := (hplain.nodes _ m hm hk).2
    refine ⟨.mk hm ?_ nofun, ?_⟩
    · rw [Slots.children, hslots]
      rfl
    · rw [Plant.shape_mk, Slots.names, hslots]
      rfl
  obtain ⟨hl, hlshape⟩ := hleaf h.getLeft h.literal
  obtain ⟨hr, hrshape⟩ := hleaf h.getRight (h.same ▸ h.literal)
  obtain ⟨same, hsame, hiff⟩ := hl.sameShape (by simp) hr (by simp)
  rw [hlshape, hrshape, Shape.mk.injEq] at hiff
  refine hsame.trans (congrArg _ ?_)
  rw [Bool.eq_iff_iff, hiff, decide_eq_true_iff]
  simp [h.same]

/-- The rule of a comparison of two literals yields its truth value. -/
theorem runFrom_reduce (hplain : s.nodes.Plain) (hb : op.compare? l r = some b) (most : Int64)
    (next : NodeId) : (s.reduce S most n).runFrom next =
      (.ok (s.replaceBy (.ofBool next b)), next + 1) := by
  rw [State.reduce, h.kind]
  dsimp only
  rw [State.reduceBinop, Supply.liftM_fault_ok (needText_eq_ok_iff.2 h.operator), pure_bind,
    Supply.liftM_fault_ok (needSlot_eq_ok_iff.2 h.left), pure_bind,
    Supply.liftM_fault_ok (needSlot_eq_ok_iff.2 h.right), pure_bind,
    Supply.liftM_fault_ok (Forest.find_eq_ok_iff.2 h.getLeft), pure_bind,
    Supply.liftM_fault_ok (Forest.find_eq_ok_iff.2 h.getRight), pure_bind, op.ofText?_text]
  cases op with
  | equal =>
    cases hb
    dsimp only
    rw [Supply.liftM_fault_ok (h.sameShape_eq hplain)]
    rfl
  | unequal =>
    cases hb
    dsimp only
    rw [Supply.liftM_fault_ok (h.sameShape_eq hplain), pure_bind, ← decide_not]
    rfl
  | less | greater =>
    obtain ⟨-, i, j, hi, hj, rfl⟩ := Operator.ordered_eq_some_iff.1 hb
    dsimp only
    rw [State.reduceBinop.calculate, Supply.liftM_fault_ok (needInt_eq_ok_iff.2 hi), pure_bind,
      Supply.liftM_fault_ok (needInt_eq_ok_iff.2 hj), pure_bind]
    rfl
  | add | sub | mul | div => cases hb

end Node.OperatesOn

/-! ### Comparing -/

namespace State

variable {s : State} {S : Signature} {most : Int64} {target : NodeId} {t : Plant} {n l r : Node}
  {op : Operator} {next : Nat} {b : Bool}

/-- A step at the target puts a truth value under the next id in the place of a plant. -/
def Yields (s : State) (S : Signature) (most : Int64) (target : NodeId) (t : Plant) (next : NodeId)
    (b : Bool) : Prop :=
  ∃ s', (s.step S most target).runFrom next = (.ok (some s'), next + 1) ∧
    s.Grafts t ((Plant.mk (Node.ofBool next b) []).inPlaceOf t.root) s'

/-- A new truth value takes the place of a plant below a root. -/
theorem Hung.exists_grafts_ofBool (h : s.Hung next) (ht : s.nodes.Holds t) {root : NodeId}
    (hroot : s.nodes.RootOf t.id root) (b : Bool) :
    ∃ s', s.graft t.id ⟨s.nodes.insert (Node.ofBool next b), next⟩ = .ok s' ∧
      s.Grafts t ((Plant.mk (Node.ofBool next b) []).inPlaceOf t.root) s' := by
  have hadds := h.nodes.addsRoot_insert (n := Node.ofBool next b) rfl rfl rfl (Node.hasFields_ofBool ..)
  refine exists_grafts_of_addsRoot h.nodes hadds ht (v := .mk (Node.ofBool next b) []) ?_ rfl
    fun p hp => h.nodes.exists_holder h.plain ht hroot hp
  exact .mk (Forest.get?_insert_self ..) rfl nofun

/-- A comparison of two literals that a step finds is put in the place of the operation. -/
theorem Hung.yields (h : s.Hung next) (ht : s.Finds S target t)
    (hop : t.root.OperatesOn s.nodes op l r) (hb : op.compare? l r = some b) (most : Int64) :
    s.Yields S most target t next b := by
  obtain ⟨root, hboard, hroot⟩ := ht.board
  obtain ⟨n, _, hn, hlocked, -⟩ := Forest.redex_cases ht.redex
  obtain ⟨m, peek, cs, hm, hkind, hcs, hknown⟩ := Forest.known_of_redex ht.redex
  obtain rfl := Option.some.inj (ht.held.get?_id.symm.trans hm)
  -- all children of a binary operation are strict, so the search knows the kind of the left operand
  have hleft : S.requireKind l.kind = .ok () := by
    rw [Node.strictChildren, hop.kind] at hcs
    cases hcs
    obtain ⟨k, hk, hkind⟩ := hknown l.id (Slots.mem_children_iff.2 ⟨_, hop.left⟩)
    obtain rfl := Option.some.inj (hop.getLeft.symm.trans hk)
    exact hkind
  have hready := ready_of_check hn hroot.rootOf_eq hboard hlocked ht.redex ht.held.get?_id hkind
    (hop.check_eq_ok hleft hb)
  obtain ⟨k, hk⟩ := h.nodes.ascends_redex ht.redex
  obtain ⟨s', hs', hgrafts⟩ := h.exists_grafts_ofBool ht.held (hroot.of_ascends hk) b
  refine ⟨s', ?_, hgrafts⟩
  have hbegin : (s.begin S most target).runFrom next =
      (.ok (.ready t.id ⟨s.nodes.insert (Node.ofBool next b), next⟩), next + 1) := by
    rw [begin_eq, Supply.liftM_ok hready, pure_bind]
    dsimp only
    rw [Supply.runFrom_bind, hop.runFrom_reduce h.plain hb]
    rfl
  rw [step, Supply.runFrom_bind, hbegin]
  dsimp only
  rw [complete, Supply.liftM_ok hs']
  rfl

end State

/-! ### Reachable states -/

namespace Play

variable {g : Game} {session : Session State Move} {level : Nat} {p : Play} {target : NodeId}
  {t : Plant} {op : Operator} {l r : Node}

/-- In a play that starts at a level, after any requests, a step that finds a comparison of two literals
of one kind puts a truth value in its place. Of two equal literals it says that they stand for the same
and agree in the fields that their kind does not declare, and of unequal ones the contrary. Less and
greater say how the integers of two numbers stand to each other. -/
theorem compares_of_start (h : g.start level = .ok session) (requests : List Request)
    (hp : takeAll g ⟨session, []⟩ requests = p)
    (ht : p.session.present.Finds g.signature target t)
    (hop : t.root.OperatesOn p.session.present.nodes op l r) (most : Int64) :
    ∃ v w, l.literal? = some v ∧ r.literal? = some w ∧
      (op = .equal → ∃ b, p.session.present.Yields g.signature most target t p.session.next b ∧
        (b = true ↔ v = w ∧ l.AgreesBeyond r)) ∧
      (op = .unequal → ∃ b, p.session.present.Yields g.signature most target t p.session.next b ∧
        (b = true ↔ ¬(v = w ∧ l.AgreesBeyond r))) ∧
      (l.kind = .number → ∃ i j : Int64, v = .int i ∧ w = .int j ∧
        (op = .less → p.session.present.Yields g.signature most target t p.session.next
          (i.toInt < j.toInt)) ∧
        (op = .greater → p.session.present.Yields g.signature most target t p.session.next
          (j.toInt < i.toInt))) := by
  subst hp
  have hs := ((sound_start h).takeAll requests).states.present
  obtain ⟨hl, -⟩ := hs.plain.nodes _ l hop.getLeft hop.literal
  obtain ⟨hr, -⟩ := hs.plain.nodes _ r hop.getRight (hop.same ▸ hop.literal)
  obtain ⟨v, hv⟩ := hl.exists_literal hop.literal
  obtain ⟨w, hw⟩ := hr.exists_literal (hop.same ▸ hop.literal)
  have hfields : l.fields = r.fields ↔ v = w ∧ l.AgreesBeyond r := by
    rw [Node.fields_eq_iff hop.literal hop.same, hv, hw, Option.some.injEq]
  refine ⟨v, w, hv, hw, ?_, ?_, fun hk => ?_⟩
  · rintro rfl
    exact ⟨_, hs.yields ht hop rfl most, by rw [decide_eq_true_iff, hfields]⟩
  · rintro rfl
    exact ⟨_, hs.yields ht hop rfl most, by rw [decide_eq_true_iff, Ne, hfields]⟩
  · obtain ⟨i, hi, -⟩ := hl.exists_number hk
    obtain ⟨j, hj, -⟩ := hr.exists_number (hop.same.trans hk)
    refine ⟨i, j, ?_, ?_, ?_, ?_⟩
    · exact Option.some.inj (hv.symm.trans (Node.literal?_of_int? hk hi))
    · exact Option.some.inj (hw.symm.trans (Node.literal?_of_int? (hop.same.trans hk) hj))
    · rintro rfl
      exact hs.yields ht hop (Operator.ordered_eq_some_iff.2
        ⟨hk, i, j, hi, hj, by simp only [Int64.lt_iff_toInt_lt]⟩) most
    · rintro rfl
      exact hs.yields ht hop (Operator.ordered_eq_some_iff.2
        ⟨hk, i, j, hi, hj, by simp only [Int64.lt_iff_toInt_lt]⟩) most

/-- A game whose level compares two ones, of which the first has a note. -/
def noting : Game where
  levels := ⟨[{ board := [.binop "==" ((Term.number 1).withField "note" (.text "x")) (.number 1)] }]⟩

/-- The operands have the same value, and yet a step says that they are not equal. -/
theorem compares_of_start_noting : ∃ session t l r, noting.start 0 = .ok session ∧
    session.present.Finds noting.signature 1 t ∧
    t.root.OperatesOn session.present.nodes .equal l r ∧
    l.literal? = some (.int 1) ∧ r.literal? = some (.int 1) ∧
    ∀ most, session.present.Yields noting.signature most 1 t session.next false := by
  have hplace : (noting.start 0).toOption.map (fun session =>
      (session.present.board, (session.present.nodes.idsUnder 1).toOption,
        (noting.signature.redex session.present.nodes 1).toOption)) =
      some ([1], some [2, 3, 1], some (some 1)) := by
    decide +kernel
  have hroot : (noting.start 0).toOption.map (fun session =>
      (session.present.nodes.get? 1).map fun n =>
        ((n.kind, n.parent), n.text? "op", [n.slots.get? "left", n.slots.get? "right"])) =
      some (some ((.binop, none), some "==", [some 2, some 3])) := by
    decide +kernel
  have hnodes : (noting.start 0).toOption.map (fun session => [2, 3].map fun x =>
      (session.present.nodes.get? x).map fun n => (n.kind, n.literal?, n.field? "note")) =
      some [some (.number, some (.int 1), some (.text "x")), some (.number, some (.int 1), none)] := by
    decide +kernel
  obtain ⟨session, h⟩ : ∃ session, noting.start 0 = .ok session := by
    obtain ⟨session, h, -⟩ := Option.map_eq_some_iff.1 hplace
    exact ⟨session, toOption_eq_some_iff.1 h⟩
  rw [h] at hplace hroot hnodes
  simp only [Except.toOption, Option.map_some, Option.some.injEq, Prod.mk.injEq, List.map_cons,
    List.map_nil, List.cons.injEq, and_true, Option.map_eq_some_iff] at hplace hroot hnodes
  obtain ⟨hboard, hids, hredex⟩ := hplace
  obtain ⟨n, hn, ⟨hk, hparent⟩, hop, hleft, hright⟩ := hroot
  obtain ⟨⟨l, hl, hlk, hlv, hlnote⟩, r, hr, hrk, hrv, hrnote⟩ := hnodes
  obtain ⟨t, hid, ht, -⟩ := Forest.exists_plant_of_idsUnder (toOption_eq_some_iff.1 hids)
  obtain rfl := Option.some.inj (ht.get?_id.symm.trans (hid ▸ hn))
  have hself : session.present.nodes.RootOf 1 1 := ⟨⟨_, hn, hparent⟩, 0, .refl hn⟩
  have hfinds : session.present.Finds noting.signature 1 t :=
    ⟨ht, ⟨1, hboard ▸ List.mem_singleton_self 1, hself⟩, hid.symm ▸ toOption_eq_some_iff.1 hredex⟩
  have hoperates : t.root.OperatesOn session.present.nodes .equal l r :=
    ⟨hk, hop, (Forest.id_of_get? hl).symm ▸ hleft, (Forest.id_of_get? hr).symm ▸ hright,
      (Forest.id_of_get? hl).symm ▸ hl, (Forest.id_of_get? hr).symm ▸ hr, by rw [hlk]; decide,
      hrk.trans hlk.symm⟩
  refine ⟨session, t, l, r, h, hfinds, hoperates, hlv, hrv, fun most => ?_⟩
  obtain ⟨v, w, -, -, hequal, -⟩ := compares_of_start h [] rfl hfinds hoperates most
  obtain ⟨b, hyields, hiff⟩ := hequal rfl
  -- the note is a field that numbers do not declare
  have hdiffer : ¬l.AgreesBeyond r := fun hagrees => by
    have hnote := hagrees "note" (by rw [hlk]; decide)
    rw [hlnote, hrnote] at hnote
    cases hnote
  obtain rfl : b = false := by
    rw [← Bool.not_eq_true, hiff]
    exact fun hb => hdiffer hb.2
  exact hyields

end Play

end TermForest
