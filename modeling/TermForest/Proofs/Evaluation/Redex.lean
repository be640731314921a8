import TermForest.Proofs.Evaluation.Shape
import TermForest.Proofs.Normal

/-!
# Redexes and evaluation

In a term without names and functions the normal plants are the values, and the redex of any other
plant is the place that evaluation comes to first.
-/

namespace TermForest

/-- The kinds of nodes that have to do with neither names nor functions. -/
def Kind.calculates : Kind → Bool
  | .number | .boolean | .string | .symbol | .array | .hole | .not | .binop | .conditional
  | .member => true
  | .void | .lambda | .binder | .var | .apply | .reference | .define => false

instance : DecidablePred Shape.IsValue := fun t =>
  inferInstanceAs (Decidable (t.expressions = 0))

namespace Plant

/-- A well-formed plant without names and functions, none of whose nodes is locked. -/
structure Calculates (t : Plant) : Prop where
  formed : t.Formed 0
  kinds : ∀ n ∈ t.nodes, n.kind.calculates = true
  unlocked : ∀ n ∈ t.nodes, n.locked = false

theorem calculates_mk_iff {root : Node} {parts : List Plant} :
    (mk root parts).Calculates ↔ (root.Formed 0 ∧ root.kind.calculates = true ∧
      root.locked = false) ∧ ∀ p ∈ parts, p.Calculates := by
  have hnodes : ∀ {P : Node → Prop}, (∀ n ∈ (mk root parts).nodes, P n) ↔
      P root ∧ ∀ p ∈ parts, ∀ n ∈ p.nodes, P n := by
    intro P
    simp only [nodes_mk, List.mem_append, List.mem_flatMap, List.mem_singleton]
    grind
  constructor
  · rintro ⟨hf, hk, hu⟩
    obtain ⟨hf, hfs⟩ := formed_mk_iff.1 hf
    rw [hnodes] at hk hu
    exact ⟨⟨hf, hk.1, hu.1⟩, fun p hp => ⟨hfs p hp, hk.2 p hp, hu.2 p hp⟩⟩
  · rintro ⟨⟨hf, hk, hu⟩, h⟩
    exact ⟨formed_mk_iff.2 ⟨hf, fun p hp => (h p hp).formed⟩,
      hnodes.2 ⟨hk, fun p hp => (h p hp).kinds⟩, hnodes.2 ⟨hu, fun p hp => (h p hp).unlocked⟩⟩

/-- Plants of one shape have nodes of the same kinds. -/
theorem kinds_of_shape_eq {t u : Plant} (hs : u.shape = t.shape)
    (h : ∀ n ∈ t.nodes, n.kind.calculates = true) : ∀ n ∈ u.nodes, n.kind.calculates = true := by
  induction t using induct generalizing u with
  | step root parts ih =>
    obtain ⟨root', parts'⟩ := u
    obtain ⟨hk, -, -, hp⟩ := root_of_shape_eq hs
    simp only [nodes_mk, List.mem_append, List.mem_flatMap, List.mem_singleton] at h ⊢
    rintro n (⟨p, hmem, hn⟩ | rfl)
    · have hshape : p.shape ∈ parts.map shape := hp ▸ List.mem_map_of_mem hmem
      obtain ⟨q, hq, hqp⟩ := List.mem_map.1 hshape
      exact ih q hq hqp.symm (fun m hm => h m (.inl ⟨q, hq, hm⟩)) n hn
    · exact hk ▸ h root (.inr rfl)

/-- The parts that have to be normal before the root is reduced. -/
def strict (t : Plant) : List Plant :=
  if t.root.kind = .conditional then t.parts.take 1 else t.parts

theorem strict_shape (t : Plant) : t.shape.strict = t.strict.map shape := by
  rw [Shape.strict, strict, kind_shape, parts_shape]
  split
  · exact (List.map_take ..).symm
  · rfl

theorem strict_initial (t : Plant) : t.strict <+: t.parts := by
  unfold strict
  split
  · exact List.take_prefix 1 _
  · exact List.prefix_rfl

theorem length_strict_le {t : Plant} (hk : t.root.kind = .conditional) : t.strict.length ≤ 1 := by
  rw [strict, if_pos hk]
  exact List.length_take_le 1 _

theorem isValue_shape_iff {t : Plant} :
    t.shape.IsValue ↔ t.root.kind.category = .value ∧ ∀ p ∈ t.parts, p.shape.IsValue := by
  obtain ⟨root, parts⟩ := t
  rw [shape_mk, Shape.isValue_mk_iff, List.forall_mem_map]
  rfl

/-- The child in a slot of the root is the part that stands where the name of the slot stands. -/
theorem needSlot_eq {t p : Plant} (hc : t.root.slots.children = t.parts.map id)
    (hn : t.root.slots.names = t.root.declaredSlots) {i : Nat} {slot : String}
    (hslot : t.root.declaredSlots[i]? = some slot) (hp : t.parts[i]? = some p) :
    t.root.needSlot slot = .ok p.id := by
  have hget := Slots.get?_of_getElem? (hn ▸ hslot) (c := p.id) (by simp [hc, hp])
  rw [Node.needSlot, hget]

namespace Calculates

variable {t u : Plant}

theorem of_mem_subs (h : t.Calculates) (hu : u ∈ t.subs) : u.Calculates where
  formed := h.formed.of_mem_subs hu
  kinds n hn := h.kinds n (nodes_subset_of_mem_subs hu hn)
  unlocked n hn := h.unlocked n (nodes_subset_of_mem_subs hu hn)

theorem of_mem_parts (h : t.Calculates) (hu : u ∈ t.parts) : u.Calculates :=
  h.of_mem_subs (mem_subs_of_mem_parts hu)

theorem kind (h : t.Calculates) : t.root.kind.calculates = true := h.kinds _ t.root_mem_nodes

theorem length_parts (h : t.Calculates) (hc : t.root.slots.children = t.parts.map id)
    (hk : t.root.kind ≠ .array) : t.parts.length = t.root.declaredSlots.length := by
  have := congrArg List.length hc
  rw [← h.formed.root.slots hk, Slots.length_names, ← Slots.length_children, this, List.length_map]

/-- The strict children of the root are the strict parts. -/
theorem strictChildren_eq (h : t.Calculates) (hc : t.root.slots.children = t.parts.map id)
    (peek : NodeId → Option Node) : t.root.strictChildren peek = .ok (t.strict.map id) := by
  by_cases hk : t.root.kind = .conditional
  · have hlen := h.length_parts hc (by simp [hk])
    rw [Node.declaredSlots, hk] at hlen
    obtain ⟨c, positive, negative, hparts⟩ := List.length_eq_three.1 hlen
    have hcondition : t.root.needSlot "condition" = .ok c.id :=
      needSlot_eq hc (h.formed.root.slots (by simp [hk])) (i := 0)
        (by simp [Node.declaredSlots, hk]) (by simp [hparts])
    rw [Node.strictChildren, hk, strict, if_pos hk, hparts]
    dsimp only
    rw [hcondition]
    rfl
  · have hleaf : t.root.kind ≠ .array → t.root.declaredSlots = [] → t.root.slots.children = [] := by
      intro harray hslots
      have hlen := h.length_parts hc harray
      rw [hslots, List.length_nil, List.length_eq_zero_iff] at hlen
      rw [hc, hlen, List.map_nil]
    have hkind := h.kind
    rw [strict, if_neg hk, ← hc]
    unfold Node.strictChildren
    split
    case h_2 hk' => exact absurd hk' hk
    any_goals rfl
    case h_1 hk' | h_14 hk' | h_15 hk' | h_16 hk' | h_17 hk' =>
      rw [hk'] at hkind
      exact absurd hkind Bool.false_ne_true
    all_goals
      next hk' => rw [hleaf (by simp [hk']) (by simp [Node.declaredSlots, hk'])]

/-- An array has as many parts as its length says, each in the slot of its position. -/
theorem exists_length (h : t.Calculates) (hc : t.root.slots.children = t.parts.map id)
    (hk : t.root.kind = .array) : ∃ length, t.root.needInt "length" = .ok length ∧
      length.toInt = t.parts.length ∧
      ∀ (i : Nat) p, t.parts[i]? = some p → t.root.needSlot (elementSlot i) = .ok p.id := by
  obtain ⟨hnames, hlength, hsize⟩ := h.formed.root.elements hk
  have hlen : t.root.slots.size = t.parts.length := by
    rw [← Slots.length_children, hc, List.length_map]
  refine ⟨_, by rw [Node.needInt, hlength], ?_, fun i p hp => ?_⟩
  · rw [Node.toInt_ofNat (hsize.resolve_right (Nat.not_lt_zero _)), hlen]
  · have hi : i < t.root.slots.size := hlen ▸ (List.getElem?_eq_some_iff.1 hp).1
    have hget : t.root.slots.get? (elementSlot i) = some p.id :=
      Slots.get?_of_getElem? (i := i) (by simp [hnames, hi]) (by simp [hc, hp])
    rw [Node.needSlot, hget]

/-- An expression whose strict parts are values is ready. -/
theorem ready (h : t.Calculates) (hc : t.root.slots.children = t.parts.map id)
    (hk : t.root.kind.category = .expression) (hv : ∀ p ∈ t.strict, p.shape.IsValue) :
    t.shape.Ready where
  expression := by rwa [kind_shape]
  values := by rwa [strict_shape, List.forall_mem_map]
  branches hk' := by
    rw [kind_shape] at hk'
    rw [parts_shape, List.length_map, h.length_parts hc (by simp [hk']), Node.declaredSlots, hk']
    rfl

/-- No expression of these kinds counts as a function. -/
theorem coarseType_ne (h : t.Calculates) (peek : NodeId → Option Node) :
    t.root.coarseType peek ≠ .lambda := by
  have hkind := h.kind
  unfold Node.coarseType
  split
  case h_6 hk | h_10 hk =>
    rw [hk] at hkind
    exact absurd hkind Bool.false_ne_true
  all_goals exact CoarseType.noConfusion

end Calculates

/-- The plant `r` stands in a plant at the place that evaluation comes to first, and is ready to be
reduced. -/
inductive RedexIn (r : Plant) : Plant → Prop
  | here (ready : r.shape.Ready) : RedexIn r r
  | inside {root : Node} {before after : List Plant} {p : Plant}
      (values : ∀ q ∈ before, q.shape.IsValue) (first : root.kind = .conditional → before = [])
      (part : RedexIn r p) : RedexIn r (.mk root (before ++ p :: after))

namespace RedexIn

variable {r t : Plant}

theorem mem_subs (h : r.RedexIn t) : r ∈ t.subs := by
  induction h with
  | here => exact r.mem_subs_self
  | inside _ _ _ ih => exact mem_subs_mk.2 (.inr ⟨_, by simp, ih⟩)

theorem ready (h : r.RedexIn t) : r.shape.Ready := by
  induction h with
  | here ready => exact ready
  | inside _ _ _ ih => exact ih

/-- Evaluation comes first to what stands there. -/
theorem differs (h : r.RedexIn t) : Shape.Differs r.shape r.shape t.shape t.shape := by
  induction h with
  | here => exact .here
  | @inside root before after p values first _ ih =>
    rw [shape_mk, List.map_append, List.map_cons]
    refine ih.inside (by simpa using values) fun hk => ?_
    rw [first hk, List.map_nil]

end RedexIn

end Plant

namespace Tree.Shows

variable {T : Tree} {t : Plant} {S : Signature}

/-- The values are the normal plants. -/
theorem isNormal_eq_decide (h : T.Shows t) (hS : S.Full) (ht : t.Calculates) :
    T.isNormal S = .ok (decide t.shape.IsValue) := by
  induction h with
  | @node root below parts children shown ih =>
    rw [Tree.isNormal, hS.requireKind, ok_bind]
    split
    · next hk =>
      have hne : root.coarseType _ ≠ _ := ht.coarseType_ne fun child => (below child).root?
      rw [decide_eq_false hne,
        decide_eq_false fun hv => absurd (Plant.isValue_shape_iff.1 hv).1 (by simp [hk])]
      rfl
    · next hk =>
      have hne : root.kind ≠ .conditional := fun hc => by simp [hc, Kind.category] at hk
      have hstrict : (Plant.mk root parts).strict = parts := if_neg hne
      rw [show root.strictChildren _ = _ from ht.strictChildren_eq children _, ok_bind, hstrict,
        allM_map_eq_ok (f := Plant.id) (p := fun child => (below child).isNormal S)
          fun p hp => ih p hp (ht.of_mem_parts hp)]
      congr 1
      rw [Bool.eq_iff_iff]
      simp [Plant.isValue_shape_iff (t := .mk root parts), hk]

theorem redex_of_calculates (h : T.Shows t) (hS : S.Full) (ht : t.Calculates) :
    (t.shape.IsValue → T.redex S = .ok none) ∧
      (¬t.shape.IsValue → ∃ r : Plant, T.redex S = .ok (some r.id) ∧ r.RedexIn t) := by
  induction h with
  | @node root below parts children shown ih =>
    have hlocked : ¬root.locked = true := by simp [ht.unlocked root (Plant.root_mem_nodes _)]
    have hfind : ((Plant.mk root parts).strict.map Plant.id).findM?
        (fun child => return !(← (below child).isNormal S)) =
          .ok (((Plant.mk root parts).strict.find? fun p => !decide p.shape.IsValue).map Plant.id) :=
      findM?_map_eq_ok fun p hp => by
        have hp := (Plant.mk root parts).strict_initial.subset hp
        rw [(shown p hp).isNormal_eq_decide hS (ht.of_mem_parts hp)]
        rfl
    rw [Tree.redex, if_neg hlocked, hS.requireKind, ok_bind,
      show root.strictChildren _ = _ from ht.strictChildren_eq children _, ok_bind, hfind, ok_bind]
    cases hfound : (Plant.mk root parts).strict.find? fun p => !decide p.shape.IsValue with
    | none =>
      have hvalues : ∀ p ∈ (Plant.mk root parts).strict, p.shape.IsValue := by
        simpa using hfound
      cases hk : root.kind.category with
      | value =>
        have hne : root.kind ≠ .conditional := fun hc => by simp [hc, Kind.category] at hk
        rw [show (Plant.mk root parts).strict = parts from if_neg hne] at hvalues
        have hroot := Plant.isValue_shape_iff (t := .mk root parts).2 ⟨hk, hvalues⟩
        exact ⟨fun _ => rfl, fun hv => absurd hroot hv⟩
      | expression =>
        refine ⟨fun hv => ?_, fun _ => ⟨_, rfl, .here (ht.ready children hk hvalues)⟩⟩
        exact absurd (Plant.isValue_shape_iff.1 hv).1 (by simp [hk])
    | some p =>
      obtain ⟨hp, before, after, hstrict, hbefore⟩ := List.find?_eq_some_iff_append.1 hfound
      obtain ⟨rest, hrest⟩ := (Plant.mk root parts).strict_initial
      rw [hstrict, List.append_assoc, List.cons_append, Plant.parts_mk] at hrest
      have hmem : p ∈ parts := hrest ▸ by simp
      have hp : ¬p.shape.IsValue := by simpa using hp
      refine ⟨fun hv => absurd ((Plant.isValue_shape_iff.1 hv).2 p hmem) hp, fun _ => ?_⟩
      obtain ⟨r, hr, hin⟩ := (ih p hmem (ht.of_mem_parts hmem)).2 hp
      have hfirst : root.kind = .conditional → before = [] := fun hk => by
        have hlen := Plant.length_strict_le (t := .mk root parts) hk
        rw [hstrict, List.length_append, List.length_cons] at hlen
        exact List.length_eq_zero_iff.1 (by lia)
      have hinside : r.RedexIn (.mk root (before ++ p :: (after ++ rest))) :=
        hin.inside (by simpa using hbefore) hfirst
      exact ⟨r, hr, hrest ▸ hinside⟩

end Tree.Shows

end TermForest
