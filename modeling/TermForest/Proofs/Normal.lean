import TermForest.Proofs.Forest.Walk

/-!
# Redexes of plants

The search for a redex stays within a plant, and gives an answer when the nodes have the slots of
their kinds and the signature knows the kinds.
-/

namespace TermForest

namespace Forest

variable {F : Forest} {S : Signature} {depth : Nat} {x r : NodeId}

/-- A search that finds a redex is at a node that is not locked. It has found it below a strict child, or
it has found all strict children normal and is at the redex. -/
theorem redex_cases (h : (F.unfold (depth + 1) x).redex S = .ok (some r)) :
    ∃ n cs, F.get? x = some n ∧ n.locked = false ∧ S.requireKind n.kind = .ok () ∧
      n.strictChildren (fun c => (F.unfold depth c).root?) = .ok cs ∧
      ((∃ c ∈ cs, (F.unfold depth c).redex S = .ok (some r)) ∨
        r = x ∧ n.kind.category = .expression ∧
          ∀ c ∈ cs, (F.unfold depth c).isNormal S = .ok true) := by
  rw [unfold] at h
  cases hn : F.get? x with
  | none =>
    rw [hn] at h
    cases h
  | some n =>
    rw [hn, Tree.redex] at h
    split at h
    · cases h
    next hlocked =>
    obtain ⟨⟨⟩, hkind, h⟩ := bind_eq_ok_iff.1 h
    obtain ⟨cs, hcs, h⟩ := bind_eq_ok_iff.1 h
    obtain ⟨found, hfound, h⟩ := bind_eq_ok_iff.1 h
    refine ⟨n, cs, rfl, by simpa using hlocked, hkind, hcs, ?_⟩
    cases found with
    | some c => exact .inl ⟨c, mem_of_findM?_eq_some hfound, h⟩
    | none =>
      dsimp only at h
      split at h <;> cases h
      exact .inr ⟨id_of_get? hn, ‹_›, fun c hc =>
        return_not_eq_ok_iff.1 (findM?_eq_ok_none_iff.1 hfound c hc)⟩

/-- What is found to be normal is there, and of a known kind. -/
theorem exists_of_isNormal {b : Bool} (h : (F.unfold depth x).isNormal S = .ok b) :
    ∃ n, F.get? x = some n ∧ S.requireKind n.kind = .ok () := by
  cases depth with
  | zero => cases h
  | succ depth =>
    rw [unfold] at h
    cases hn : F.get? x with
    | none =>
      rw [hn] at h
      cases h
    | some n =>
      rw [hn, Tree.isNormal] at h
      obtain ⟨⟨⟩, hkind, -⟩ := bind_eq_ok_iff.1 h
      exact ⟨n, rfl, hkind⟩

/-- A redex is an expression. -/
theorem expression_of_redex (h : (F.unfold depth x).redex S = .ok (some r)) :
    ∃ n, F.get? r = some n ∧ n.kind.category = .expression := by
  induction depth generalizing x with
  | zero => cases h
  | succ depth ih =>
    obtain ⟨n, cs, hn, -, -, -, ⟨c, -, hc⟩ | ⟨rfl, hk, -⟩⟩ := redex_cases h
    · exact ih hc
    · exact ⟨n, hn, hk⟩

end Forest

namespace Signature

theorem expression_of_redex {S : Signature} {F : Forest} {id : NodeId} {n : Node}
    (h : S.redex F id = .ok (some n.id)) (hn : F.get? n.id = some n) :
    n.kind.category = .expression := by
  obtain ⟨m, hm, hk⟩ := Forest.expression_of_redex h
  rw [hn, Option.some.injEq] at hm
  exact hm ▸ hk

/-- A signature that admits every kind, and every builtin with the phases it has. -/
structure Full (S : Signature) : Prop where
  kinds : ∀ k, k ∈ S.kinds
  builtins : ∀ b : Builtin, S.builtin? b.name = some { builtin := b }

theorem full_standard : standard.Full where
  kinds := by
    intro k
    cases k <;> decide
  builtins := by
    intro b
    cases b <;> decide

theorem Full.requireKind {S : Signature} (h : S.Full) (k : Kind) : S.requireKind k = .ok () :=
  if_pos (h.kinds k)

end Signature

/-! ### Strict children -/

namespace Node

variable {n : Node} {peek : NodeId → Option Node}

theorem mem_children_of_needSlot {slot : String} {c : NodeId} (h : n.needSlot slot = .ok c) :
    c ∈ n.slots.children := by
  unfold needSlot at h
  split at h
  · next child hc =>
    cases h
    exact Slots.mem_children_iff.2 ⟨slot, hc⟩
  · cases h

theorem strictChildren_subset {cs : List NodeId} (h : n.strictChildren peek = .ok cs) :
    cs ⊆ n.slots.children := by
  unfold strictChildren at h
  split at h
  · obtain ⟨callee, hcallee, h⟩ := bind_eq_ok_iff.1 h
    obtain ⟨argument, hargument, h⟩ := bind_eq_ok_iff.1 h
    have hc := mem_children_of_needSlot hcallee
    have ha := mem_children_of_needSlot hargument
    split at h
    · cases h
    · split at h <;> cases h <;> simp [hc, ha]
  · obtain ⟨condition, hcondition, h⟩ := bind_eq_ok_iff.1 h
    cases h
    simp [mem_children_of_needSlot hcondition]
  any_goals
    cases h
    simp

theorem Formed.exists_strictChildren {next : Nat} (h : n.Formed next)
    (peek : NodeId → Option Node) (hp : ∀ c ∈ n.slots.children, (peek c).isSome = true) :
    ∃ cs, n.strictChildren peek = .ok cs := by
  unfold strictChildren
  split
  · next hk =>
    have harray : n.kind ≠ .array := by simp [hk]
    obtain ⟨callee, hget, hcallee⟩ :=
      h.exists_needSlot harray "callee" (by simp [declaredSlots, hk])
    obtain ⟨argument, -, hargument⟩ :=
      h.exists_needSlot harray "argument" (by simp [declaredSlots, hk])
    obtain ⟨f, hf⟩ := Option.isSome_iff_exists.1
      (hp callee (Slots.mem_children_iff.2 ⟨_, hget⟩))
    rw [hcallee, hargument, ok_bind, ok_bind, hf]
    dsimp only
    split <;> exact ⟨_, rfl⟩
  · next hk =>
    obtain ⟨condition, -, hcondition⟩ :=
      h.exists_needSlot (by simp [hk]) "condition" (by simp [declaredSlots, hk])
    rw [hcondition]
    exact ⟨_, rfl⟩
  all_goals exact ⟨_, rfl⟩

end Node

/-! ### Normal plants -/

/-- A plant in which nothing is left to do: a value, an array only if its elements are normal, or a
named function one of whose parameters still holds a hole. -/
inductive Plant.Normal : Plant → Prop where
  | value {t : Plant} (hk : t.root.kind.category = .value) (ha : t.root.kind ≠ .array) : Normal t
  | array {t : Plant} (hk : t.root.kind = .array) (elements : ∀ p ∈ t.parts, Normal p) : Normal t
  | function {t : Plant} (hk : t.root.kind = .reference)
      (hole : ∃ p ∈ t.parts, p.root.kind = .hole) : Normal t

namespace Node

variable {n : Node} {peek : NodeId → Option Node}

/-- An open parameter holds a hole. -/
theorem exists_hole_of_openParameter? {e : String × NodeId} (h : n.openParameter? peek = some e) :
    ∃ c ∈ n.slots.children, ∃ m, peek c = some m ∧ m.kind = .hole := by
  obtain ⟨parameter, -, h⟩ := List.exists_of_findSome?_eq_some h
  simp only [Option.bind_eq_bind, Option.bind_eq_some_iff] at h
  obtain ⟨child, hchild, m, hm, h⟩ := h
  split at h
  · next hk => exact ⟨child, Slots.mem_children_iff.2 ⟨_, hchild⟩, m, hm, hk⟩
  · cases h

/-- A named function whose parameters are its slots has an open one if a child is a hole. -/
theorem Formed.isSome_openParameter? {next : Nat} (h : n.Formed next) (hk : n.kind = .reference)
    {c : NodeId} {m : Node} (hc : c ∈ n.slots.children) (hm : peek c = some m)
    (hole : m.kind = .hole) : (n.openParameter? peek).isSome = true := by
  obtain ⟨slot, hslot⟩ := Slots.mem_children_iff.1 hc
  have hname := Slots.mem_names_iff.2 ⟨c, hslot⟩
  rw [h.slots (by simp [hk]), declaredSlots, hk, List.mem_map] at hname
  obtain ⟨parameter, hparameter, rfl⟩ := hname
  rw [openParameter?, List.findSome?_isSome_iff]
  refine ⟨parameter, hparameter, ?_⟩
  simp [hslot, hm, hole]

/-- Only a named function is an expression that counts as a function. -/
theorem openParameter?_of_coarseType (hk : n.kind.category = .expression)
    (h : n.coarseType peek = .lambda) :
    n.kind = .reference ∧ (n.openParameter? peek).isSome = true := by
  cases hkind : n.kind <;> simp [coarseType, hkind, Kind.category] at h hk ⊢
  exact Option.isSome_iff_ne_none.2 h

end Node

/-! ### The search -/

namespace Tree.Shows

variable {T : Tree} {t : Plant} {S : Signature} {next : Nat}

theorem exists_strictChildren {root : Node} {below : NodeId → Tree} {parts : List Plant}
    (children : root.slots.children = parts.map Plant.id)
    (shown : ∀ p ∈ parts, (below p.id).Shows p) (hroot : root.Formed next) :
    ∃ cs, root.strictChildren (fun child => (below child).root?) = .ok cs ∧
      ∀ c ∈ cs, ∃ p ∈ parts, p.id = c := by
  obtain ⟨cs, hcs⟩ := hroot.exists_strictChildren (fun child => (below child).root?) (by
    intro c hc
    rw [children, List.mem_map] at hc
    obtain ⟨p, hp, rfl⟩ := hc
    rw [(shown p hp).root?]
    rfl)
  refine ⟨cs, hcs, fun c hc => ?_⟩
  have hc := Node.strictChildren_subset hcs hc
  rwa [children, List.mem_map] at hc

/-- What is found to be normal is. -/
theorem normal_of_isNormal (h : T.Shows t) (hn : T.isNormal S = .ok true) : t.Normal := by
  induction h with
  | @node root below parts children shown ih =>
    rw [Tree.isNormal] at hn
    obtain ⟨_, -, hn⟩ := bind_eq_ok_iff.1 hn
    split at hn
    · next hk =>
      have htype : root.coarseType (fun child => (below child).root?) = .lambda := by simpa using hn
      obtain ⟨href, hopen⟩ := Node.openParameter?_of_coarseType hk htype
      obtain ⟨e, he⟩ := Option.isSome_iff_exists.1 hopen
      obtain ⟨c, hc, m, hm, hole⟩ := Node.exists_hole_of_openParameter? he
      rw [children, List.mem_map] at hc
      obtain ⟨p, hp, rfl⟩ := hc
      rw [(shown p hp).root?, Option.some.injEq] at hm
      exact .function href ⟨p, hp, hm ▸ hole⟩
    · next hk =>
      by_cases ha : root.kind = .array
      · refine .array ha fun p hp => ih p hp ?_
        rw [Node.strictChildren, ha] at hn
        exact allM_eq_ok_true.1 hn p.id (children ▸ List.mem_map_of_mem hp)
      · exact .value hk ha

theorem exists_isNormal (h : T.Shows t) (hS : S.Full) (ht : t.Formed next) :
    ∃ b, T.isNormal S = .ok b := by
  induction h with
  | @node root below parts children shown ih =>
    obtain ⟨hroot, hparts⟩ := Plant.formed_mk_iff.1 ht
    rw [Tree.isNormal, hS.requireKind, ok_bind]
    split
    · exact ⟨_, rfl⟩
    · obtain ⟨cs, hcs, hpart⟩ := exists_strictChildren children shown hroot
      rw [hcs, ok_bind]
      refine exists_allM_ok fun c hc => ?_
      obtain ⟨p, hp, rfl⟩ := hpart c hc
      exact ih p hp (hparts p hp)

/-- What is normal is found to be. -/
theorem isNormal_of_normal (h : T.Shows t) (hS : S.Full) (ht : t.Formed next) (hn : t.Normal) :
    T.isNormal S = .ok true := by
  induction h with
  | @node root below parts children shown ih =>
    obtain ⟨hroot, hparts⟩ := Plant.formed_mk_iff.1 ht
    rw [Tree.isNormal, hS.requireKind, ok_bind]
    cases hn with
    | value hk ha =>
      rw [Plant.root_mk] at hk ha
      rw [hk]
      cases hkind : root.kind <;> simp [hkind, Kind.category] at hk ha <;>
        simp [Node.strictChildren, hkind]
    | array hk elements =>
      rw [Plant.root_mk] at hk
      rw [hk, Node.strictChildren, hk]
      refine allM_eq_ok_true.2 fun c hc => ?_
      rw [children, List.mem_map] at hc
      obtain ⟨p, hp, rfl⟩ := hc
      exact ih p hp (hparts p hp) (elements p hp)
    | function hk hole =>
      rw [Plant.root_mk] at hk
      obtain ⟨p, hp, hole⟩ := hole
      have hopen : (root.openParameter? fun child => (below child).root?).isSome = true :=
        hroot.isSome_openParameter? hk (children ▸ List.mem_map_of_mem hp) (shown p hp).root? hole
      simp [hk, Kind.category, Node.coarseType, hopen]

theorem exists_redex (h : T.Shows t) (hS : S.Full) (ht : t.Formed next) :
    ∃ r, T.redex S = .ok r := by
  induction h with
  | @node root below parts children shown ih =>
    obtain ⟨hroot, hparts⟩ := Plant.formed_mk_iff.1 ht
    rw [Tree.redex]
    split
    · exact ⟨_, rfl⟩
    · obtain ⟨cs, hcs, hpart⟩ := exists_strictChildren children shown hroot
      obtain ⟨found, hfound⟩ := exists_findM?_ok cs
        (p := fun child => return !(← (below child).isNormal S)) (by
          intro c hc
          obtain ⟨p, hp, rfl⟩ := hpart c hc
          obtain ⟨b, hb⟩ := (shown p hp).exists_isNormal hS (hparts p hp)
          exact ⟨!b, by rw [hb]; rfl⟩)
      rw [hS.requireKind, ok_bind, hcs, ok_bind, hfound, ok_bind]
      cases found with
      | none =>
        dsimp only
        split <;> exact ⟨_, rfl⟩
      | some c =>
        obtain ⟨p, hp, rfl⟩ := hpart c (mem_of_findM?_eq_some hfound)
        exact ih p hp (hparts p hp)

/-- The redex of a term is one of its nodes, which is not locked. -/
theorem redex_mem (h : T.Shows t) {r : NodeId} (hr : T.redex S = .ok (some r)) :
    ∃ u ∈ t.subs, u.id = r ∧ u.root.locked = false := by
  induction h with
  | @node root below parts children shown ih =>
    rw [Tree.redex] at hr
    split at hr
    · cases hr
    · next hlocked =>
      obtain ⟨_, -, hr⟩ := bind_eq_ok_iff.1 hr
      obtain ⟨cs, hcs, hr⟩ := bind_eq_ok_iff.1 hr
      obtain ⟨found, hfound, hr⟩ := bind_eq_ok_iff.1 hr
      cases found with
      | none =>
        dsimp only at hr
        split at hr <;> cases hr
        exact ⟨_, Plant.mem_subs_self _, rfl, by simpa using hlocked⟩
      | some c =>
        have hc := Node.strictChildren_subset hcs (mem_of_findM?_eq_some hfound)
        rw [children, List.mem_map] at hc
        obtain ⟨p, hp, rfl⟩ := hc
        obtain ⟨u, hu, hur⟩ := ih p hp hr
        exact ⟨u, Plant.mem_subs_mk.2 (.inr ⟨p, hp, hu⟩), hur⟩

end Tree.Shows

end TermForest
