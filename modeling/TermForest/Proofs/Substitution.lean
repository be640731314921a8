import TermForest.Proofs.Forest.Kept
import TermForest.Proofs.Rule.Freshen

/-!
# Applying a lambda substitutes

In a linked forest of well-formed nodes a lambda is applied to an argument by substitution that catches
no variable. With an index for each bound variable, the result reads as the body does with the argument
in place of the free occurrences of the variable of the lambda. It is made of new nodes; the nodes that
were there stay as they are.
-/

namespace TermForest

variable {F G : Forest} {next : Nat} {lambda : Node} {x : String} {t body argument : Plant}

/-! ### Lambdas -/

/-- Every lambda in a plant has a binder, or a hole without a name in the place of one. -/
def Forest.BindsIn (F : Forest) (t : Plant) : Prop :=
  ∀ n ∈ t.nodes, n.kind = .lambda → ∀ m, F.peek n "arg" = some m →
    m.kind = .binder ∨ m.kind = .hole ∧ m.name? = none

/-- A node of a forest that is a lambda with a binder of a name and with a body. -/
structure Forest.Abstracts (F : Forest) (lambda : Node) (x : String) (body : Plant) : Prop where
  get : F.get? lambda.id = some lambda
  kind : lambda.kind = .lambda
  binder : ∃ m, F.peek lambda "arg" = some m ∧ m.kind = .binder ∧ m.name? = some x
  slot : lambda.slots.get? "body" = some body.id
  held : F.Holds body

/-- A binder, or a hole in its place, has no parts. -/
theorem Plant.isBinder_shape (hf : t.root.Formed next)
    (hc : t.root.slots.children = t.parts.map Plant.id)
    (hk : t.root.kind = .binder ∨ t.root.kind = .hole ∧ t.root.name? = none) :
    t.shape.IsBinder := by
  have hleaf : t.parts = [] := by
    apply parts_eq_nil hf _ _ hc
    · rcases hk with hk | ⟨hk, -⟩ <;> rw [Node.declaredSlots, hk]
    · rcases hk with hk | ⟨hk, -⟩ <;> simp [hk]
  constructor
  · rw [parts_shape, hleaf, List.map_nil]
  · rwa [kind_shape, name?_shape]

theorem Forest.Holds.proper (h : F.Holds t) (hf : t.Formed next) (hb : F.BindsIn t) :
    t.shape.Proper := by
  induction t using Plant.induct with
  | step root parts ih =>
    obtain ⟨hroot, hparts⟩ := Plant.formed_mk_iff.1 hf
    have hpart : ∀ p ∈ parts, p.shape.Proper := by
      intro p hp
      have hsub := Plant.mem_subs_of_mem_parts (t := .mk root parts) hp
      apply ih p hp (h.of_mem_subs hsub) (hparts p hp)
      exact fun n hn => hb n (Plant.nodes_subset_of_mem_subs hsub hn)
    rw [Plant.shape_mk]
    by_cases hk : root.kind = .lambda
    · obtain ⟨v, w, rfl, harg, -⟩ :=
        Plant.exists_parts_of_lambda (t := .mk root parts) hroot hk h.children
      have hv := h.of_mem_subs (Plant.mem_subs_of_mem_parts (u := v) (by simp))
      have hpeek : F.peek root "arg" = some v.root :=
        (congrArg (Option.bind · F.get?) harg).trans hv.get?_id
      rw [hk]
      apply Shape.Proper.lambda _ (hpart w (by simp))
      exact Plant.isBinder_shape (hparts v (by simp)).root hv.children
        (hb root (Plant.root_mem_nodes _) hk _ hpeek)
    · apply Shape.Proper.other hk
      intro p hp
      obtain ⟨q, hq, rfl⟩ := List.mem_map.1 hp
      exact hpart q hq

/-! ### Results -/

/-- What a body gives with an argument in place of a variable. The bound variables of the body are
renamed, to names that are spelled neither in the body nor in the argument, and the argument stands at
the free occurrences of the variable. -/
structure Plant.Substituted (x : String) (body argument result : Plant) : Prop where
  read : result.shape.read [] = (body.shape.read []).substitute x (argument.shape.read [])
  renamed : ∃ t, body.shape.Respells
      (fun y => y ∉ body.shape.spelled ∧ y ∉ argument.shape.spelled) t ∧
    (∀ scope, t.read scope = body.shape.read scope) ∧
    result.shape = t.editFree x fun _ => argument.shape

theorem Plant.Applied.substituted {lo hi : Nat} {t' u : Plant}
    (h : body.Applied x argument lo hi t t' u) (hb : body.shape.Proper)
    (ha : argument.shape.Proper) : Plant.Substituted x body argument u := by
  have ht : t.shape.Proper := h.copy ▸ hb
  have hrespells := h.fresh.respells h.grown.nodup ht
  have ht' : t'.shape.Proper := hrespells.proper ht
  have hread : ∀ scope, t'.shape.read scope = body.shape.read scope := by
    intro scope
    rw [h.fresh.read_eq h.grown.nodup ht, h.copy]
    intro y hy
    simp [hy]
  -- no lambda is left that would catch a variable of the argument
  have hbinders : ∀ y ∈ t'.shape.binders, y ∈ argument.shape.free → y = x := by
    intro y hy hfree
    obtain ⟨s, hs, hbound⟩ := Plant.exists_bound?_of_mem_binders ht' hy
    by_contra hne
    apply h.fresh.not_bound (p := fun y => y ≠ x ∧ y ∈ argument.shape.free) h.grown.nodup ht _ _
      s hs y hbound ⟨hne, hfree⟩
    · intro y hy
      simp [ha.mem_spelled_of_mem_free hy.2]
    · intro s hs y hbound hy
      exact List.mem_map_of_mem (List.mem_filter.2 ⟨hs, by simp [hbound, hy]⟩)
  constructor
  · rw [h.shape, ht'.read_editFree ha List.not_mem_nil (by simp) hbinders, hread]
  · refine ⟨t'.shape, ?_, hread, h.shape⟩
    rw [← h.copy]
    apply hrespells.mono
    intro y hy
    simp only [List.cons_append, List.mem_cons, List.mem_append, not_or] at hy
    exact hy.2

/-- Applying a lambda to an argument substitutes the argument for the variable. The result is a plant of
new nodes beside the forest, so each copy of the argument has ids of its own, and no node that was there
is changed. -/
theorem Forest.Linked.applyLambda_substitutes (h : F.Linked)
    (hlt : ∀ (y : Nat) n, F.get? y = some n → y < next)
    (hnodes : ∀ y n, F.get? y = some n → n.WellFormed) (hl : F.Abstracts lambda x body)
    (hargument : F.Holds argument) (hb : F.BindsIn body) (ha : F.BindsIn argument) :
    ∃ result G next', ((Editing.applyLambda lambda argument.id).run F).runFrom next =
        (.ok (result.id, G), next') ∧ next ≤ next' ∧ F.Sprouts G next next' result ∧
      Plant.Substituted x body argument result := by
  have hstocked := h.stocked hlt fun y n hy => (hnodes y n hy).formed next
  obtain ⟨l, rfl, hheld, -⟩ := hstocked _ _ hl.get
  obtain ⟨-, -, hlf⟩ := hstocked.of_holds hheld
  obtain ⟨m, hpeek, -, hname⟩ := hl.binder
  have hx : l.shape.bound? = some x := by
    rw [← hheld.boundName?_eq hlf, Forest.boundName?, if_pos hl.kind, hpeek, Option.bind_some,
      hname]
  obtain ⟨⟨_, G⟩, next', hrun, hle, result, rfl, hsprouts, t, t', happlied⟩ :=
    (Editing.meets_applyLambda hstocked hheld hl.kind hx hl.slot hl.held hargument).exists_ok
  refine ⟨result, G, next', hrun, hle, hsprouts, happlied.substituted ?_ ?_⟩
  · exact hl.held.proper (hstocked.of_holds hl.held).2.2 hb
  · exact hargument.proper (hstocked.of_holds hargument).2.2 ha

/-! ### A variable that would be caught -/

namespace Plant

/-- The term `λy. x`. -/
def constant : Plant :=
  .mk { id := 4, kind := .lambda, parent := some 5, parentSlot := some "body"
        slots := ⟨[("arg", 2), ("body", 3)], by decide⟩ } [
    .mk { id := 2, kind := .binder, parent := some 4, parentSlot := some "arg"
          fields := (∅ : Fields).insert "name" (.text "y") } [],
    .mk { id := 3, kind := .var, parent := some 4, parentSlot := some "body"
          fields := (∅ : Fields).insert "name" (.text "x") } []]

/-- The variable `y`. -/
def unbound : Plant :=
  .mk { id := 6, kind := .var, parent := some 7, parentSlot := some "argument"
        fields := (∅ : Fields).insert "name" (.text "y") } []

/-- The root of the term `λx. λy. x`. -/
def projection : Node :=
  { id := 5, kind := .lambda, parent := some 7, parentSlot := some "callee"
    slots := ⟨[("arg", 1), ("body", 4)], by decide⟩ }

/-- The application of `λx. λy. x` to `y`, which the inner lambda would catch. -/
def catching : Plant :=
  .mk { id := 7, kind := .apply, slots := ⟨[("callee", 5), ("argument", 6)], by decide⟩ } [
    .mk projection [
      .mk { id := 1, kind := .binder, parent := some 5, parentSlot := some "arg"
            fields := (∅ : Fields).insert "name" (.text "x") } [],
      constant],
    unbound]

theorem joined_catching : catching.Joined := by
  simp [catching, projection, constant, unbound, joined_mk_iff, Node.Carries]

theorem wellFormed_catching : ∀ n ∈ catching.nodes, n.WellFormed := by
  have hnamed : ∀ n : Node, n.kind.declaredFields = ["name"] → n.kind = .binder ∨ n.kind = .var →
      n.slots.names = [] → (∃ y, n.field? "name" = some (.text y)) → n.WellFormed := by
    intro n hd hk hs hy
    obtain ⟨y, hy⟩ := hy
    refine ⟨⟨?_, ?_⟩, ?_, ?_⟩
    · intro key hkey
      rw [hd, List.mem_singleton] at hkey
      subst hkey
      exact ⟨_, hy, by rcases hk with hk | hk <;> rw [hk] <;> rfl⟩
    · rcases hk with hk | hk <;> simp [hk]
    · rcases hk with hk | hk <;> simp [hk]
    · rw [hs]
      rcases hk with hk | hk <;> rw [Node.declaredSlots, hk]
  have hbare : ∀ n : Node, n.kind.declaredFields = [] → n.slots.names = n.declaredSlots →
      n.WellFormed := by
    intro n hd hs
    have hformed : n.Formed 0 := Node.formed_of_slots hd hs
    exact hformed.wellFormed (Nat.zero_le _)
  intro n hn
  simp only [catching, projection, constant, unbound, nodes_mk, List.flatMap_cons, List.flatMap_nil,
    List.nil_append, List.append_nil, List.cons_append, List.mem_cons, List.not_mem_nil,
    or_false] at hn
  rcases hn with rfl | rfl | rfl | rfl | rfl | rfl | rfl
  · exact hnamed _ rfl (.inl rfl) rfl ⟨_, rfl⟩
  · exact hnamed _ rfl (.inl rfl) rfl ⟨_, rfl⟩
  · exact hnamed _ rfl (.inr rfl) rfl ⟨_, rfl⟩
  · exact hbare _ rfl rfl
  · exact hbare _ rfl rfl
  · exact hnamed _ rfl (.inr rfl) rfl ⟨_, rfl⟩
  · exact hbare _ rfl rfl

theorem constant_mem_catching : constant ∈ catching.subs := by
  simp [catching, subs_mk, mem_subs_self]

theorem unbound_mem_catching : unbound ∈ catching.subs := by
  simp [catching, subs_mk, mem_subs_self]

end Plant

/-- A forest of that application alone. -/
def Forest.catching : Forest := .insertAll ∅ Plant.catching.nodes

namespace Forest

theorem linked_catching : catching.Linked :=
  linked_empty.insertAll (by decide) (fun _ _ => get?_empty _) Plant.joined_catching ⟨rfl, rfl⟩

theorem holds_catching : catching.Holds Plant.catching :=
  holds_insertAll Plant.joined_catching (by decide)

theorem mem_nodes_catching {id : NodeId} {n : Node} (h : catching.get? id = some n) :
    n ∈ Plant.catching.nodes ∧ n.id = id := by
  refine ⟨?_, id_of_get? h⟩
  rcases get?_insertAll_cases (by decide) h with ⟨v, hv, -, rfl⟩ | h
  · exact Plant.nodes_subset_of_mem_subs hv v.root_mem_nodes
  · rw [get?_empty] at h
    cases h

theorem abstracts_catching : catching.Abstracts Plant.projection "x" Plant.constant where
  get := by decide +kernel
  kind := rfl
  binder := ⟨_, rfl, rfl, rfl⟩
  slot := rfl
  held := holds_catching.of_mem_subs Plant.constant_mem_catching

end Forest

/-- Applying `λx. λy. x` to `y` gives a lambda whose body is the free variable `y`. -/
theorem applyLambda_substitutes_catching : ∃ result G next',
    ((Editing.applyLambda Plant.projection 6).run Forest.catching).runFrom 8 =
      (.ok (result.id, G), next') ∧ 8 ≤ next' ∧ Forest.catching.Sprouts G 8 next' result ∧
    Plant.Substituted "x" Plant.constant Plant.unbound result ∧
    result.shape.read [] = .mk .lambda none ∅ ["arg", "body"] [.mk .binder none ∅ [] [],
      .mk .var none ((∅ : Fields).insert "name" (.text "y")) [] []] := by
  have hlt : ∀ (y : Nat) n, Forest.catching.get? y = some n → y < 8 := by
    intro y n hy
    obtain ⟨hn, rfl⟩ := Forest.mem_nodes_catching hy
    have hall : ∀ x ∈ Plant.catching.ids, (x : Nat) < 8 := by decide
    exact hall _ (Plant.mem_ids_iff_nodes.2 ⟨n, hn, rfl⟩)
  have hnodes : ∀ y n, Forest.catching.get? y = some n → n.WellFormed := by
    intro y n hy
    exact Plant.wellFormed_catching n (Forest.mem_nodes_catching hy).1
  have hargument := Forest.holds_catching.of_mem_subs Plant.unbound_mem_catching
  have hb : Forest.catching.BindsIn Plant.constant := by
    intro n hn hk m hm
    simp only [Plant.constant, Plant.nodes_mk, List.flatMap_cons, List.flatMap_nil, List.nil_append,
      List.append_nil, List.cons_append, List.mem_cons, List.not_mem_nil, or_false] at hn
    rcases hn with rfl | rfl | rfl
    · cases hk
    · cases hk
    · cases hm
      exact .inl rfl
  have ha : Forest.catching.BindsIn Plant.unbound := by
    intro n hn hk
    simp only [Plant.unbound, Plant.nodes_mk, List.flatMap_nil, List.nil_append,
      List.mem_singleton] at hn
    subst hn
    cases hk
  obtain ⟨result, G, next', hrun, hle, hsprouts, hsubst⟩ :=
    Forest.linked_catching.applyLambda_substitutes hlt hnodes Forest.abstracts_catching hargument hb ha
  refine ⟨result, G, next', hrun, hle, hsprouts, hsubst, ?_⟩
  rw [hsubst.read]
  rfl

end TermForest
