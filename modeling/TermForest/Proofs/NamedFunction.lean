import TermForest.Proofs.Circular
import TermForest.Proofs.Spine

/-!
# Named functions

A named function that is applied to arguments, to one after the other, takes them up from left to
right: each step copies the function and fills the first hole among its parameters. When there is
none left, a further argument is refused. Reduced on its own, the function is replaced by a copy of
the body of its definition, applied to copies of the arguments.
-/

namespace TermForest

open Relation (TransGen)

/-! ### Taking up arguments -/

namespace Plant

/-- The number of parameters of a named function that still hold a hole. -/
def openings (f : Plant) : ℕ := f.parts.countP (·.root.kind = .hole)

theorem openings_eq_countP (f : Plant) :
    f.openings = (f.parts.map shape).countP (·.kind = .hole) := by
  rw [openings, List.countP_map]
  simp [Function.comp_def]

end Plant

/-- An open parameter of a named function is a part that is a hole. -/
theorem Forest.Holds.isSome_openParameter?_iff {F : Forest} {f : Plant} {next : ℕ} (h : F.Holds f)
    (hk : f.root.kind = .reference) (hf : f.root.Formed next) :
    (F.openParameter? f.root).isSome = true ↔ 0 < f.openings := by
  rw [Plant.openings, List.countP_pos_iff]
  constructor
  · intro hopen
    obtain ⟨e, he⟩ := Option.isSome_iff_exists.1 hopen
    obtain ⟨c, hc, m, hm, hole⟩ := Node.exists_hole_of_openParameter? he
    rw [h.children, List.mem_map] at hc
    obtain ⟨p, hp, rfl⟩ := hc
    have hget := (h.of_mem_subs (Plant.mem_subs_of_mem_parts hp)).get?_id
    obtain rfl := Option.some.inj (hget.symm.trans hm)
    exact ⟨p, hp, by simpa using hole⟩
  · rintro ⟨p, hp, hole⟩
    have hget := (h.of_mem_subs (Plant.mem_subs_of_mem_parts hp)).get?_id
    exact hf.isSome_openParameter? hk (h.children ▸ List.mem_map_of_mem hp) hget
      (by simpa using hole)

/-- The check of an application of a known named function refuses it if no parameter is open. -/
theorem Signature.checkApply_of_known {S : Signature} {s : State} {n f : Node} {callee : NodeId}
    {name : String} (hcallee : n.needSlot "callee" = .ok callee) (hf : s.nodes.get? callee = some f)
    (hk : f.kind = .reference) (hname : f.needText "name" = .ok name)
    (hknown : (S.builtin? name).isSome = true ∨ (s.definition? name).isSome = true) :
    S.checkApply s n =
      if (s.nodes.openParameter? f).isNone then refuse (.fullyBound callee) else .ok () := by
  have hnone : ¬((S.builtin? name).isNone ∧ (s.definition? name).isNone) := by
    rintro ⟨hb, hd⟩
    rcases hknown with h | h <;> simp_all
  rw [checkApply, liftM_eq_ok_iff.2 hcallee, ok_bind,
    liftM_eq_ok_iff.2 (Forest.find_eq_ok_iff.2 hf), ok_bind, hk]
  dsimp only
  rw [liftM_eq_ok_iff.2 hname, ok_bind, if_neg hnone]
  rfl

namespace State

/-- On the board `t` applies the named function `f`, whose name is known, to the normal arguments
`vs`, to one after the other. -/
structure Applies (s : State) (S : Signature) (f : Plant) (vs : List Plant) (t : Plant) : Prop where
  held : s.nodes.Holds t
  board : ∃ root ∈ s.board, s.nodes.RootOf t.id root
  spine : f.Spine vs t
  reference : f.root.kind = .reference
  known : ∃ name, f.root.name? = some name ∧
    ((S.builtin? name).isSome = true ∨ (s.definition? name).isSome = true)
  normal : ∀ v ∈ vs, S.isNormal s.nodes v.id = .ok true

namespace Applies

variable {s : State} {S : Signature} {f t v : Plant} {vs : List Plant} {next : ℕ}

theorem function_held (h : s.Applies S f vs t) : s.nodes.Holds f :=
  h.held.of_mem_subs h.spine.mem_subs

/-- No argument is a hole. -/
theorem kind_shape_ne_hole (h : s.Applies S f vs t) (hs : s.Kept next) (hv : v ∈ vs) :
    v.shape.kind ≠ .hole := by
  have hheld := h.held.of_mem_subs (h.spine.arguments_subset_subs hv)
  rw [Plant.kind_shape]
  exact hheld.kind_ne_hole_of_isNormal ((hs.linked.hung hs.lt).nodup_ids hheld) (h.normal v hv)

/-- Whether the function takes up its first argument is up to its parameters. -/
theorem exists_ready_eq (h : s.Applies S f (v :: vs) t) (hs : s.Kept next) (hS : S.Full)
    (hparams : f.root.parameters ≠ []) :
    ∃ root, root.kind = .apply ∧ (Plant.mk root [f, v]).Spine vs t ∧
      s.nodes.Holds (.mk root [f, v]) ∧
      s.ready S t.id = if (s.nodes.openParameter? f.root).isNone then refuse (.fullyBound f.id)
        else .ok (some root) := by
  have hnodup := (hs.linked.hung hs.lt).nodup_ids h.held
  obtain ⟨name, hname, hknown⟩ := h.known
  obtain ⟨top, hboard, hroot⟩ := h.board
  have hlocked := hs.unlocked h.held hboard hroot
  obtain ⟨-, -, hformed⟩ := hs.stocked.of_holds h.held
  cases h.spine with
  | @cons _ _ _ _ root kind rest =>
    have hsub := rest.mem_subs
    have hheld := h.held.of_mem_subs hsub
    have hmem := Plant.nodes_subset_of_mem_subs hsub (Plant.root_mem_nodes _)
    have hredex : S.redex s.nodes t.id = .ok (some root.id) := by
      rw [h.held.redex_of_spine hS rest kind hnodup hformed hlocked]
      exact hheld.redex_of_collecting hS (Plant.nodup_ids_of_mem_subs hnodup hsub) (hformed _ hmem)
        kind (hlocked _ hmem) h.reference hparams (h.normal v List.mem_cons_self)
    refine ⟨root, kind, rest, hheld, ?_⟩
    rw [ready_eq_check h.held.get?_id hroot.rootOf_eq hboard (hlocked _ t.root_mem_nodes) hredex
      hheld.get?_id (hS.requireKind _)]
    obtain ⟨hcallee, -⟩ := hheld.needSlot_of_apply (hformed _ hmem) kind
    have hcheck : S.check s root = S.checkApply s root := by rw [Signature.check, kind]
    rw [hcheck, Signature.checkApply_of_known hcallee h.function_held.get?_id h.reference
      (Node.needText_eq_ok_iff.2 hname) hknown]
    split <;> rfl

/-- A function without an open parameter is not given another argument. -/
theorem step_rejected (h : s.Applies S f (v :: vs) t) (hs : s.Kept next) (hS : S.Full)
    (most : Int64) (hparams : f.root.parameters ≠ []) (hopen : f.openings = 0) :
    (s.step S most t.id).runFrom next = (.error (.rejected (.fullyBound f.id)), next) := by
  obtain ⟨-, -, hformed⟩ := hs.stocked.of_holds h.function_held
  obtain ⟨root, -, -, -, hready⟩ := h.exists_ready_eq hs hS hparams
  have hiff := h.function_held.isSome_openParameter?_iff h.reference hformed.root
  have hnone : (s.nodes.openParameter? f.root).isNone = true := by
    rw [Option.isNone_iff_eq_none, ← Option.not_isSome_iff_eq_none, hiff, hopen]
    exact Nat.lt_irrefl 0
  rw [if_pos hnone] at hready
  rw [step, begin_eq, hready]
  rfl

/-- A function with a hole in a slot has parameters. -/
theorem parameters_ne_nil (h : s.Applies S f vs t) (hs : s.Kept next) (hopen : 0 < f.openings) :
    f.root.parameters ≠ [] := by
  obtain ⟨-, -, hformed⟩ := hs.stocked.of_holds h.function_held
  intro hnil
  have hnames : f.root.slots.names = [] := by
    rw [hformed.root.slots (by simp [h.reference]), Node.declaredSlots, h.reference, hnil]
    rfl
  have hparts : f.parts.map Plant.id = [] := by
    rw [← h.function_held.children, ← List.length_eq_zero_iff, Slots.length_children,
      ← Slots.length_names, hnames]
    rfl
  rw [Plant.openings, List.map_eq_nil_iff.1 hparts] at hopen
  exact absurd hopen (Nat.lt_irrefl 0)

/-- If a named function of the same name comes in place of the innermost application, it is applied
to the arguments that are left. -/
theorem exists_applies (h : s.Applies S f (v :: vs) t) (hs : s.Kept next) {a u : Plant}
    {s' : State} (rest : a.Spine vs t) (hgrafts : s.Grafts a u s')
    (hkind : u.root.kind = .reference) (hfields : u.root.fields = f.root.fields) :
    ∃ t', s'.Applies S u vs t' ∧ s.InPlace t s' t' ∧ (vs ≠ [] → t'.id = t.id) := by
  obtain ⟨hnodup, -, -⟩ := hs.stocked.of_holds h.held
  obtain ⟨t', hspine, hplace, hid⟩ := hgrafts.exists_spine hs rest h.held
  obtain ⟨top, hboard, hroot⟩ := h.board
  refine ⟨t', ⟨hplace.held, hgrafts.exists_rootOf_spine hs rest hspine h.held hid hboard hroot,
    hspine, hkind, ?_, fun w hw => ?_⟩, hplace, hid⟩
  · obtain ⟨name, hname, hknown⟩ := h.known
    have hmem : a.id ∈ t.ids := Plant.mem_ids_iff.2 ⟨a, rest.mem_subs, rfl⟩
    have hshares := hgrafts.sharesDefs hs hboard (hs.linked.rootOf_of_mem_ids h.held hmem hroot)
    refine ⟨name, ?_, by rwa [hshares.definition?]⟩
    rw [← hname, Node.name?, Node.name?, Node.text?, Node.text?, Node.field?, Node.field?, hfields]
  · have hheld := h.held.of_mem_subs (rest.arguments_subset_subs hw)
    rw [(hgrafts.shares_apart hs hheld (rest.notMem_ids hnodup hw) w.id_mem_ids).isNormal_eq]
    exact h.normal w (List.mem_cons_of_mem _ hw)

/-- A step gives a function with an open parameter its first argument. -/
theorem exists_step (h : s.Applies S f (v :: vs) t) (hs : s.Kept next) (hS : S.Full)
    (most : Int64) (hopen : 0 < f.openings) :
    ∃ s' next' f' t', (s.step S most t.id).runFrom next = (.ok (some s'), next') ∧
      s'.Kept next' ∧ s'.Applies S f' vs t' ∧
      f'.shape = .mk .reference f.root.fields f.root.slots.names
        (Shape.fill (f.parts.map Plant.shape) [v.shape]) ∧
      s.InPlace t s' t' ∧ (vs ≠ [] → t'.id = t.id) := by
  obtain ⟨-, -, hf⟩ := hs.stocked.of_holds h.function_held
  have hsome := (h.function_held.isSome_openParameter?_iff h.reference hf.root).2 hopen
  obtain ⟨root, kind, rest, hheld, hready⟩ :=
    h.exists_ready_eq hs hS (h.parameters_ne_nil hs hopen)
  rw [if_neg (by simpa using Option.isSome_iff_ne_none.1 hsome)] at hready
  obtain ⟨-, -, hformed⟩ := hs.stocked.of_holds hheld
  obtain ⟨hcallee, hargument⟩ := hheld.needSlot_of_apply hformed.root kind
  have hv : s.nodes.Holds v := hheld.of_mem_subs (Plant.mem_subs_of_mem_parts (by simp))
  have hreduce : (s.reduce S most root).Meets next (fun o hi => o.Builds s.nodes next hi
      (.mk .reference f.root.fields f.root.slots.names
        (Shape.fill (f.parts.map Plant.shape) [v.shape]))) fun _ => False := by
    rw [reduce, kind]
    exact .liftSupply ((meets_supply hs.stocked hcallee hargument h.function_held hv h.reference
      hsome).imp (fun _ _ _ ho => ho) fun _ he => he.elim)
  obtain ⟨s', next', u, hstep, hkept, hgrafts, hshape, -⟩ := hs.exists_step hheld hready hreduce
  obtain ⟨hkind, hfields, -⟩ := Plant.shape_eq_mk_iff.1 hshape
  obtain ⟨t', happlies, hplace, hid⟩ := h.exists_applies hs rest hgrafts hkind hfields
  exact ⟨s', next', u, t', hstep, hkept, happlies, hshape, hplace, hid⟩

end Applies

/-! ### Runs -/

/-- `k` steps at a node, one after the other, lead from one state and next id to another. -/
inductive StepsAt (S : Signature) (most : Int64) (target : NodeId) :
    ℕ → State × NodeId → State × NodeId → Prop
  | nil {σ : State × NodeId} : StepsAt S most target 0 σ σ
  | cons {k : ℕ} {s s' : State} {next next' : NodeId} {σ : State × NodeId}
      (step : (s.step S most target).runFrom next = (.ok (some s'), next'))
      (rest : StepsAt S most target k (s', next') σ) : StepsAt S most target (k + 1) (s, next) σ

/-- The function `f'` is `f` with the first `k` of the arguments `vs` in its first holes, and stands
applied to the others where `t` was. -/
structure Collected (s : State) (f : Plant) (vs : List Plant) (t : Plant) (k : ℕ) (s' : State)
    (f' t' : Plant) : Prop where
  shape : f'.shape = .mk .reference f.root.fields f.root.slots.names
    (Shape.fill (f.parts.map Plant.shape) ((vs.take k).map Plant.shape))
  spine : f'.Spine (vs.drop k) t'
  place : s.InPlace t s' t'
  /-- As long as an argument is left, the application keeps its id. -/
  stays : k < vs.length → t'.id = t.id

namespace Collected

variable {s s' : State} {f t f' t' : Plant} {vs : List Plant} {k : ℕ}

theorem function_held (h : s.Collected f vs t k s' f' t') : s'.nodes.Holds f' :=
  h.place.held.of_mem_subs h.spine.mem_subs

/-- The kinds of what stands in the parameters. -/
theorem map_kind_parts (h : s.Collected f vs t k s' f' t') :
    f'.parts.map (·.root.kind) =
      (Shape.fill (f.parts.map Plant.shape) ((vs.take k).map Plant.shape)).map Shape.kind := by
  obtain ⟨-, -, -, hparts⟩ := Plant.shape_eq_mk_iff.1 h.shape
  rw [← hparts, List.map_map]
  simp [Function.comp_def]

end Collected

namespace Applies

variable {s : State} {S : Signature} {f t : Plant} {vs : List Plant} {next : ℕ}

/-- Steps at an application give a function its arguments from left to right, as long as it has open
parameters. The induction is on the number of steps, from the first one on. -/
theorem exists_steps (h : s.Applies S f vs t) (hs : s.Kept next) (hS : S.Full) (most : Int64)
    {k : ℕ} (hopen : k ≤ f.openings) (hk : k ≤ vs.length) :
    ∃ s' next' f' t', StepsAt S most t.id k (s, next) (s', next') ∧ s'.Kept next' ∧
      s'.Applies S f' (vs.drop k) t' ∧ f'.openings = f.openings - k ∧
      s.Collected f vs t k s' f' t' := by
  induction k generalizing s next f vs t with
  | zero =>
    refine ⟨s, next, f, t, .nil, hs, h, rfl, ⟨?_, h.spine, .refl h.held, fun _ => rfl⟩⟩
    rw [List.take_zero, List.map_nil, Shape.fill_nil, ← h.reference, ← Plant.shape_eq]
  | succ k ih =>
    cases vs with
    | nil => cases hk
    | cons v vs =>
      obtain ⟨s₁, next₁, f₁, t₁, hstep, hs₁, h₁, hshape, hplace, hid⟩ :=
        h.exists_step hs hS most (by omega)
      have hv := h.kind_shape_ne_hole hs List.mem_cons_self
      obtain ⟨-, hfields, hnames, hparts⟩ := Plant.shape_eq_mk_iff.1 hshape
      have hopenings : f₁.openings = f.openings - 1 := by
        rw [Plant.openings_eq_countP, hparts, Shape.countP_fill hv, ← Plant.openings_eq_countP]
      cases vs with
      | nil =>
        obtain rfl : k = 0 := by simpa using hk
        exact ⟨s₁, next₁, f₁, t₁, .cons hstep .nil, hs₁, h₁, hopenings,
          ⟨hshape, h₁.spine, hplace, by simp⟩⟩
      | cons w vs =>
        have hid : t₁.id = t.id := hid (List.cons_ne_nil _ _)
        obtain ⟨s', next', f', t', hrest, hs', h', hopenings', hcollected⟩ :=
          ih h₁ hs₁ (by omega) (Nat.le_of_succ_le_succ hk)
        refine ⟨s', next', f', t', .cons hstep (hid ▸ hrest), hs', h', by omega, ?_,
          hcollected.spine, hplace.trans hcollected.place hid, fun hlt => ?_⟩
        · rw [hcollected.shape, hfields, hnames, hparts, List.take_succ_cons, List.map_cons]
          exact congrArg _ (Shape.fill_cons hv _ _).symm
        · exact (hcollected.stays (Nat.lt_of_succ_lt_succ hlt)).trans hid

end Applies

/-! ### Unfolding on its own -/

variable {s : State} {S : Signature} {t : Plant} {next : ℕ} {name : String} {d : Node}

/-- An expression all of whose children are strict is its own redex once they are normal. -/
theorem Kept.redex_of_parts (hs : s.Kept next) (hS : S.Full) (ht : s.nodes.Holds t)
    (hlocked : t.root.locked = false) (hk : t.root.kind.category = .expression)
    (hstrict : t.root.strictChildren s.nodes.get? = .ok t.root.slots.children)
    (hnormal : ∀ p ∈ t.parts, S.isNormal s.nodes p.id = .ok true) :
    S.redex s.nodes t.id = .ok (some t.id) := by
  have hfind : t.root.slots.children.findM? (fun c => return !(← S.isNormal s.nodes c)) =
      .ok none := findM?_eq_ok_none fun c hc => by
    rw [ht.children] at hc
    obtain ⟨p, hp, rfl⟩ := List.mem_map.1 hc
    rw [hnormal p hp]
    rfl
  rw [ht.redex_of_findM? ((hs.linked.hung hs.lt).nodup_ids ht) (hS.requireKind _) hstrict hlocked,
    hfind, ok_bind, hk]
  rfl

/-- Where no argument is a hole no parameter is open. -/
theorem Kept.openParameter?_of_parts (hs : s.Kept next) (ht : s.nodes.Holds t)
    (hk : t.root.kind = .reference) (hparts : ∀ p ∈ t.parts, p.root.kind ≠ .hole) :
    s.nodes.openParameter? t.root = none := by
  obtain ⟨-, -, hformed⟩ := hs.stocked.of_holds ht
  rw [← Option.not_isSome_iff_eq_none, ht.isSome_openParameter?_iff hk hformed.root,
    Plant.openings, List.countP_pos_iff]
  rintro ⟨p, hp, hole⟩
  exact hparts p hp (by simpa using hole)

/-- Normal arguments are no holes. -/
theorem Kept.openParameter?_eq_none (hs : s.Kept next) (ht : s.nodes.Holds t)
    (hk : t.root.kind = .reference)
    (hnormal : ∀ p ∈ t.parts, S.isNormal s.nodes p.id = .ok true) :
    s.nodes.openParameter? t.root = none := by
  obtain ⟨hnodup, -, -⟩ := hs.stocked.of_holds ht
  refine hs.openParameter?_of_parts ht hk fun p hp => ?_
  have hsub := Plant.mem_subs_of_mem_parts hp
  exact (ht.of_mem_subs hsub).kind_ne_hole_of_isNormal (Plant.nodup_ids_of_mem_subs hnodup hsub)
    (hnormal p hp)

/-- A step at a named function on the board with normal arguments and a definition that does not
call itself unfolds the definition. -/
theorem Kept.exists_unfolding (hs : s.Kept next) (hS : S.Full) (most : Int64) (ht : s.nodes.Holds t)
    (hboard : ∃ root ∈ s.board, s.nodes.RootOf t.id root) (hk : t.root.kind = .reference)
    (hname : t.root.name? = some name) (hp : S.builtin? name = none)
    (hd : s.definition? name = some d) (hfounded : ¬TransGen s.Calls name name)
    (hnormal : ∀ p ∈ t.parts, S.isNormal s.nodes p.id = .ok true) :
    ∃ s' next' b u, (s.step S most t.id).runFrom next = (.ok (some s'), next') ∧
      s.Unfolded s' name d b t u ∧
      (∀ n ∈ u.nodes, n.locked = false ∧ next ≤ n.id ∧ n.id < next') ∧
      s'.definition? name = some d ∧
      ∃ p : Plant, p.root = d ∧ s.nodes.Holds p ∧ s'.nodes.Holds p := by
  obtain ⟨root, hmem, hroot⟩ := hboard
  have hlocked := hs.unlocked ht hmem hroot t.root t.root_mem_nodes
  have hneed : t.root.needText "name" = .ok name := Node.needText_eq_ok_iff.2 hname
  have hcalls : s.callsItself name = .ok false := hs.callsItself_eq_ok_false_iff.2 hfounded
  have hcheck : S.check s t.root = .ok () := by
    rw [Signature.check, hk]
    exact (checkReference_eq_ok_iff hneed hp).2
      ⟨⟨d, hd⟩, hcalls, hs.openParameter?_eq_none ht hk hnormal⟩
  have hready := ready_of_check ht.get?_id hroot.rootOf_eq hmem hlocked
    (hs.redex_of_parts hS ht hlocked (by rw [hk]; rfl) (by rw [Node.strictChildren, hk]) hnormal)
    ht.get?_id (hS.requireKind _) hcheck
  obtain ⟨b, hbody, hslot, hb⟩ := exists_body_of_definition? hs.stocked hd
  have hreduce : s.reduce S most t.root = s.reduceReference S most t.root := by rw [reduce, hk]
  obtain ⟨s', next', u, hstep, -, hgrafts, hshape, hnew⟩ := hs.exists_step ht hready
    (hreduce ▸ meets_unfold hs.stocked ht most hneed hp hd hbody hb)
  exact ⟨s', next', b, u, hstep,
    ⟨hd, hcalls, (Node.callee?_of_reference hk).trans hname, hslot, hb, hgrafts, hshape⟩, hnew,
    (hgrafts.sharesDefs hs hmem hroot).exists_holds hd⟩

/-! ### Both together -/

/-- How named functions behave in a state. -/
structure CollectsAndUnfolds (s : State) (S : Signature) (most : Int64) (next : NodeId) : Prop where
  /-- The slots of a named function stand in the order of its parameters. -/
  order : ∀ x n, s.nodes.get? x = some n → n.kind = .reference →
    n.slots.names = n.parameters.map parameterSlot
  /-- Applied to normal arguments, a function takes them up from left to right. -/
  collects : ∀ f vs t k, s.Applies S f vs t → 1 ≤ f.openings → k ≤ f.openings → k ≤ vs.length →
    ∃ s' next' f' t', StepsAt S most t.id k (s, next) (s', next') ∧ s.Collected f vs t k s' f' t'
  /-- Once it has no open parameter left, it refuses a further argument. -/
  refuses : ∀ f vs t, s.Applies S f vs t → 1 ≤ f.openings → f.openings < vs.length →
    ∃ s' next' f' t', StepsAt S most t.id f.openings (s, next) (s', next') ∧
      s.Collected f vs t f.openings s' f' t' ∧
      (s'.step S most t.id).runFrom next' = (.error (.rejected (.fullyBound f'.id)), next')
  /-- Without an open parameter it leaves a copy of the body of its definition, applied to copies of
  its arguments, of new nodes that are not locked. The definition stays as it is. -/
  unfolds : ∀ t name d, s.nodes.Holds t → (∃ root ∈ s.board, s.nodes.RootOf t.id root) →
    t.root.kind = .reference → t.root.name? = some name → S.builtin? name = none →
    s.definition? name = some d → ¬TransGen s.Calls name name →
    (∀ p ∈ t.parts, S.isNormal s.nodes p.id = .ok true) →
    ∃ s' next' b u, (s.step S most t.id).runFrom next = (.ok (some s'), next') ∧
      s.Unfolded s' name d b t u ∧
      (∀ n ∈ u.nodes, n.locked = false ∧ next ≤ n.id ∧ n.id < next') ∧
      s'.definition? name = some d ∧
      ∃ p : Plant, p.root = d ∧ s.nodes.Holds p ∧ s'.nodes.Holds p

/-- Named functions collect arguments from left to right and then unfold. -/
theorem WellFormed.collectsAndUnfolds (h : s.WellFormed next) (hS : S.Full) (most : Int64) :
    s.CollectsAndUnfolds S most next where
  order x n hn hk := by
    rw [(h.nodes x n hn).slots, Node.declaredSlots, hk]
  collects f vs t k happlies _ hopen hk := by
    obtain ⟨s', next', f', t', hsteps, -, -, -, hcollected⟩ :=
      happlies.exists_steps h.kept hS most hopen hk
    exact ⟨s', next', f', t', hsteps, hcollected⟩
  refuses f vs t happlies hopen hlt := by
    obtain ⟨s', next', f', t', hsteps, hs', happlies', hopenings, hcollected⟩ :=
      happlies.exists_steps h.kept hS most (Nat.le_refl _) (Nat.le_of_lt hlt)
    refine ⟨s', next', f', t', hsteps, hcollected, ?_⟩
    obtain ⟨-, hfields, -⟩ := Plant.shape_eq_mk_iff.1 hcollected.shape
    have hparams : f'.root.parameters ≠ [] := by
      rw [Node.parameters, Node.field?, hfields]
      exact happlies.parameters_ne_nil h.kept hopen
    rw [List.drop_eq_getElem_cons hlt] at happlies'
    rw [← hcollected.stays hlt]
    exact happlies'.step_rejected hs' hS most hparams (by omega)
  unfolds t name d ht hboard hk hname hp hd hfounded hnormal :=
    h.kept.exists_unfolding hS most ht hboard hk hname hp hd hfounded hnormal

end State

namespace Game

/-- A game with a function of two parameters, applied to three arguments and to two. -/
def currying : Game where
  levels := ⟨[{
    board := [
      .apply (.apply (.apply (.reference "pick" ["a", "b"]) (.number 1)) (.boolean true))
        (.number 2),
      ((Term.reference "pick" ["a", "b"]).withSlot "arg_a" (.number 3)).withSlot "arg_b"
        (.boolean false)]
    defs := [.define "pick" (.lambda "x" (.lambda "y" (.var "x")))] }]⟩

theorem distinct_currying : currying.levels.Distinct := by
  simp [LevelFile.Distinct, currying, Level.terms, Term.apply, Term.reference, Term.number,
    Term.boolean, Term.define, Term.lambda, Term.binder, Term.var, Term.withSlot, Term.withField,
    Term.ofTag, Term.parts, Term.tag, Terms.set, Term.Distinct, Terms.Distinct, Kind.tag, or_imp,
    forall_and]
  decide

section

variable {session : Session State Move} (h : currying.start 0 = .ok session)
include h

theorem board_currying : session.present.board = [1, 10] := by
  have hboard : (currying.start 0).toOption.map (fun session => session.present.board) =
      some [1, 10] := by
    decide +kernel
  rw [h] at hboard
  exact Option.some.inj hboard

variable (hwell : session.present.WellFormed session.next)
include hwell

/-- The other function on the board has a value for each of its parameters. -/
theorem filled_currying :
    ∃ t, session.present.nodes.Holds t ∧ t.id = 10 ∧ t.root.kind = .reference ∧
      t.root.name? = some "pick" ∧ t.parts.map (·.root.kind) = [.number, .boolean] ∧
      ∀ p ∈ t.parts, Signature.standard.isNormal session.present.nodes p.id = .ok true := by
  have hnodes : (currying.start 0).toOption.map (fun session =>
      [10, 11, 12].map fun x => (session.present.nodes.get? x).map fun n =>
        (n.kind, n.name?, n.slots.children)) =
      some [some (.reference, some "pick", [11, 12]), some (.number, none, []),
        some (.boolean, none, [])] := by
    decide +kernel
  have hnormal : (currying.start 0).toOption.map (fun session => [11, 12].map fun x =>
      (Signature.standard.isNormal session.present.nodes x).toOption) =
      some [some true, some true] := by
    decide +kernel
  rw [h] at hnodes hnormal
  simp only [Except.toOption, Option.map_some, Option.some.injEq, List.map_cons, List.map_nil,
    List.cons.injEq, and_true, Prod.mk.injEq, Option.map_eq_some_iff] at hnodes hnormal
  obtain ⟨⟨n, hn, kind, name, children⟩, ⟨n₁, h₁, k₁, -⟩, n₂, h₂, k₂, -⟩ := hnodes
  obtain ⟨t, rfl, ht, -⟩ := hwell.kept.stocked 10 n hn
  obtain ⟨p, q, hparts, rfl, rfl, -⟩ := ht.exists_pair children h₁ h₂
  refine ⟨t, ht, Forest.id_of_get? hn, kind, name, by simp [hparts, k₁, k₂], fun v hv => ?_⟩
  rw [hparts] at hv
  rcases List.mem_pair.1 hv with rfl | rfl
  · exact (congrArg _ (Forest.id_of_get? h₁)).trans (toOption_eq_some_iff.1 hnormal.1)
  · exact (congrArg _ (Forest.id_of_get? h₂)).trans (toOption_eq_some_iff.1 hnormal.2)

/-- The definition of the function calls nothing. -/
theorem definition_currying :
    ∃ d, session.present.definition? "pick" = some d ∧
      ¬TransGen session.present.Calls "pick" "pick" := by
  have hdef : (currying.start 0).toOption.bind (fun session =>
      (session.present.definition? "pick").bind fun d =>
        (session.present.nodes.findAll d.id fun n => n.kind = .reference).toOption) = some [] := by
    decide +kernel
  rw [h] at hdef
  obtain ⟨_, ⟨⟩, hdef⟩ := Option.bind_eq_some_iff.1 hdef
  obtain ⟨d, hd, hreferences⟩ := Option.bind_eq_some_iff.1 hdef
  have hcalls := State.callsItself_of_no_reference hd (toOption_eq_some_iff.1 hreferences)
  exact ⟨d, hd, hwell.kept.callsItself_eq_ok_false_iff.1 hcalls⟩

/-- At first on the board, a function with two open parameters is applied to a number, a truth value
and another number. -/
theorem applies_currying :
    ∃ f p q u v w t, session.present.Applies .standard f [u, v, w] t ∧ t.id = 1 ∧
      f.parts = [p, q] ∧ p.root.kind = .hole ∧ q.root.kind = .hole ∧ u.root.kind = .number ∧
      v.root.kind = .boolean := by
  have hnodes : (currying.start 0).toOption.map (fun session =>
      [1, 2, 3, 4, 5, 6, 7, 8, 9].map fun x => (session.present.nodes.get? x).map fun n =>
        (n.kind, n.name?, n.slots.children)) =
      some [some (.apply, none, [2, 9]), some (.apply, none, [3, 8]), some (.apply, none, [4, 7]),
        some (.reference, some "pick", [5, 6]), some (.hole, none, []), some (.hole, none, []),
        some (.number, none, []), some (.boolean, none, []), some (.number, none, [])] := by
    decide +kernel
  have hnormal : (currying.start 0).toOption.map (fun session => [7, 8, 9].map fun x =>
      (Signature.standard.isNormal session.present.nodes x).toOption) =
      some [some true, some true, some true] := by
    decide +kernel
  have hboard := board_currying h
  obtain ⟨d, hd, -⟩ := definition_currying h hwell
  rw [h] at hnodes hnormal
  simp only [Except.toOption, Option.map_some, Option.some.injEq, List.map_cons, List.map_nil,
    List.cons.injEq, and_true, Prod.mk.injEq, Option.map_eq_some_iff] at hnodes hnormal
  obtain ⟨⟨n₁, h₁, k₁, -, c₁⟩, ⟨n₂, h₂, k₂, -, c₂⟩, ⟨n₃, h₃, k₃, -, c₃⟩, ⟨n₄, h₄, k₄, name, c₄⟩,
    ⟨n₅, h₅, k₅, -⟩, ⟨n₆, h₆, k₆, -⟩, ⟨n₇, h₇, k₇, -⟩, ⟨n₈, h₈, k₈, -⟩, n₉, h₉, -⟩ := hnodes
  obtain ⟨t, rfl, ht, -⟩ := hwell.kept.stocked 1 n₁ h₁
  obtain ⟨a, w, hta, rfl, rfl, ha, -⟩ := ht.exists_pair c₁ h₂ h₉
  obtain ⟨b, v, hab, rfl, rfl, hb, -⟩ := ha.exists_pair c₂ h₃ h₈
  obtain ⟨f, u, hbf, rfl, rfl, hf, -⟩ := hb.exists_pair c₃ h₄ h₇
  obtain ⟨p, q, hparts, rfl, rfl, -⟩ := hf.exists_pair c₄ h₅ h₆
  have hid : t.id = 1 := Forest.id_of_get? h₁
  have hroot := Forest.Kept.rootOf_self hwell.kept
    (State.Kept.mem_roots_of_board (hboard ▸ List.mem_cons_self))
  have hspine : f.Spine [u, v, w] t :=
    .cons_of_parts k₃ hbf (.cons_of_parts k₂ hab (.cons_of_parts k₁ hta .nil))
  refine ⟨f, p, q, u, v, w, t, ⟨ht, ⟨1, hboard ▸ List.mem_cons_self, hid.symm ▸ hroot⟩, hspine, k₄,
    ⟨"pick", name, .inr (by rw [hd]; rfl)⟩, ?_⟩, hid, hparts, k₅, k₆, k₇, k₈⟩
  intro x hx
  simp only [List.mem_cons, List.not_mem_nil, or_false] at hx
  obtain ⟨hnormal₇, hnormal₈, hnormal₉⟩ := hnormal
  rcases hx with rfl | rfl | rfl
  · exact (congrArg _ (Forest.id_of_get? h₇)).trans (toOption_eq_some_iff.1 hnormal₇)
  · exact (congrArg _ (Forest.id_of_get? h₈)).trans (toOption_eq_some_iff.1 hnormal₈)
  · exact (congrArg _ (Forest.id_of_get? h₉)).trans (toOption_eq_some_iff.1 hnormal₉)

end

/-- The function takes up the first argument in its first parameter, the second one in its second
parameter, and refuses the third one. With both parameters filled, it is unfolded. -/
theorem collectsAndUnfolds_currying : ∃ session, currying.start 0 = .ok session ∧
    session.present.WellFormed session.next ∧
    (∃ s next f, State.StepsAt .standard 9 1 1 (session.present, session.next) (s, next) ∧
      s.nodes.Holds f ∧ f.parts.map (·.root.kind) = [.number, .hole]) ∧
    (∃ s next f, State.StepsAt .standard 9 1 2 (session.present, session.next) (s, next) ∧
      s.nodes.Holds f ∧ f.parts.map (·.root.kind) = [.number, .boolean] ∧
      (s.step .standard 9 1).runFrom next = (.error (.rejected (.fullyBound f.id)), next)) ∧
    ∃ s next d b t u,
      (session.present.step .standard 9 10).runFrom session.next = (.ok (some s), next) ∧
      t.id = 10 ∧ t.parts.map (·.root.kind) = [.number, .boolean] ∧
      session.present.Unfolded s "pick" d b t u := by
  obtain ⟨session, h, hwell⟩ := Session.exists_wellFormed_start 0
    Signature.tagsReferences_standard distinct_currying (by decide +kernel)
  have hbehaves := hwell.collectsAndUnfolds Signature.full_standard 9
  obtain ⟨f, p, q, u, v, w, t, happlies, hid, hparts, hp, hq, hu, hv⟩ := applies_currying h hwell
  have hopen : f.openings = 2 := by simp [Plant.openings, hparts, hp, hq]
  refine ⟨session, h, hwell, ?_, ?_, ?_⟩
  · obtain ⟨s, next, f', t', hsteps, hcollected⟩ :=
      hbehaves.collects f [u, v, w] t 1 happlies (by omega) (by omega) (by simp)
    refine ⟨s, next, f', hid ▸ hsteps, hcollected.function_held, ?_⟩
    simp [hcollected.map_kind_parts, hparts, Shape.fill, hp, hq, hu]
  · obtain ⟨s, next, f', t', hsteps, hcollected, hrejected⟩ :=
      hbehaves.refuses f [u, v, w] t happlies (by omega) (by simp [hopen])
    rw [hopen] at hsteps hcollected
    refine ⟨s, next, f', hid ▸ hsteps, hcollected.function_held, ?_, hid ▸ hrejected⟩
    simp [hcollected.map_kind_parts, hparts, Shape.fill, hp, hq, hu, hv]
  · obtain ⟨d, hd, hfounded⟩ := definition_currying h hwell
    obtain ⟨t, ht, hid, hk, hname, hkinds, hnormal⟩ := filled_currying h hwell
    have hmem : t.id ∈ session.present.board := by simp [hid, board_currying h]
    have hroot := Forest.Kept.rootOf_self hwell.kept (State.Kept.mem_roots_of_board hmem)
    obtain ⟨s, next, b, u, hstep, hunfolded, -⟩ := hbehaves.unfolds t "pick" d ht
      ⟨t.id, hmem, hroot⟩ hk hname (by decide) hd hfounded hnormal
    exact ⟨s, next, d, b, t, u, hid ▸ hstep, hid, hkinds, hunfolded⟩

end Game

end TermForest
