import TermForest.Proofs.NamedFunction

/-!
# Reducing a known node

A step reduces the node that it finds below its target. Where that node stands in a call or an access
that waits for it, the result stands in its place, and the step at the whole goes on from there.
-/

namespace TermForest

/-! ### Shapes that are normal -/

namespace Plant

/-- Whether a plant is normal is up to its shape. -/
theorem Normal.of_shape_eq {t u : Plant} (h : t.Normal) (hs : u.shape = t.shape) : u.Normal := by
  induction h generalizing u with
  | value hk ha =>
    obtain ⟨hkind, -⟩ := root_of_shape_eq hs
    exact .value (hkind ▸ hk) (hkind ▸ ha)
  | array hk elements ih =>
    obtain ⟨hkind, -, -, hparts⟩ := root_of_shape_eq hs
    refine .array (hkind ▸ hk) fun p hp => ?_
    obtain ⟨q, hq, hqp⟩ := List.mem_map.1 (hparts ▸ List.mem_map_of_mem hp)
    exact ih q hq hqp.symm
  | function hk hole =>
    obtain ⟨hkind, -, -, hparts⟩ := root_of_shape_eq hs
    obtain ⟨p, hp, hole⟩ := hole
    obtain ⟨q, hq, hqp⟩ := List.mem_map.1 (hparts ▸ List.mem_map_of_mem hp)
    refine .function (hkind ▸ hk) ⟨q, hq, ?_⟩
    rw [← kind_shape, hqp, kind_shape, hole]

/-- A call of a builtin with some arguments. -/
structure CallsBuiltin (t : Plant) (b : Builtin) (arguments : List Plant) : Prop where
  kind : t.root.kind = .reference
  name : t.root.name? = some b.name
  parts : t.parts = arguments

/-- A number of a given value. -/
structure IsNumber (t : Plant) (value : Int64) : Prop where
  kind : t.root.kind = .number
  value : t.root.int? "value" = some value

theorem CallsBuiltin.congr {t t' : Plant} {b : Builtin} {ps qs : List Plant}
    (h : t.CallsBuiltin b ps) (hk : t'.root.kind = t.root.kind)
    (hf : t'.root.fields = t.root.fields) (hq : t'.parts = qs) : t'.CallsBuiltin b qs :=
  ⟨hk.trans h.kind, by rw [← h.name, Node.name?, Node.name?, Node.text?, Node.text?, Node.field?,
    Node.field?, hf], hq⟩

theorem IsNumber.normal {t : Plant} {value : Int64} (h : t.IsNumber value) : t.Normal :=
  .value (by rw [h.kind]; rfl) (by rw [h.kind]; decide)

theorem IsNumber.number_eq {F : Forest} {t : Plant} {value : Int64} (h : t.IsNumber value)
    (ht : F.Holds t) : F.number t.id = .ok value := by
  rw [Forest.number, Forest.find_eq_ok_iff.2 ht.get?_id]
  exact Node.needInt_eq_ok_iff.2 h.value

end Plant

namespace State

variable {s s' : State} {S : Signature} {most : Int64} {target : NodeId} {t c u : Plant} {next : ℕ}

/-- Below the target, which lies on the board, a step finds this plant to reduce. -/
structure Finds (s : State) (S : Signature) (target : NodeId) (t : Plant) : Prop where
  held : s.nodes.Holds t
  board : ∃ root ∈ s.board, s.nodes.RootOf target root
  redex : S.redex s.nodes target = .ok (some t.id)

namespace Finds

variable (h : s.Finds S target t) (hs : s.Kept next) (hS : S.Full)
include h hs

/-- What is found lies on the board too. -/
theorem exists_rootOf : ∃ root ∈ s.board, s.nodes.RootOf t.id root := by
  obtain ⟨root, hmem, hroot⟩ := h.board
  exact ⟨root, hmem, hs.linked.rootOf_redex hroot h.redex⟩

include hS

/-- Whether what is found is ready is up to its check. -/
theorem ready_eq : s.ready S target = S.check s t.root >>= fun _ => .ok (some t.root) := by
  obtain ⟨root, hmem, hroot⟩ := h.board
  obtain ⟨n, hn⟩ := hroot.exists_get?
  obtain ⟨p, rfl, hp, -⟩ := hs.stocked _ _ hn
  obtain rfl := Forest.id_of_get? hn
  exact ready_eq_check hn hroot.rootOf_eq hmem (hs.unlocked hp hmem hroot _ p.root_mem_nodes)
    h.redex h.held.get?_id (hS.requireKind _)

/-- If it passes its check and its rule builds a plant of a known shape, a step puts such a plant in
its place. -/
theorem exists_step (hcheck : S.check s t.root = .ok ()) {shape : Shape}
    (hreduce : (s.reduce S most t.root).Meets next (fun o hi => o.Builds s.nodes next hi shape)
      fun _ => False) :
    ∃ s' next' u, (s.step S most target).runFrom next = (.ok (some s'), next') ∧ s'.Kept next' ∧
      s.Grafts t u s' ∧ u.shape = shape ∧
      ∀ n ∈ u.nodes, n.locked = false ∧ next ≤ n.id ∧ n.id < next' :=
  hs.exists_step h.held ((h.ready_eq hs hS).trans (by rw [hcheck, ok_bind])) hreduce

/-- If it is refused, so is the step, and no id is handed out. -/
theorem step_rejected {why : Rejection} (hcheck : S.check s t.root = refuse why) :
    (s.step S most target).runFrom next = (.error (.rejected why), next) := by
  rw [step, begin_eq, h.ready_eq hs hS, hcheck]
  rfl

end Finds

/-! ### Calls of builtins -/

/-- Whether a call of a builtin passes its check is up to its arguments, if there are as many as the
builtin has parameters and no holes among them. -/
theorem Kept.check_of_callsBuiltin (hs : s.Kept next) (hS : S.Full) (ht : s.nodes.Holds t)
    {b : Builtin} {ps : List Plant} (hc : t.CallsBuiltin b ps)
    (hcount : ps.length = b.parameters.length) (hholes : ∀ p ∈ ps, p.root.kind ≠ .hole) :
    S.check s t.root = b.check S s.nodes t.root (ps.map Plant.id) := by
  obtain ⟨-, -, hformed⟩ := hs.stocked.of_holds ht
  have hparams : t.root.parameters.length = b.parameters.length := by
    have hslots : t.root.slots.names = t.root.parameters.map parameterSlot := by
      rw [hformed.root.slots (by simp [hc.kind]), Node.declaredSlots, hc.kind]
    have hsize : t.root.slots.size = ps.length := by
      rw [← Slots.length_children, ht.children, List.length_map, hc.parts]
    rw [← hcount, ← hsize, ← Slots.length_names, hslots, List.length_map]
  rw [Signature.check, hc.kind]
  dsimp only
  rw [Signature.checkReference, liftM_eq_ok_iff.2 (Node.needText_eq_ok_iff.2 hc.name), ok_bind,
    hS.builtins b]
  dsimp only
  rw [if_neg (not_not.2 hparams), hs.openParameter?_of_parts ht hc.kind (hc.parts ▸ hholes),
    ht.children, hc.parts]

/-- The rule of a call is that of the builtin. -/
theorem reduce_of_callsBuiltin (hS : S.Full) {b : Builtin} {ps : List Plant}
    (hc : t.CallsBuiltin b ps) :
    s.reduce S most t.root = b.apply most s t.root t.root.slots.children := by
  rw [reduce, hc.kind]
  dsimp only
  rw [reduceReference, Supply.liftM_fault_ok (Node.needText_eq_ok_iff.2 hc.name), pure_bind,
    hS.builtins b]

/-! ### Nodes that wait for their children -/

/-- What is normal is found to be. -/
theorem Kept.isNormal_of_normal (h : s.Kept next) (hS : S.Full) (ht : s.nodes.Holds t)
    (hnormal : t.Normal) : S.isNormal s.nodes t.id = .ok true := by
  obtain ⟨hnodup, -, hformed⟩ := h.stocked.of_holds ht
  exact (ht.tree_shows hnodup).isNormal_of_normal hS hformed hnormal

namespace Kept

variable (hs : s.Kept next) (hS : S.Full) (ht : s.nodes.Holds t)
  (hboard : ∃ root ∈ s.board, s.nodes.RootOf t.id root)
include hs hS ht hboard

/-- A step at a node all of whose children are strict and normal reduces the node itself. -/
theorem finds_self (hk : t.root.kind.category = .expression)
    (hstrict : t.root.strictChildren s.nodes.get? = .ok t.root.slots.children)
    (hnormal : ∀ p ∈ t.parts, S.isNormal s.nodes p.id = .ok true) : s.Finds S t.id t := by
  obtain ⟨root, hmem, hroot⟩ := hboard
  exact ⟨ht, ⟨root, hmem, hroot⟩, hs.redex_of_parts hS ht
    (hs.unlocked ht hmem hroot _ t.root_mem_nodes) hk hstrict hnormal⟩

/-- It reduces the first child that is not normal, if that is its own redex. -/
theorem finds_part (hstrict : t.root.strictChildren s.nodes.get? = .ok t.root.slots.children)
    {before after : List Plant} (hparts : t.parts = before ++ c :: after)
    (hbefore : ∀ p ∈ before, S.isNormal s.nodes p.id = .ok true)
    (hc : S.isNormal s.nodes c.id = .ok false) (hredex : S.redex s.nodes c.id = .ok (some c.id)) :
    s.Finds S t.id c := by
  obtain ⟨root, hmem, hroot⟩ := hboard
  have hheld := ht.of_mem_subs (Plant.mem_subs_of_mem_parts (u := c) (by simp [hparts]))
  refine ⟨hheld, ⟨root, hmem, hroot⟩, ?_⟩
  have hfind : t.root.slots.children.findM? (fun c => return !(← S.isNormal s.nodes c)) =
      .ok (some c.id) := by
    refine findM?_eq_ok_some_iff.2 ⟨before.map Plant.id, after.map Plant.id, ?_, ?_, ?_⟩
    · rw [ht.children, hparts, List.map_append, List.map_cons]
    · rintro _ hx
      obtain ⟨p, hp, rfl⟩ := List.mem_map.1 hx
      rw [hbefore p hp]
      rfl
    · rw [hc]
      rfl
  rw [ht.redex_of_findM? ((hs.linked.hung hs.lt).nodup_ids ht) (hS.requireKind _) hstrict
    (hs.unlocked ht hmem hroot _ t.root_mem_nodes), hfind, ok_bind]
  exact hredex

end Kept

/-- A call or an access on the board. -/
structure Waits (s : State) (t : Plant) : Prop where
  held : s.nodes.Holds t
  board : ∃ root ∈ s.board, s.nodes.RootOf t.id root
  kind : t.root.kind = .reference ∨ t.root.kind = .member

namespace Waits

variable (h : s.Waits t)
include h

theorem expression : t.root.kind.category = .expression := by
  rcases h.kind with hk | hk <;> rw [hk] <;> rfl

theorem strictChildren_eq (F : Forest) :
    t.root.strictChildren F.get? = .ok t.root.slots.children := by
  rcases h.kind with hk | hk <;> rw [Node.strictChildren, hk]

/-- Once all parts are normal a step at it reduces it. -/
theorem finds (hs : s.Kept next) (hS : S.Full)
    (hnormal : ∀ p ∈ t.parts, S.isNormal s.nodes p.id = .ok true) : s.Finds S t.id t :=
  hs.finds_self hS h.held h.board h.expression (h.strictChildren_eq _) hnormal

end Waits

/-- What has a part exchanged stays on the board. -/
theorem Grafts.exists_rootOf_whole (h : s.Grafts c u s') (hs : s.Kept next) (ht : s.nodes.Holds t)
    (hc : c ∈ t.parts) (hboard : ∃ root ∈ s.board, s.nodes.RootOf t.id root) :
    ∃ root ∈ s'.board, s'.nodes.RootOf t.id root := by
  obtain ⟨root, hmem, hroot⟩ := hboard
  have hout : t.id ∉ c.ids := by
    obtain ⟨n, parts⟩ := t
    exact ht.id_notMem_parts hc
  obtain ⟨hroot', hmem'⟩ := h.rootOf_of_notMem hs hout hroot
  exact ⟨root, hmem'.2 hmem, hroot'⟩

end State

end TermForest
