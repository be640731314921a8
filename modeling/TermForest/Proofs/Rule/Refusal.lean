import TermForest.Proofs.Normal
import TermForest.Proofs.Rule.Check

/-!
# Checks that refuse

Under a full signature, a check of a node in a stocked forest passes or refuses the node. It meets no
fault, since every look-up that it makes finds what it looks for. A refusal blames the node, a child
of it, or a child of a child.
-/

namespace TermForest

/-! ### Blame -/

/-- The ids of a node, of its children and of their children. -/
inductive Forest.Near (F : Forest) (n : Node) : NodeId → Prop where
  | self : F.Near n n.id
  | child {c : NodeId} (hc : c ∈ n.slots.children) : F.Near n c
  | grandchild {c g : NodeId} {m : Node} (hc : c ∈ n.slots.children) (hm : F.get? c = some m)
      (hg : g ∈ m.slots.children) : F.Near n g

theorem Forest.Near.of_slot {F : Forest} {n : Node} {slot : String} {c : NodeId}
    (h : n.slots.get? slot = some c) : F.Near n c :=
  .child (Slots.mem_children_iff.2 ⟨slot, h⟩)

/-- What is close to a node of a plant belongs to the plant. -/
theorem Forest.Near.mem_ids {F : Forest} {t u : Plant} {x : NodeId} (h : F.Near u.root x)
    (ht : F.Holds t) (hu : u ∈ t.subs) : x ∈ t.ids := by
  have hchild : ∀ {v : Plant} {c : NodeId}, v ∈ t.subs → c ∈ v.root.slots.children →
      ∃ w ∈ t.subs, w.id = c := by
    intro v c hv hc
    rw [(ht.of_mem_subs hv).children, List.mem_map] at hc
    obtain ⟨w, hw, rfl⟩ := hc
    exact ⟨w, Plant.mem_subs_trans (Plant.mem_subs_of_mem_parts hw) hv, rfl⟩
  cases h with
  | self => exact Plant.mem_ids_iff.2 ⟨u, hu, rfl⟩
  | child hc => exact Plant.mem_ids_iff.2 (hchild hu hc)
  | grandchild hc hm hg =>
    obtain ⟨w, hw, rfl⟩ := hchild hu hc
    rw [(ht.of_mem_subs hw).get?_id, Option.some.injEq] at hm
    subst hm
    exact Plant.mem_ids_iff.2 (hchild hw hg)

/-- A refusal that names a node or one close below it. -/
def Failure.Blames (F : Forest) (n : Node) (e : Failure) : Prop :=
  ∃ why, e = .rejected why ∧ F.Near n why.node

/-- A refusal that names a node of the subtree at an id. -/
def Failure.PointsInto (F : Forest) (id : NodeId) (e : Failure) : Prop :=
  ∃ why ids, e = .rejected why ∧ F.idsUnder id = .ok ids ∧ why.node ∈ ids

theorem Failure.PointsInto.isRefusal {F : Forest} {id : NodeId} {e : Failure}
    (h : e.PointsInto F id) : e.IsRefusal := by
  obtain ⟨why, ids, he, -⟩ := h
  exact ⟨why, he⟩

theorem Failure.Blames.pointsInto {F : Forest} {t u : Plant} {e : Failure} (h : e.Blames F u.root)
    (ht : F.Holds t) (hn : t.ids.Nodup) (hu : u ∈ t.subs) : e.PointsInto F t.id := by
  obtain ⟨why, rfl, hnear⟩ := h
  exact ⟨why, t.ids, rfl, ht.idsUnder hn, hnear.mem_ids ht hu⟩

theorem Failure.Blames.isRefusal {F : Forest} {n : Node} {e : Failure} (h : e.Blames F n) :
    e.IsRefusal := by
  obtain ⟨why, he, -⟩ := h
  exact ⟨why, he⟩

section

variable {F : Forest} {n : Node} {α : Type} {Q : α → Prop} {why : Rejection}

theorem ends_refuse (hw : F.Near n why.node) :
    Ends (refuse why : Except Failure α) Q (Failure.Blames F n) := ⟨why, rfl, hw⟩

/-- What follows a refusing guard may use that the guard let it through. -/
theorem ends_refuse_guard {p : Prop} [Decidable p] {x : Except Failure α} (hw : F.Near n why.node)
    (h : ¬p → Ends x Q (Failure.Blames F n)) :
    Ends (if p then refuse why >>= fun _ : PUnit => x else x) Q (Failure.Blames F n) :=
  .guard (fun _ => ⟨why, rfl, hw⟩) h

end

namespace Signature

variable {S : Signature} {s : State} {next : Nat} {id : NodeId} {n : Node}

/-! ### Types -/

theorem Full.coarseType_eq (hS : S.Full) {F : Forest} (hn : F.get? id = some n) :
    S.coarseType F id = .ok (n.coarseType F.get?) := by
  rw [Signature.coarseType, Forest.find_eq_ok_iff.2 hn, ok_bind, hS.requireKind]
  rfl

/-- A node of a type passes the check for that type, unless it is a hole. -/
theorem Full.requireType_eq_ok (hS : S.Full) {F : Forest} {c : CoarseType}
    (hn : F.get? id = some n) (hc : n.coarseType F.get? = c) (hne : c ≠ .hole) :
    S.requireType F id c = .ok () := by
  rw [requireType, requireOneOf, hS.coarseType_eq hn, hc]
  show (if c = .hole then _ else if c ∈ [c] then _ else _) = _
  rw [if_neg hne, if_pos (List.mem_singleton_self c)]
  rfl

theorem Full.ends_requireOneOf (hS : S.Full) {F : Forest} {m : Node} (hm : F.Near m id)
    (hn : F.get? id = some n) (permitted : List CoarseType) (expected : String) :
    Ends (S.requireOneOf F id permitted expected)
      (fun _ => S.requireOneOf F id permitted expected = .ok ()) (Failure.Blames F m) := by
  refine Ends.self (Q := fun _ => True) ?_
  rw [requireOneOf, hS.coarseType_eq hn]
  show Ends (if _ then refuse _ else if _ then pure () else refuse _) _ _
  split
  · exact ends_refuse hm
  · split
    · exact .pure trivial
    · exact ends_refuse hm

theorem Full.ends_requireType (hS : S.Full) {F : Forest} {m : Node} (hm : F.Near m id)
    (hn : F.get? id = some n) (permitted : CoarseType) : Ends (S.requireType F id permitted)
      (fun _ => S.requireType F id permitted = .ok ()) (Failure.Blames F m) :=
  hS.ends_requireOneOf hm hn _ _

/-! ### Operations -/

section

variable (hS : S.Full) (hF : s.nodes.Stocked next) (hn : s.nodes.get? id = some n)
include hS hF hn

theorem ends_checkApply (hk : n.kind = .apply) :
    Ends (S.checkApply s n) (fun _ => True) (Failure.Blames s.nodes n) := by
  obtain ⟨callee, f, hslot, hcallee, hf⟩ := hF.exists_declared hn (by simp [hk]) "callee"
    (by simp [Node.declaredSlots, hk])
  have hmem := Slots.mem_children_iff.2 ⟨_, hslot⟩
  rw [checkApply, liftM_eq_ok_iff.2 hcallee, ok_bind,
    liftM_eq_ok_iff.2 (Forest.find_eq_ok_iff.2 hf), ok_bind]
  split
  · exact ends_refuse (.child hmem)
  · next hkf =>
    obtain ⟨arg, binder, hslot', harg, hbinder⟩ := hF.exists_declared hf (by simp [hkf]) "arg"
      (by simp [Node.declaredSlots, hkf])
    -- the one refusal that reaches two levels down: the binder of the callee is a hole
    have harg' : s.nodes.Near n arg := .grandchild hmem hf (Slots.mem_children_iff.2 ⟨_, hslot'⟩)
    rw [liftM_eq_ok_iff.2 harg, ok_bind, liftM_eq_ok_iff.2 (Forest.find_eq_ok_iff.2 hbinder),
      ok_bind]
    split
    · exact .pure trivial
    · exact ends_refuse harg'
    · exact ends_refuse harg'
  · next hkf =>
    obtain ⟨name, -, hname⟩ := (hF.formed hf).exists_name (by rw [hkf]; decide)
    rw [liftM_eq_ok_iff.2 hname, ok_bind]
    refine ends_refuse_guard (.child hmem) fun _ => ?_
    split
    · exact ends_refuse (.child hmem)
    · exact .pure trivial
  · rw [liftM_eq_ok_iff.2 (hS.coarseType_eq hf), ok_bind]
    exact ends_refuse (.child hmem)

theorem ends_checkBinop (hk : n.kind = .binop) :
    Ends (S.checkBinop s n) (fun _ => True) (Failure.Blames s.nodes n) := by
  obtain ⟨left, l, hslot, hleft, hl⟩ := hF.exists_declared hn (by simp [hk]) "left"
    (by simp [Node.declaredSlots, hk])
  obtain ⟨right, r, hslot', hright, hr⟩ := hF.exists_declared hn (by simp [hk]) "right"
    (by simp [Node.declaredSlots, hk])
  obtain ⟨text, op, htext, hop⟩ := (hF.formed hn).exists_operator hk
  rw [checkBinop, liftM_eq_ok_iff.2 htext, ok_bind, liftM_eq_ok_iff.2 hleft, ok_bind,
    liftM_eq_ok_iff.2 hright, ok_bind, hop]
  have hsame : Ends (do S.requireType s.nodes right (← S.coarseType s.nodes left) : Except Failure Unit)
      (fun _ => True) (Failure.Blames s.nodes n) := by
    rw [liftM_eq_ok_iff.2 (hS.coarseType_eq hl), ok_bind]
    exact (hS.ends_requireType (.of_slot hslot') hr _).imp (fun _ _ => trivial) fun _ he => he
  have hnumbers : ∀ {x : Except Failure Unit}, (r.kind = .number →
      Ends x (fun _ => True) (Failure.Blames s.nodes n)) → Ends (do
        S.requireType s.nodes left .number
        S.requireType s.nodes right .number
        x) (fun _ => True) (Failure.Blames s.nodes n) := by
    intro x hx
    refine (hS.ends_requireType (.of_slot hslot) hl _).bind fun _ _ => ?_
    refine (hS.ends_requireType (.of_slot hslot') hr _).bind fun _ hnumber => hx ?_
    exact kind_number_of_requireType hnumber hr
  cases op with
  | add => exact (hS.ends_requireOneOf (.of_slot hslot) hl _ _).bind fun _ _ => hsame
  | equal | unequal =>
    exact (hS.ends_requireOneOf (.of_slot hslot) hl _ _).bind fun _ _ => hsame
  | sub | mul | less | greater => exact hnumbers fun _ => .pure trivial
  | div =>
    refine hnumbers fun hkr => ?_
    obtain ⟨i, -, hi⟩ := hF.exists_number hr hkr
    rw [if_pos rfl, liftM_eq_ok_iff.2 hi, ok_bind]
    split
    · exact ends_refuse (.of_slot hslot')
    · exact .pure trivial

theorem ends_checkMember (hk : n.kind = .member) :
    Ends (S.checkMember s n) (fun _ => True) (Failure.Blames s.nodes n) := by
  obtain ⟨array, a, hslot, harray, ha⟩ := hF.exists_declared hn (by simp [hk]) "array"
    (by simp [Node.declaredSlots, hk])
  obtain ⟨index, i, hslot', hindex, hi⟩ := hF.exists_declared hn (by simp [hk]) "index"
    (by simp [Node.declaredSlots, hk])
  rw [checkMember, liftM_eq_ok_iff.2 harray, ok_bind, liftM_eq_ok_iff.2 hindex, ok_bind]
  refine (hS.ends_requireType (.of_slot hslot) ha _).bind fun _ hka => ?_
  refine (hS.ends_requireType (.of_slot hslot') hi _).bind fun _ hki => ?_
  obtain ⟨position, -, hposition⟩ := hF.exists_number hi (kind_number_of_requireType hki hi)
  obtain ⟨length, -, hlength⟩ := (hF.formed ha).exists_length (kind_array_of_requireType hka ha)
  rw [liftM_eq_ok_iff.2 hposition, ok_bind, liftM_eq_ok_iff.2 (Forest.find_eq_ok_iff.2 ha),
    ok_bind, liftM_eq_ok_iff.2 hlength, ok_bind]
  split
  · exact ends_refuse (.of_slot hslot')
  · exact .pure trivial

/-! ### Calls -/

omit hS in
/-- A reference has an argument for each of its parameters. -/
theorem exists_argument (hk : n.kind = .reference) {position : Nat}
    (h : position < n.parameters.length) :
    ∃ a m, n.argument n.slots.children position = .ok a ∧ a ∈ n.slots.children ∧
      s.nodes.get? a = some m := by
  have hlen : n.slots.children.length = n.parameters.length := by
    rw [Slots.length_children, ← Slots.length_names, (hF.formed hn).slots (by simp [hk]),
      Node.declaredSlots, hk]
    exact List.length_map ..
  have hget := List.getElem?_eq_getElem (hlen ▸ h)
  have hmem := List.mem_of_getElem? hget
  obtain ⟨m, hm⟩ := hF.exists_child hn hmem
  exact ⟨_, m, Node.argument_eq_ok_iff.2 hget, hmem, hm⟩

theorem ends_checkBuiltin (hk : n.kind = .reference) (b : Builtin)
    (hlen : n.parameters.length = b.parameters.length) :
    Ends (b.check S s.nodes n n.slots.children) (fun _ => True) (Failure.Blames s.nodes n) := by
  have harg : ∀ position, position < b.parameters.length →
      ∃ a m, n.argument n.slots.children position = .ok a ∧ a ∈ n.slots.children ∧
        s.nodes.get? a = some m :=
    fun position h => exists_argument hF hn hk (hlen.symm ▸ h)
  have htype : ∀ {a : NodeId} {m : Node} (c : CoarseType), a ∈ n.slots.children →
      s.nodes.get? a = some m →
      Ends (S.requireType s.nodes a c) (fun _ => True) (Failure.Blames s.nodes n) := fun c ha hm =>
    (hS.ends_requireType (.child ha) hm c).imp (fun _ _ => trivial) fun _ he => he
  cases b with
  | eat => exact .pure trivial
  | «repeat» =>
    obtain ⟨count, c, hcount, hmemc, hc⟩ := harg 0 (by decide)
    obtain ⟨function, f, hfunction, hmemf, hf⟩ := harg 1 (by decide)
    rw [Builtin.check, liftM_eq_ok_iff.2 hcount, ok_bind, liftM_eq_ok_iff.2 hfunction, ok_bind]
    exact (htype _ hmemc hc).bind fun _ _ => htype _ hmemf hf
  | length =>
    obtain ⟨array, a, harray, hmema, ha⟩ := harg 0 (by decide)
    rw [Builtin.check, liftM_eq_ok_iff.2 harray, ok_bind]
    exact htype _ hmema ha
  | concat =>
    obtain ⟨left, l, hleft, hmeml, hl⟩ := harg 0 (by decide)
    obtain ⟨right, r, hright, hmemr, hr⟩ := harg 1 (by decide)
    rw [Builtin.check, liftM_eq_ok_iff.2 hleft, ok_bind]
    refine (htype _ hmeml hl).bind fun _ _ => ?_
    rw [liftM_eq_ok_iff.2 hright, ok_bind]
    exact htype _ hmemr hr

end

end Signature

namespace State

variable {s : State} {next : Nat}

theorem mem_defs_of_definition? {name : String} {old : Node}
    (ho : s.definition? name = some old) : old.id ∈ s.defs ∧ s.nodes.get? old.id = some old := by
  obtain ⟨d, hd, hget⟩ := List.mem_filterMap.1 (List.mem_of_find?_eq_some ho)
  obtain rfl := Forest.id_of_get? hget
  exact ⟨hd, hget⟩

theorem exists_calledBy (sought : String) {references : List Node}
    (h : ∀ n ∈ references, n.kind = .reference ∧ n.Formed next) :
    ∃ o, calledBy sought references = .ok o := by
  induction references with
  | nil => exact ⟨_, rfl⟩
  | cons n references ih =>
    obtain ⟨hk, hf⟩ := h n List.mem_cons_self
    obtain ⟨name, -, hname⟩ := hf.exists_name (by rw [hk]; decide)
    obtain ⟨o, ho⟩ := ih fun m hm => h m (List.mem_cons_of_mem _ hm)
    rw [calledBy, hname, ok_bind]
    split
    · exact ⟨_, rfl⟩
    · rw [ho]
      exact ⟨_, rfl⟩

/-- The search for a circular call comes to an end. -/
theorem exists_callsFrom (hF : s.nodes.Stocked next) (sought : String)
    (visited stack : List String) : ∃ b, s.callsFrom sought visited stack = .ok b := by
  fun_induction callsFrom s sought visited stack with
  | case1 => exact ⟨false, rfl⟩
  | case2 _ _ _ _ ih => exact ih
  | case3 _ _ _ _ _ ih => exact ih
  | case4 visited current stack hv d hd ih =>
    obtain ⟨-, hget⟩ := mem_defs_of_definition? hd
    obtain ⟨t, rfl, ht, hnodup, -, hf⟩ := hF d.id d hget
    have hreferences := ht.findAll hnodup fun n => n.kind = .reference
    have hcalls : ∀ n ∈ t.nodes.filter fun n => n.kind = .reference,
        n.kind = .reference ∧ n.Formed next := fun n hn => by
      obtain ⟨hmem, hk⟩ := List.mem_filter.1 hn
      exact ⟨of_decide_eq_true hk, hf n hmem⟩
    obtain ⟨o, ho⟩ := exists_calledBy sought hcalls
    rw [Plant.id_root, hreferences, ok_bind, ho, ok_bind]
    cases o with
    | none => exact ⟨true, rfl⟩
    | some names => exact ih names

end State

namespace Signature

variable {S : Signature} {s : State} {next : Nat} {id : NodeId} {n : Node} (hS : S.Full)
  (hF : s.nodes.Stocked next) (hn : s.nodes.get? id = some n)
include hS hF hn

theorem ends_checkReference (hk : n.kind = .reference) :
    Ends (S.checkReference s n) (fun _ => True) (Failure.Blames s.nodes n) := by
  obtain ⟨name, -, hname⟩ := (hF.formed hn).exists_name (by rw [hk]; decide)
  rw [checkReference, liftM_eq_ok_iff.2 hname, ok_bind]
  split
  · next p _ =>
    refine ends_refuse_guard .self fun hlen => ?_
    split
    · next hopen => exact ends_refuse (.of_slot (Forest.get?_of_openParameter? hopen))
    · exact ends_checkBuiltin hS hF hn hk p.builtin (not_not.1 hlen)
  · refine ends_refuse_guard .self fun _ => ?_
    obtain ⟨b, hb⟩ := State.exists_callsFrom hF name [] [name]
    rw [State.callsItself, liftM_eq_ok_iff.2 hb, ok_bind]
    refine ends_refuse_guard .self fun _ => ?_
    split
    · next hopen => exact ends_refuse (.of_slot (Forest.get?_of_openParameter? hopen))
    · exact .pure trivial

/-- The check of a node refuses it or lets it pass. A refusal blames a node close to it. -/
theorem ends_check : Ends (S.check s n) (fun _ => True) (Failure.Blames s.nodes n) := by
  unfold check
  split
  · exact ends_refuse .self
  · next hk =>
    obtain ⟨name, -, hname⟩ := (hF.formed hn).exists_name (by rw [hk]; decide)
    rw [liftM_eq_ok_iff.2 hname, ok_bind]
    exact ends_refuse .self
  · next hk => exact ends_checkApply hS hF hn hk
  · next hk => exact ends_checkBinop hS hF hn hk
  · next hk =>
    obtain ⟨condition, c, hslot, hcondition, hc⟩ := hF.exists_declared hn (by simp [hk]) "condition"
      (by simp [Node.declaredSlots, hk])
    rw [liftM_eq_ok_iff.2 hcondition, ok_bind]
    exact (hS.ends_requireType (.of_slot hslot) hc _).imp (fun _ _ => trivial) fun _ he => he
  · next hk =>
    obtain ⟨value, v, hslot, hvalue, hv⟩ := hF.exists_declared hn (by simp [hk]) "value"
      (by simp [Node.declaredSlots, hk])
    rw [liftM_eq_ok_iff.2 hvalue, ok_bind]
    exact (hS.ends_requireType (.of_slot hslot) hv _).imp (fun _ _ => trivial) fun _ he => he
  · next hk => exact ends_checkMember hS hF hn hk
  · next hk => exact ends_checkReference hS hF hn hk
  all_goals exact .pure trivial

end Signature

end TermForest
