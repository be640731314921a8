import TermForest.Proofs.Normal
import TermForest.Proofs.Rule.Refusal

/-!
# Shared plants

Two forests share an id when both hold the same plant there. Whatever is read below a shared id gives
the same answer in both, faults included: whether a term is normal, where its redex is, what type it
has, and whether it may be reduced.
-/

namespace TermForest

/-! ### Looking at children -/

namespace Node

variable {n : Node} {peek peek' : NodeId → Option Node}

theorem openParameter?_congr (h : ∀ c ∈ n.slots.children, peek' c = peek c) :
    n.openParameter? peek' = n.openParameter? peek := by
  unfold openParameter?
  refine congrArg (n.parameters.findSome? ·) (funext fun parameter => ?_)
  dsimp only
  cases hc : n.slots.get? (parameterSlot parameter) with
  | none => rfl
  | some c =>
    show (peek' c >>= _) = (peek c >>= _)
    rw [h c (Slots.mem_children_iff.2 ⟨_, hc⟩)]

theorem coarseType_congr (h : ∀ c ∈ n.slots.children, peek' c = peek c) :
    n.coarseType peek' = n.coarseType peek := by
  unfold coarseType
  rw [openParameter?_congr h]

theorem strictChildren_congr (h : ∀ c ∈ n.slots.children, peek' c = peek c) :
    n.strictChildren peek' = n.strictChildren peek := by
  unfold strictChildren
  split
  · refine bind_congr_ok fun callee hcallee => bind_congr_ok fun argument _ => ?_
    rw [h callee (mem_children_of_needSlot hcallee)]
  all_goals rfl

end Node

/-! ### Trees that show one plant -/

namespace Tree.Shows

variable {T U : Tree} {t : Plant}

/-- Trees that show one plant have the same nodes at the children of the root. -/
theorem peek_eq {parts : List Plant} {n : Node} {below below' : NodeId → Tree}
    (children : n.slots.children = parts.map Plant.id)
    (shown : ∀ p ∈ parts, (below p.id).Shows p) (shown' : ∀ p ∈ parts, (below' p.id).Shows p) :
    ∀ c ∈ n.slots.children, (below' c).root? = (below c).root? := by
  intro c hc
  rw [children, List.mem_map] at hc
  obtain ⟨p, hp, rfl⟩ := hc
  rw [(shown p hp).root?, (shown' p hp).root?]

theorem isNormal_eq (h : T.Shows t) (h' : U.Shows t) (S : Signature) :
    U.isNormal S = T.isNormal S := by
  induction h generalizing U with
  | @node n below parts children shown ih =>
    cases h' with
    | @node _ below' _ _ shown' =>
      have hpeek := peek_eq children shown shown'
      rw [Tree.isNormal, Tree.isNormal, Node.coarseType_congr hpeek, Node.strictChildren_congr hpeek]
      refine bind_congr_ok fun _ _ => ?_
      split
      · rfl
      · refine bind_congr_ok fun cs hcs => allM_congr fun c hc => ?_
        have hc := Node.strictChildren_subset hcs hc
        rw [children, List.mem_map] at hc
        obtain ⟨p, hp, rfl⟩ := hc
        exact ih p hp (shown' p hp)

theorem redex_eq (h : T.Shows t) (h' : U.Shows t) (S : Signature) : U.redex S = T.redex S := by
  induction h generalizing U with
  | @node n below parts children shown ih =>
    cases h' with
    | @node _ below' _ _ shown' =>
      rw [Tree.redex, Tree.redex, Node.strictChildren_congr (peek_eq children shown shown')]
      split
      · rfl
      refine bind_congr_ok fun _ _ => bind_congr_ok fun cs hcs => ?_
      have hpart : ∀ c ∈ cs, ∃ p ∈ parts, p.id = c := fun c hc => by
        have hc := Node.strictChildren_subset hcs hc
        rwa [children, List.mem_map] at hc
      rw [findM?_congr (q := fun c => return !(← (below c).isNormal S)) fun c hc => ?_]
      · refine bind_congr_ok fun o ho => ?_
        cases o with
        | none => rfl
        | some c =>
          obtain ⟨p, hp, rfl⟩ := hpart c (mem_of_findM?_eq_some ho)
          exact ih p hp (shown' p hp)
      · obtain ⟨p, hp, rfl⟩ := hpart c hc
        rw [isNormal_eq (shown p hp) (shown' p hp) S]

end Tree.Shows

/-! ### Shared ids -/

/-- Both forests hold the same plant at an id. -/
def Forest.Shares (F G : Forest) (x : NodeId) : Prop :=
  ∃ t : Plant, t.id = x ∧ F.Holds t ∧ G.Holds t ∧ t.ids.Nodup

namespace Forest

variable {F G : Forest} {t : Plant} {x c : NodeId} {n : Node}

/-- All ids of a plant that both hold are shared. -/
theorem Shares.of_mem (hF : F.Holds t) (hG : G.Holds t) (hn : t.ids.Nodup) (hx : x ∈ t.ids) :
    F.Shares G x := by
  obtain ⟨u, hu, rfl⟩ := Plant.mem_ids_iff.1 hx
  exact ⟨u, rfl, hF.of_mem_subs hu, hG.of_mem_subs hu, Plant.nodup_ids_of_mem_subs hn hu⟩

namespace Shares

theorem get?_eq (h : F.Shares G x) : G.get? x = F.get? x := by
  obtain ⟨t, rfl, hF, hG, -⟩ := h
  rw [hF.get?_id, hG.get?_id]

theorem find_eq (h : F.Shares G x) : G.find x = F.find x := by
  rw [find, find, h.get?_eq]

theorem child (h : F.Shares G x) (hn : F.get? x = some n) (hc : c ∈ n.slots.children) :
    F.Shares G c := by
  obtain ⟨t, rfl, hF, hG, hnodup⟩ := h
  obtain rfl := Option.some.inj (hF.get?_id.symm.trans hn)
  rw [hF.children, List.mem_map] at hc
  obtain ⟨p, hp, rfl⟩ := hc
  exact .of_mem hF hG hnodup (Plant.ids_subset_of_mem_subs (Plant.mem_subs_of_mem_parts hp)
    p.id_mem_ids)

theorem peek_eq (h : F.Shares G x) (hn : F.get? x = some n) :
    ∀ c ∈ n.slots.children, G.get? c = F.get? c := fun _ hc => (h.child hn hc).get?_eq

theorem findAll_eq (h : F.Shares G x) (wanted : Node → Bool) :
    G.findAll x wanted = F.findAll x wanted := by
  obtain ⟨t, rfl, hF, hG, hnodup⟩ := h
  rw [hF.findAll hnodup, hG.findAll hnodup]

theorem redex_eq (h : F.Shares G x) (S : Signature) : S.redex G x = S.redex F x := by
  obtain ⟨t, rfl, hF, hG, hnodup⟩ := h
  exact (hF.tree_shows hnodup).redex_eq (hG.tree_shows hnodup) S

theorem isNormal_eq (h : F.Shares G x) (S : Signature) : S.isNormal G x = S.isNormal F x := by
  obtain ⟨t, rfl, hF, hG, hnodup⟩ := h
  exact (hF.tree_shows hnodup).isNormal_eq (hG.tree_shows hnodup) S

theorem openParameter?_eq (h : F.Shares G x) (hn : F.get? x = some n) :
    G.openParameter? n = F.openParameter? n :=
  Node.openParameter?_congr (h.peek_eq hn)

theorem number_eq (h : F.Shares G x) : G.number x = F.number x := by
  rw [number, number, h.find_eq]

theorem coarseType_eq (h : F.Shares G x) (S : Signature) : S.coarseType G x = S.coarseType F x := by
  rw [Signature.coarseType, Signature.coarseType, h.find_eq]
  refine bind_congr_ok fun n hn => ?_
  rw [Node.coarseType_congr (h.peek_eq (find_eq_ok_iff.1 hn))]

theorem requireOneOf_eq (h : F.Shares G x) (S : Signature) (permitted : List CoarseType)
    (expected : String) :
    S.requireOneOf G x permitted expected = S.requireOneOf F x permitted expected := by
  rw [Signature.requireOneOf, Signature.requireOneOf, h.coarseType_eq]

theorem requireType_eq (h : F.Shares G x) (S : Signature) (permitted : CoarseType) :
    S.requireType G x permitted = S.requireType F x permitted :=
  h.requireOneOf_eq S ..

end Shares

end Forest

/-! ### Checks -/

/-- Two states have the same definitions, and share their trees. -/
structure State.SharesDefs (s s' : State) : Prop where
  definition? : ∀ name, s'.definition? name = s.definition? name
  shares : ∀ name d, s.definition? name = some d → s.nodes.Shares s'.nodes d.id

namespace State.SharesDefs

variable {s s' : State} (h : s.SharesDefs s')
include h

theorem callsFrom_eq (sought : String) (visited stack : List String) :
    s'.callsFrom sought visited stack = s.callsFrom sought visited stack := by
  fun_induction callsFrom s sought visited stack with
  | case1 => rw [callsFrom]
  | case2 visited current stack hv ih => rw [callsFrom, if_pos hv, ih]
  | case3 visited current stack hv hd ih =>
    rw [callsFrom, if_neg hv]
    split
    · exact ih
    · next d hd' =>
      rw [h.definition?, hd] at hd'
      cases hd'
  | case4 visited current stack hv d hd ih =>
    rw [callsFrom, if_neg hv]
    split
    · next hd' =>
      rw [h.definition?, hd] at hd'
      cases hd'
    · next d' hd' =>
      rw [h.definition?, hd] at hd'
      cases hd'
      rw [(h.shares _ _ hd).findAll_eq]
      refine bind_congr_ok fun references _ => bind_congr_ok fun o _ => ?_
      cases o with
      | none => rfl
      | some names => exact ih names

variable {n : Node} (hx : s.nodes.Shares s'.nodes n.id) (hn : s.nodes.get? n.id = some n)
include hx hn

theorem checkApply_eq (S : Signature) : S.checkApply s' n = S.checkApply s n := by
  unfold Signature.checkApply
  refine bind_congr_ok fun callee hcallee => ?_
  have hc := hx.child hn (Node.mem_children_of_needSlot (liftM_eq_ok_iff.1 hcallee))
  rw [hc.find_eq]
  refine bind_congr_ok fun f hf => ?_
  rw [liftM_eq_ok_iff, Forest.find_eq_ok_iff] at hf
  rw [hc.coarseType_eq, hc.openParameter?_eq hf]
  simp only [h.definition?]
  split
  · rfl
  · refine bind_congr_ok fun arg harg => ?_
    rw [(hc.child hf (Node.mem_children_of_needSlot (liftM_eq_ok_iff.1 harg))).find_eq]
  · rfl
  · rfl

theorem checkReference_eq (S : Signature) : S.checkReference s' n = S.checkReference s n := by
  unfold Signature.checkReference
  refine bind_congr_ok fun name _ => ?_
  rw [hx.openParameter?_eq hn, h.definition?, callsItself, callsItself, h.callsFrom_eq]
  split
  · next p _ =>
    dsimp only
    split
    · rfl
    split
    · rfl
    have hargument : ∀ position c,
        (liftM (n.argument n.slots.children position) : Except Failure NodeId) = .ok c →
          s.nodes.Shares s'.nodes c := fun position c hc => by
      rw [liftM_eq_ok_iff, Node.argument_eq_ok_iff] at hc
      exact hx.child hn (List.mem_of_getElem? hc)
    unfold Builtin.check
    split
    · rfl
    · refine bind_congr_ok fun count hcount => bind_congr_ok fun function hfunction => ?_
      rw [(hargument 0 count hcount).requireType_eq, (hargument 1 function hfunction).requireType_eq]
    · exact bind_congr_ok fun array harray => (hargument 0 array harray).requireType_eq S _
    · refine bind_congr_ok fun left hleft => ?_
      rw [(hargument 0 left hleft).requireType_eq]
      refine bind_congr_ok fun _ _ => bind_congr_ok fun right hright => ?_
      rw [(hargument 1 right hright).requireType_eq]
  · rfl

/-- A shared node is checked alike. -/
theorem check_eq (S : Signature) : S.check s' n = S.check s n := by
  have hslot : ∀ {slot c}, (liftM (n.needSlot slot) : Except Failure NodeId) = .ok c →
      s.nodes.Shares s'.nodes c := fun hc =>
    hx.child hn (Node.mem_children_of_needSlot (liftM_eq_ok_iff.1 hc))
  unfold Signature.check
  split
  · rfl
  · rfl
  · exact h.checkApply_eq hx hn S
  · unfold Signature.checkBinop
    refine bind_congr_ok fun op _ => bind_congr_ok fun left hleft =>
      bind_congr_ok fun right hright => ?_
    simp only [(hslot hleft).requireOneOf_eq, (hslot hleft).requireType_eq,
      (hslot hleft).coarseType_eq, (hslot hright).requireType_eq, (hslot hright).number_eq]
  · refine bind_congr_ok fun condition hcondition => ?_
    rw [(hslot hcondition).requireType_eq]
  · refine bind_congr_ok fun value hvalue => ?_
    rw [(hslot hvalue).requireType_eq]
  · unfold Signature.checkMember
    refine bind_congr_ok fun array harray => bind_congr_ok fun index hindex => ?_
    rw [(hslot harray).requireType_eq, (hslot harray).find_eq, (hslot hindex).requireType_eq,
      (hslot hindex).number_eq]
  · exact h.checkReference_eq hx hn S
  all_goals rfl

end State.SharesDefs

end TermForest
