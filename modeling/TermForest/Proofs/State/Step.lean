import TermForest.Proofs.Rule.Reduce
import TermForest.Proofs.State.Move
import TermForest.Step

/-!
# Steps keep states

What the first phase of a step plans fits its state, and putting a plan that fits in place keeps the
state. The second phase may run later than the first, when more ids have been handed out.
-/

namespace TermForest

open Supply (Meets)

/-- A plan reduces a node on the board of a state: to a plant that sprouts from its forest, of ids
below `next`, or by an effect whose call is there. -/
def Plan.Fits (s : State) (next : Nat) : Plan → Prop
  | .ready redex w => (∃ root ∈ s.board, s.nodes.RootOf redex root) ∧
      ∃ lo u, s.Kept lo ∧ lo ≤ next ∧ w.root = u.id ∧ s.nodes.Sprouts w.forest lo next u
  | .deferred redex e => (∃ root ∈ s.board, s.nodes.RootOf redex root) ∧ e.Fits s.nodes
  | .nothing => True

theorem Plan.Fits.mono {s : State} {next next' : Nat} {p : Plan} (h : p.Fits s next)
    (hn : next ≤ next') : p.Fits s next' := by
  cases p with
  | ready redex w =>
    obtain ⟨hroot, lo, u, hkept, hlo, hw, hu⟩ := h
    exact ⟨hroot, lo, u, hkept, Nat.le_trans hlo hn, hw, hu.below, hu.held,
      hu.grown.mono (Nat.le_refl _) hn, hu.free⟩
  | deferred redex e => exact h
  | nothing => exact h

namespace State.Kept

variable {s : State} {next : Nat}

/-! ### The first phase -/

theorem meets_begin (h : s.Kept next) (S : Signature) (most : Int64) (target : NodeId) :
    (s.begin S most target).Meets next (fun p next' => p.Fits s next')
      fun e => e.PointsInto s.nodes target ∨ ¬S.Full ∨ s.nodes.get? target = none := by
  unfold State.begin
  refine ((meets_find s.nodes target).imp (fun _ _ _ hn => hn) fun _ he => .inr (.inr he)).bind ?_
  rintro n _ - ⟨hget, rfl⟩
  obtain ⟨root, hmem, hroot, hrootOf⟩ := h.rootOf_eq hget
  obtain ⟨t, rfl, hheld, -, hnodup, hids, hf⟩ := Forest.Kept.exists_plant h hget
  obtain rfl := Forest.id_of_get? hget
  have ht := hheld.tree_shows hnodup
  rw [Supply.liftM_fault_ok hrootOf, pure_bind]
  refine .guard (fun _ => .inl ⟨_, t.ids, rfl, hheld.idsUnder hnodup, t.id_mem_ids⟩) fun hboard => ?_
  rw [not_not] at hboard
  split
  · exact .pure trivial
  refine Meets.bind (Q := fun o next' => next = next' ∧ S.redex s.nodes t.id = .ok o)
    (.liftFault (fun o ho => ⟨rfl, ho⟩) fun e he => ?_) ?_
  · refine .inr (.inl fun hS => ?_)
    obtain ⟨o, ho⟩ := ht.exists_redex hS hf
    rw [Plant.id_root, Signature.redex, ho] at he
    cases he
  rintro (_ | redex) _ - ⟨rfl, hredex⟩
  · exact .pure trivial
  obtain ⟨u, hu, rfl, -⟩ := ht.redex_mem hredex
  obtain ⟨j, hj⟩ := (hids u.id).1 (Plant.mem_ids_iff.2 ⟨u, hu, rfl⟩)
  have hr := (hheld.of_mem_subs hu).get?_id
  have hredexRoot : ∃ root ∈ s.board, s.nodes.RootOf u.id root :=
    ⟨root, hboard, hroot.of_ascends hj⟩
  dsimp only
  rw [Supply.liftM_fault_ok (Forest.find_eq_ok_iff.2 hr), pure_bind]
  refine Meets.bind (Q := fun _ next' => next = next')
    (.liftFault (fun _ _ => rfl) fun e he => .inr (.inl fun hS => ?_)) ?_
  · rw [hS.requireKind] at he
    cases he
  rintro _ _ - rfl
  refine Meets.bind (Q := fun _ next' => next = next' ∧ S.check s u.root = .ok ())
    (.lift (fun _ hc => ⟨rfl, hc⟩) fun e he => ?_) ?_
  · by_cases hS : S.Full
    · exact .inl (((Signature.ends_check hS h.stocked hr).of_error he).pointsInto hheld hnodup hu)
    · exact .inr (.inl hS)
  rintro _ _ - ⟨rfl, hc⟩
  refine ((meets_reduce h.stocked hr (Signature.expression_of_redex hredex hr) most hc).imp
    (fun _ _ _ ho => ho) fun _ he => .inl (he.blames.pointsInto hheld hnodup hu)).bind ?_
  rintro (w | e | _) next' hnext ho
  · obtain ⟨v, hw, hv⟩ := ho
    exact .pure ⟨hredexRoot, next, v, h, hnext, hw, hv⟩
  · exact .pure ⟨hredexRoot, ho⟩
  · exact ho.elim

end State.Kept

namespace State.Kept

variable {s : State} {lo hi : Nat} {redex : NodeId} {w : Replacement} {u : Plant}

/-- A plant in the place of a tree on the board. -/
theorem exists_graft (h : s.Kept lo) (hlo : lo ≤ hi) {root : NodeId}
    (hroot : s.nodes.RootOf redex root) (hboard : root ∈ s.board) (hw : w.root = u.id)
    (hu : s.nodes.Sprouts w.forest lo hi u) :
    ∃ s', s.graft redex w = .ok s' ∧ s'.Kept hi := by
  obtain ⟨k, hk⟩ := hroot.2
  obtain ⟨r, hr⟩ := hk.exists_start
  obtain ⟨t, rfl, ht, -, hnodup, hids, -⟩ := Forest.Kept.exists_plant h hr
  obtain rfl : t.id = redex := Forest.id_of_get? hr
  have hfresh := Forest.Kept.get?_of_grown h hu.grown
  have hdisjoint : ∀ y ∈ t.ids, y ∉ u.ids := by
    intro y hy hy'
    obtain ⟨n, hn⟩ := ((hids y).1 hy).choose_spec.exists_start
    rw [hfresh y hy'] at hn
    cases hn
  have hremoved : t.ids.filter (· ∉ Std.ExtTreeSet.ofList u.ids) = t.ids :=
    List.filter_eq_self.2 fun y hy => by simp [Std.ExtTreeSet.mem_ofList, hdisjoint y hy]
  have hget : ((s.nodes.insertAll u.nodes).eraseAll t.ids).get? u.id = some u.root :=
    Forest.get?_eraseAll_eq_some_iff.2 ⟨fun hmem => hdisjoint _ hmem u.id_mem_ids,
      Forest.get?_insertAll_nodes hu.grown.nodup u.mem_subs_self⟩
  rw [graft, ht.idsUnder hnodup, ok_bind, hw, hu.held.idsUnder hu.grown.nodup, ok_bind]
  dsimp only
  rw [hu.eraseAll_leftOver h.lt, hremoved, Forest.find_eq_ok_iff.2 hr, ok_bind,
    Forest.find_eq_ok_iff.2 hget, ok_bind]
  have hdefs := h.board_notMem_defs hboard
  cases hparent : t.root.parent with
  | some parent =>
    obtain ⟨slot, p, hslot, hp, -⟩ := h.linked.exists_holder hr hparent
    obtain rfl := Forest.id_of_get? hp
    rw [hslot]
    have hpmem : p.id ∉ t.ids := h.linked.parent_notMem hids hr hparent
    have hne : u.root.id ≠ p.id := fun e => by
      rw [← e, Plant.id_root, hfresh _ u.id_mem_ids] at hp
      cases hp
    have hholder : (((s.nodes.insertAll u.nodes).eraseAll t.ids).insert
        (u.root.heldBy p.id slot)).get? p.id = some p := by
      rw [Forest.get?_insert, Node.id_heldBy, if_neg hne]
      exact Forest.get?_eraseAll_eq_some_iff.2
        ⟨hpmem, Forest.get?_insertAll_of_get? hfresh hp⟩
    refine ⟨_, bind_eq_ok_iff.2 ⟨p, Forest.find_eq_ok_iff.2 hholder, rfl⟩, ?_⟩
    exact Forest.Kept.replaceSubtree h hu.grown hu.free hlo ht hnodup hids hp hparent hslot hroot
      hdefs
  | none =>
    obtain rfl : root = t.id := hroot.unique ⟨⟨t.root, hr, hparent⟩, 0, .refl hr⟩
    have hslot : t.root.parentSlot = none := by
      have := h.linked.parentSlot _ _ hr
      rw [hparent] at this
      simpa using this
    have hsame : ((s.nodes.insertAll u.nodes).eraseAll t.ids).insert
        { u.root with parent := none, parentSlot := t.root.parentSlot } =
          (s.nodes.insertAll u.nodes).eraseAll t.ids := by
      rw [hslot, show { u.root with parent := none, parentSlot := none } = u.root by
        rw [← hu.free.1, ← hu.free.2]]
      exact Forest.insert_of_get? hget
    refine ⟨_, rfl, ?_⟩
    have hareas := h.nodup_areas
    have hout := Forest.Kept.id_notMem_roots h hu.grown
    rw [mem_roots_iff] at hout
    have hmap : ∀ x, x ∈ s.board.map (fun id => if id = t.id then u.id else id) ↔
        x = u.id ∨ x ∈ s.board ∧ x ≠ t.id := fun x => mem_map_replace hboard
    have hnodup' := nodup_map_replace (a := t.id) (b := u.id) hareas.1.1 (by tauto)
    have hnodup : (s.board.map (fun id => if id = t.id then u.id else id) ++ s.toolbox ++ s.defs ++
        s.goal).Nodup := by
      rw [nodup_roots_iff]
      grind
    have hroots : ∀ x, x ∈ s.board.map (fun id => if id = t.id then u.id else id) ++ s.toolbox ++
        s.defs ++ s.goal ↔ x = u.id ∨ x ∈ s.roots ∧ x ≠ t.id := fun x => by
      simp only [roots, List.mem_append, hmap]
      grind
    have hkept := Forest.Kept.replaceRoot h hu.grown hu.free hlo (mem_roots_of_board hboard) hdefs
      hids hnodup hroots
    rw [← hsame] at hkept
    exact hkept

/-! ### The second phase -/

/-- Completing a plan that fits gives a kept state. -/
theorem meets_complete {next : Nat} (h : s.Kept next) (S : Signature) {p : Plan}
    (hp : p.Fits s next) :
    (s.complete S p).Meets next (fun o next' => ∀ s', o = some s' → s'.Kept next')
      fun _ => ¬S.Full := by
  cases p with
  | nothing => exact .pure nofun
  | ready redex w =>
    obtain ⟨⟨root, hboard, hroot⟩, lo, u, hkept, hlo, hw, hu⟩ := hp
    obtain ⟨s', hs', hgraft⟩ := hkept.exists_graft hlo hroot hboard hw hu
    rw [complete, Supply.liftM_ok hs', pure_bind]
    exact .pure fun _ e => Option.some.inj e ▸ hgraft
  | deferred redex e =>
    obtain ⟨⟨root, hboard, hroot⟩, he⟩ := hp
    rw [complete]
    refine Meets.bind ((Signature.meets_finish h.stocked he).imp (fun _ _ _ hw => hw)
      fun _ hnone hS => hnone (hS.exists_finishing he)) ?_
    rintro w next' hnext ⟨u, hw, hu⟩
    obtain ⟨s', hs', hgraft⟩ := h.exists_graft hnext hroot hboard hw hu
    rw [Supply.liftM_ok hs', pure_bind]
    exact .pure fun _ e => Option.some.inj e ▸ hgraft

/-- Both phases together keep the state. -/
theorem meets_step {next : Nat} (h : s.Kept next) (S : Signature) (most : Int64) (target : NodeId) :
    (s.step S most target).Meets next (fun o next' => ∀ s', o = some s' → s'.Kept next')
      fun e => e.PointsInto s.nodes target ∨ ¬S.Full ∨ s.nodes.get? target = none := by
  refine (h.meets_begin S most target).bind fun p next' hnext hp => ?_
  exact .liftSupply (((h.mono hnext).meets_complete S hp).imp (fun _ _ _ ho => ho)
    fun _ hS => .inr (.inl hS))

end State.Kept

end TermForest
