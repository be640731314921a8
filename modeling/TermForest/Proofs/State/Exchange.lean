import TermForest.Proofs.Play
import TermForest.Proofs.State.Graft

/-!
# Steps are local

A step of a linked state exchanges the subtree at the redex for a new one. It leaves no other node
behind, drops no other node, and changes no other node than the one that holds the subtree.
-/

namespace TermForest

/-- `s'` is `s` with the subtree at `n` in the place of the subtree at `r`. -/
structure State.Exchanges (s s' : State) (r n : Node) : Prop where
  old : s.nodes.get? r.id = some r
  new : s'.nodes.get? n.id = some n
  parent : n.parent = r.parent
  parentSlot : n.parentSlot = r.parentSlot
  /-- The dropped ids are those of the old subtree, children before parents. -/
  removed : s.nodes.idsUnder r.id = .ok s'.removed
  /-- The ids that came in are those of the new subtree, children before parents. -/
  added : s'.nodes.idsUnder n.id = .ok s'.added
  has_iff : ∀ x, s'.nodes.has x = true ↔
    s.nodes.has x = true ∧ x ∉ s'.removed ∨ x ∈ s'.added
  /-- The node that held the old subtree holds the new one in the same slot, which keeps its place;
  nothing else about the node changes. -/
  holder : ∀ p, r.parent = some p → ∃ slot m m', r.parentSlot = some slot ∧
    s.nodes.get? p = some m ∧ (slot, r.id) ∈ m.slots.entries ∧
    s'.nodes.get? p = some m' ∧ m' = { m with slots := m'.slots } ∧
    m'.slots.entries = m.slots.entries.map fun e => if e.1 = slot then (e.1, n.id) else e
  others : ∀ x m, s.nodes.get? x = some m → x ∉ s'.removed → r.parent ≠ some x →
    s'.nodes.get? x = some m
  board : s'.board =
    if r.parent = none then s.board.map fun x => if x = r.id then n.id else x else s.board
  rest : s'.toolbox = s.toolbox ∧ s'.defs = s.defs ∧ s'.goal = s.goal ∧ s'.level = s.level ∧
    s'.mode = s.mode

namespace State

variable {s s' : State} {next next' : NodeId}

/-- A graft in a linked forest exchanges two subtrees. -/
theorem Grafts.exchanges {t u : Plant} (h : s.Grafts t u s') (hs : s.nodes.Linked) :
    s.Exchanges s' t.root u.root where
  old := h.old.get?_id
  new := h.new.get?_id
  parent := h.parent
  parentSlot := h.parentSlot
  removed := h.removed ▸ h.old.idsUnder h.nodup_old
  added := h.added ▸ h.new.idsUnder h.nodup_new
  has_iff := h.has_iff
  holder p hp := by
    obtain ⟨slot, m, hslot, -, hm, hm'⟩ := h.holder p hp
    have hget := hs.get?_slot h.old.get?_id hp hslot hm
    exact ⟨slot, m, _, hslot, hm, Slots.get?_eq_some_iff.1 hget, hm', rfl,
      Slots.entries_set (Slots.mem_names_iff.2 ⟨_, hget⟩) u.id⟩
  others x m hx ht hp := by
    rw [h.removed] at ht
    rw [h.others x ht (h.notMem_new hx) hp, hx]
  board := h.board
  rest := h.rest

/-- A step of a linked state with ids below `next` exchanges the subtree at the redex for one of new
ids. -/
theorem step_exchanges (hs : s.nodes.Linked)
    (hlt : ∀ (x : NodeId) n, s.nodes.get? x = some n → x < next) (S : Signature) (most : Int64)
    (target : NodeId) (h : (s.step S most target).runFrom next = (.ok (some s'), next')) :
    ∃ r n, S.redex s.nodes target = .ok (some r.id) ∧ s.Exchanges s' r n ∧
      ∀ x : NodeId, x ∈ s'.added → next ≤ x ∧ x < next' := by
  obtain ⟨t, u, hredex, hgrafts, hids⟩ :=
    ((grafts_step (hs.hung hlt) S most target).of_ok h).2 s' rfl
  exact ⟨t.root, u.root, hredex, hgrafts.exchanges hs, hgrafts.added ▸ hids⟩

theorem linked_negation : (Forest.insertAll ∅ Play.negation.nodes).Linked :=
  Forest.Linked.insertAll Play.grown_negation.nodup (fun _ _ => Forest.get?_empty _)
    Forest.linked_empty Play.grown_negation.joined ⟨rfl, rfl⟩

/-- The negation of a truth value is exchanged for the other one. -/
theorem step_exchanges_negating : ∃ s', (Play.negating.present.step .standard 9 1).runFrom 3 =
      (.ok (some s'), 4) ∧ s'.board = [3] ∧
    ∃ r n, Signature.standard.redex Play.negating.present.nodes 1 = .ok (some r.id) ∧
      Play.negating.present.Exchanges s' r n ∧ ∀ x : NodeId, x ∈ s'.added → 3 ≤ x ∧ x < 4 := by
  have hlt : ∀ (x : NodeId) n, Play.negating.present.nodes.get? x = some n → x < 3 := by
    intro x n hx
    rcases Forest.get?_insertAll_cases Play.grown_negation.nodup hx with ⟨v, hv, rfl, -⟩ | hx
    · exact Play.grown_negation.lt _ (Plant.mem_ids_iff.2 ⟨v, hv, rfl⟩)
    · rw [Forest.get?_empty] at hx
      cases hx
  cases h : (Play.negating.present.step .standard 9 1).runFrom 3 with
  | mk o next' =>
    have hrun : ((Play.negating.present.step .standard 9 1).runFrom 3).1.toOption.bind
        (Option.map State.board) = some [3] ∧
        ((Play.negating.present.step .standard 9 1).runFrom 3).2 = 4 := by
      decide +kernel
    rw [h] at hrun
    obtain ⟨ho, rfl⟩ := hrun
    obtain ⟨o', rfl, ho'⟩ : ∃ o', o = .ok o' ∧ o'.map State.board = some [3] := by
      cases o with
      | error e => cases ho
      | ok o' => exact ⟨o', rfl, ho⟩
    obtain ⟨s', rfl, hboard⟩ := Option.map_eq_some_iff.1 ho'
    exact ⟨s', rfl, hboard, step_exchanges linked_negation hlt .standard 9 1 h⟩

end State

end TermForest
