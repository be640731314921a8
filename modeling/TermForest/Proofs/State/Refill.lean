import TermForest.Proofs.Play

/-!
# Refilling holes

A term that is detached leaves a hole where it stood. Putting it into this hole undoes the detaching,
whatever the term is and wherever it stood: the state is the one before, but for what it says of the
last step.
-/

namespace TermForest

namespace Slots

/-- Of two children that are put into one slot the second stays. -/
theorem set_set (s : Slots) {name : String} (h : name ∈ s.names) (c d : NodeId) :
    (s.set name c).set name d = s.set name d := by
  refine ext_entries ?_
  rw [entries_set ((names_set h c).symm ▸ h), entries_set h, entries_set h, List.map_map]
  refine List.map_congr_left fun e _ => ?_
  by_cases he : e.1 = name <;> simp [he]

/-- Putting the child of a slot into it changes nothing. -/
theorem set_of_get? {s : Slots} {name : String} {c : NodeId} (h : s.get? name = some c) :
    s.set name c = s := by
  refine ext_entries ?_
  rw [entries_set (mem_names_iff.2 ⟨c, h⟩)]
  refine (List.map_congr_left fun e he => ?_).trans (List.map_id _)
  split
  · next hname =>
    subst hname
    rw [get?_eq_some_iff.2 he, Option.some.injEq] at h
    exact Prod.ext rfl h.symm
  · rfl

end Slots

/-! ### The place of a child -/

namespace Forest

variable {F : Forest} {n p : Node} {slot : String} {hole root x : NodeId}

/-- A hole stands in the slot of `p` that held `n`, and `n` is a root. -/
def vacate (F : Forest) (p : Node) (slot : String) (n : Node) (hole : NodeId) : Forest :=
  ((F.insert (Node.heldBy { id := hole, kind := .hole } p.id slot)).insert
    (p.withSlot slot hole)).insert n.detached

theorem get?_vacate (F : Forest) (p : Node) (slot : String) (n : Node) (hole y : NodeId) :
    (F.vacate p slot n hole).get? y =
      if y = n.id then some n.detached
      else if y = p.id then some (p.withSlot slot hole)
      else if y = hole then some (Node.heldBy { id := hole, kind := .hole } p.id slot)
      else F.get? y := by
  rw [vacate, get?_insert, get?_insert, get?_insert]
  simp only [Node.id_heldBy, Node.id_detached, Node.id_withSlot, eq_comm (b := y)]

/-- The child comes back into its slot, and the hole is dropped. -/
theorem refill_vacate (hn : F.get? n.id = some n) (hp : F.get? p.id = some p)
    (hparent : n.parent = some p.id) (hslot : n.parentSlot = some slot)
    (hget : p.slots.get? slot = some n.id) (hhole : F.get? hole = none) :
    (((F.vacate p slot n hole).erase hole).insert ((p.withSlot slot hole).withSlot slot n.id)).insert
      (n.detached.heldBy p.id slot) = F := by
  have hback : n.detached.heldBy p.id slot = n := by
    rw [Node.heldBy, ← hparent, ← hslot]
    rfl
  have hheld : (p.withSlot slot hole).withSlot slot n.id = p := by
    unfold Node.withSlot
    dsimp only
    rw [Slots.set_set _ (Slots.mem_names_iff.2 ⟨_, hget⟩), Slots.set_of_get? hget]
  rw [hback, hheld]
  refine Forest.ext fun y => ?_
  rw [get?_insert, get?_insert, get?_erase, get?_vacate]
  by_cases hyn : n.id = y
  · rw [if_pos hyn, ← hyn, hn]
  by_cases hyp : p.id = y
  · rw [if_neg hyn, if_pos hyp, ← hyp, hp]
  rw [if_neg hyn, if_neg hyp, if_neg (Ne.symm hyn), if_neg (Ne.symm hyp)]
  by_cases hy : hole = y
  · rw [if_pos hy, ← hy, hhole]
  · rw [if_neg hy, if_neg (Ne.symm hy)]

theorem get?_vacate_child (F : Forest) (p : Node) (slot : String) (n : Node) (hole : NodeId) :
    (F.vacate p slot n hole).get? n.id = some n.detached := by
  rw [get?_vacate, if_pos rfl]

theorem get?_vacate_holder (F : Forest) (slot : String) (hole : NodeId) (hne : p.id ≠ n.id) :
    (F.vacate p slot n hole).get? p.id = some (p.withSlot slot hole) := by
  rw [get?_vacate, if_neg hne, if_pos rfl]

section fresh

variable (hn : F.get? n.id = some n) (hp : F.get? p.id = some p) (hhole : F.get? hole = none)
include hn hp hhole

theorem get?_vacate_hole :
    (F.vacate p slot n hole).get? hole =
      some (Node.heldBy { id := hole, kind := .hole } p.id slot) := by
  have hne : ∀ {m : Node}, F.get? m.id = some m → hole ≠ m.id := fun hm e => by
    rw [← e, hhole] at hm
    cases hm
  rw [get?_vacate, if_neg (hne hn), if_neg (hne hp), if_pos rfl]

/-- The hole belongs to the tree that the child was taken from. -/
theorem Linked.rootOf_vacate (h : F.Linked) (hparent : n.parent = some p.id)
    (hroot : F.RootOf n.id root) : (F.vacate p slot n hole).RootOf hole root := by
  obtain ⟨r, hr⟩ := h.rooted p.id p hp
  obtain rfl := hroot.unique (hr.up hn hparent)
  -- the way up from the holder does not pass the child
  have hkept : (F.vacate p slot n hole).RootOf p.id root := by
    refine hr.of_parents fun y m hy hm => ?_
    have hyn : y ≠ n.id := by
      rintro rfl
      obtain ⟨j, hj⟩ := hy
      exact absurd (h.eq_zero_of_ascends_self (.up hn hparent hj)) (Nat.succ_ne_zero j)
    have hyh : y ≠ hole := fun e => by
      rw [e, hhole] at hm
      cases hm
    rw [get?_vacate, if_neg hyn, if_neg hyh]
    split
    · next hyp =>
      obtain rfl := Option.some.inj ((hyp ▸ hm).symm.trans hp)
      exact ⟨_, rfl, rfl⟩
    · exact ⟨m, hm, rfl⟩
  exact hkept.up (get?_vacate_hole hn hp hhole) rfl

end fresh

end Forest

/-! ### Both moves -/

namespace State

variable {s : State} {next : Nat} {n p : Node} {slot : String} {root : NodeId}

/-- A child on the board is taken out of its slot. -/
theorem detach_eq (hn : s.nodes.get? n.id = some n) (hp : s.nodes.get? p.id = some p)
    (hparent : n.parent = some p.id) (hslot : n.parentSlot = some slot)
    (hroot : s.nodes.RootOf n.id root) (hboard : root ∈ s.board) (next : Nat) :
    (s.detach n.id).runFrom next = (.ok (some { s with
      nodes := s.nodes.vacate p slot n next
      board := s.board ++ [n.id]
      added := [next]
      removed := [] }), next + 1) := by
  rw [detach, Supply.liftM_fault_ok (Forest.find_eq_ok_iff.2 hn), pure_bind,
    Supply.liftM_fault_ok hroot.rootOf_eq, pure_bind, if_neg (not_not.2 hboard), hparent, hslot]
  dsimp only
  rw [Supply.runFrom_bind, Supply.runFrom_take]
  dsimp only
  rw [Supply.liftM_fault_ok (Forest.find_eq_ok_iff.2 hp)]
  rfl

/-- A root is put into a hole that is held by a slot. -/
theorem moveToSlot_eq (S : Signature) (n hole p : Node) (hn : s.nodes.get? n.id = some n)
    (hmem : n.id ∈ s.board ∨ n.id ∈ s.toolbox) (hhole : s.nodes.get? hole.id = some hole)
    (hk : hole.kind = .hole) (hparent : hole.parent = some p.id)
    (hslot : hole.parentSlot = some slot) (hp : s.nodes.get? p.id = some p)
    (hroot : s.nodes.RootOf hole.id root) (hboard : root ∈ s.board) (hne : root ≠ n.id) :
    s.moveToSlot S n.id hole.id = .ok (some { s with
      nodes := ((s.nodes.erase hole.id).insert (p.withSlot slot n.id)).insert (n.heldBy p.id slot)
      board := s.board.filter (· ≠ n.id)
      toolbox := s.toolbox.filter (· ≠ n.id)
      added := []
      removed := [hole.id] }) := by
  have hplace : ¬(n.id ∉ s.board ∧ n.id ∉ s.toolbox) := by tauto
  rw [moveToSlot, if_neg hplace, liftM_eq_ok_iff.2 (Forest.find_eq_ok_iff.2 hhole), ok_bind,
    liftM_eq_ok_iff.2 hroot.rootOf_eq, ok_bind, if_neg (not_not.2 hboard), if_neg (not_not.2 hk),
    if_neg hne, hparent, hslot]
  dsimp only
  rw [liftM_eq_ok_iff.2 (Forest.find_eq_ok_iff.2 hp), ok_bind,
    liftM_eq_ok_iff.2 (Forest.find_eq_ok_iff.2 hn), ok_bind]
  rfl

/-- A detached child is put back into its slot. -/
theorem Kept.refill_eq (h : s.Kept next) (S : Signature) (hn : s.nodes.get? n.id = some n)
    (hp : s.nodes.get? p.id = some p) (hparent : n.parent = some p.id)
    (hslot : n.parentSlot = some slot) (hget : p.slots.get? slot = some n.id)
    (hroot : s.nodes.RootOf n.id root) (hboard : root ∈ s.board) :
    moveToSlot { s with
        nodes := s.nodes.vacate p slot n next
        board := s.board ++ [n.id]
        added := [next]
        removed := [] } S n.id next =
      .ok (some { s with added := [], removed := [next] }) := by
  have hfresh : s.nodes.get? next = none := Forest.Kept.get?_eq_none h (Nat.le_refl next)
  have hpn : p.id ≠ n.id := fun e =>
    absurd (h.linked.eq_zero_of_ascends_self (.up hn hparent (e ▸ .refl hp))) (Nat.succ_ne_zero 0)
  have hout : n.id ∉ s.roots := fun hmem => by
    obtain ⟨m, hm, hnone, -⟩ := h.exists_root hmem
    obtain rfl := Option.some.inj (hn.symm.trans hm)
    rw [hparent] at hnone
    cases hnone
  have hrn : root ≠ n.id := fun e => hout (e ▸ mem_roots_of_board hboard)
  rw [mem_roots_iff, not_or, not_or] at hout
  have hstay : ∀ {area : List NodeId}, n.id ∉ area → area.filter (· ≠ n.id) = area := fun hmem =>
    List.filter_eq_self.2 fun x hx => decide_eq_true fun e => hmem (e ▸ hx)
  have hback : (s.board ++ [n.id]).filter (· ≠ n.id) = s.board := by
    rw [List.filter_append, hstay hout.1]
    simp
  refine (moveToSlot_eq S n.detached (Node.heldBy { id := next, kind := .hole } p.id slot)
    (p.withSlot slot next) (Forest.get?_vacate_child ..)
    (.inl (List.mem_append_right _ List.mem_cons_self)) (Forest.get?_vacate_hole hn hp hfresh) rfl rfl
    rfl (Forest.get?_vacate_holder _ slot next hpn)
    (h.linked.rootOf_vacate hn hp hfresh hparent hroot) (List.mem_append_left _ hboard) hrn).trans ?_
  rw [Except.ok.injEq, Option.some.injEq, State.mk.injEq]
  exact ⟨Forest.refill_vacate hn hp hparent hslot hget hfresh, hback, hstay hout.2.1, rfl, rfl, rfl,
    rfl, rfl, rfl⟩

/-- In a well-formed state a term inside a board tree is detached and leaves a hole in its place. Put
into this hole, it comes back, and the state is the one before but for what was added and removed. -/
theorem WellFormed.refills (h : s.WellFormed next) (g : Game) (hn : s.nodes.get? n.id = some n)
    (hparent : n.parent ≠ none) (hroot : s.nodes.RootOf n.id root) (hboard : root ∈ s.board) :
    ∃ s' hole, (g.obey s (.detach n.id)).runFrom next = (.ok (some s'), next + 1) ∧
      s'.added = [hole.id] ∧ s'.nodes.get? hole.id = some hole ∧ hole.kind = .hole ∧
      hole.parent = n.parent ∧ hole.parentSlot = n.parentSlot ∧
      (g.obey s' (.moveToSlot n.id hole.id)).runFrom (next + 1) =
        (.ok (some { s with added := [], removed := [hole.id] }), next + 1) := by
  have hkept := h.kept
  obtain ⟨q, hparent⟩ := Option.ne_none_iff_exists'.1 hparent
  obtain ⟨slot, p, hslot, hp, hget⟩ := hkept.linked.exists_holder hn hparent
  obtain rfl := Forest.id_of_get? hp
  have hfresh : s.nodes.get? next = none := Forest.Kept.get?_eq_none hkept (Nat.le_refl next)
  have hrefill := hkept.refill_eq g.signature hn hp hparent hslot hget hroot hboard
  exact ⟨_, Node.heldBy { id := next, kind := .hole } p.id slot,
    detach_eq hn hp hparent hslot hroot hboard next, rfl, Forest.get?_vacate_hole hn hp hfresh, rfl,
    hparent.symm, hslot.symm, congrArg (Supply.runFrom · (next + 1)) (Supply.liftM_ok hrefill)⟩

/-- The truth value that a negation holds is detached and put back. -/
theorem refills_negating : Play.negating.present.WellFormed 3 ∧
    ∃ s' hole, ((⟨⟨[]⟩, {}, .standard⟩ : Game).obey Play.negating.present (.detach 2)).runFrom 3 =
        (.ok (some s'), 4) ∧
      s'.added = [hole.id] ∧ s'.nodes.get? hole.id = some hole ∧ hole.kind = .hole ∧
      hole.parent = some 1 ∧ hole.parentSlot = some "value" ∧
      ((⟨⟨[]⟩, {}, .standard⟩ : Game).obey s' (.moveToSlot 2 hole.id)).runFrom 4 =
        (.ok (some { Play.negating.present with added := [], removed := [hole.id] }), 4) := by
  have hstart : Play.negating.present.WellFormed 3 :=
    State.Kept.wellFormed Play.kept_negation (by decide)
  have hroot : Play.negating.present.nodes.RootOf 2 1 :=
    (Forest.holds_insertAll Play.grown_negation.joined Play.grown_negation.nodup).rootOf
      Play.grown_negation.joined ⟨rfl, rfl⟩ (by decide)
  exact ⟨hstart, WellFormed.refills (n := Node.heldBy
    (Node.withField { id := 2, kind := .boolean } "value" (.bool true)) 1 "value") hstart
    ⟨⟨[]⟩, {}, .standard⟩ (by rfl) nofun hroot (by decide)⟩

end State

end TermForest
