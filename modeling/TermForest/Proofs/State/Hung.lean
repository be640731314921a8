import TermForest.Proofs.State.Graft
import TermForest.Proofs.State.Inversion
import TermForest.Proofs.State.Move

/-!
# Moves keep states hung

The forest of a state that can be reached is hung and plain, and its areas list roots, whatever the
level file said about parameters. The ids that a move says it added are those of the nodes that are new after it,
and the ids that it says it removed are those of the nodes that are gone, apart from the move of a
definition, which does not say what it removed.
-/

namespace TermForest

open Supply (Meets)

namespace Forest

variable {F G : Forest} {next next' : Nat} {p n hole : Node} {slot : String}

/-- `ids` lists, each once, the ids that `G` has and `F` lacks. -/
structure Lacks (F G : Forest) (ids : List NodeId) : Prop where
  nodup : ids.Nodup
  mem_iff : ∀ x, x ∈ ids ↔ G.has x = true ∧ F.has x = false

theorem lacks_self (F : Forest) : F.Lacks F [] := ⟨.nil, by simp⟩

theorem has_of_get? {x : NodeId} {n : Node} (h : F.get? x = some n) : F.has x = true := by
  rw [has_eq_isSome, h]
  rfl

theorem has_insert (F : Forest) (n : Node) (x : NodeId) :
    (F.insert n).has x = true ↔ x = n.id ∨ F.has x = true := by
  rw [has_eq_isSome, has_eq_isSome, get?_insert]
  by_cases h : n.id = x
  · simp [h]
  · simp [h, Ne.symm h]

theorem has_erase (F : Forest) (x y : NodeId) :
    (F.erase x).has y = true ↔ y ≠ x ∧ F.has y = true := by
  rw [has_eq_isSome, has_eq_isSome, get?_erase]
  by_cases h : x = y
  · simp [h]
  · simp [h, Ne.symm h]

/-- What comes in and what goes is what the forests lack of each other. -/
theorem lacks_of_has_iff {new gone : List NodeId} (hnew : new.Nodup) (hgone : gone.Nodup)
    (hfresh : ∀ x ∈ new, F.get? x = none) (hthere : ∀ x ∈ gone, F.has x = true)
    (h : ∀ x, G.has x = true ↔ F.has x = true ∧ x ∉ gone ∨ x ∈ new) :
    F.Lacks G new ∧ G.Lacks F gone := by
  have hnot : ∀ x ∈ new, F.has x = false := fun x hx => by
    rw [has_eq_isSome, hfresh x hx]
    rfl
  refine ⟨⟨hnew, fun x => ?_⟩, hgone, fun x => ?_⟩ <;> grind

/-! ### Single moves -/

/-- A node may hold in a slot a node that names it and the slot. -/
theorem Hung.withSlot (h : F.Hung next) (hp : F.get? p.id = some p) {c : NodeId} {m : Node}
    (hc : F.get? c = some m) (hparent : m.parent = some p.id) (hslot : m.parentSlot = some slot) :
    (F.insert (p.withSlot slot c)).Hung next := by
  refine h.insert (h.lt _ p hp) (h.parent_lt _ p hp) (fun k hk => ?_) fun s d hd => ?_
  · obtain rfl := Option.some.inj (hp.symm.trans hk)
    exact .inr ⟨rfl, rfl⟩
  · have hnamed : ∃ k, F.get? d = some k ∧ k.parent = some p.id ∧ k.parentSlot = some s := by
      change (p.slots.set slot c).get? s = some d at hd
      rw [Slots.get?_set] at hd
      split at hd
      · next e =>
        cases hd
        exact ⟨m, hc, hparent, e ▸ hslot⟩
      · exact h.held _ p s d hp hd
    obtain ⟨k, hk, hkp, hks⟩ := hnamed
    rw [get?_insert]
    split
    · next e =>
      obtain rfl := Option.some.inj (hp.symm.trans (e ▸ hk :))
      exact ⟨_, rfl, hkp, hks⟩
    · exact ⟨k, hk, hkp, hks⟩

/-- A node that its parent does not hold in the slot it names is held by none. -/
theorem Hung.not_held (h : F.Hung next) (hn : F.get? n.id = some n) (hp : F.get? p.id = some p)
    (hparent : n.parent = some p.id) (hslot : n.parentSlot = some slot)
    (hc : p.slots.get? slot ≠ some n.id) {x : NodeId} {m : Node} {s : String}
    (hx : F.get? x = some m) : m.slots.get? s ≠ some n.id := by
  intro hs
  obtain ⟨k, hk, hkp, hks⟩ := h.held x m s _ hx hs
  obtain rfl := Option.some.inj (hn.symm.trans hk)
  obtain rfl := Option.some.inj (hparent.symm.trans hkp)
  obtain rfl := Option.some.inj (hslot.symm.trans hks)
  obtain rfl := Option.some.inj (hp.symm.trans hx)
  exact hc hs

/-- A child is taken out of its slot, and a new hole comes there. -/
theorem Hung.detach (h : F.Hung next) (hn : F.get? n.id = some n) (hp : F.get? p.id = some p)
    (hparent : n.parent = some p.id) (hslot : n.parentSlot = some slot) (hne : p.id ≠ n.id) :
    (((F.insert (Node.heldBy { id := next, kind := .hole } p.id slot)).insert
      (p.withSlot slot next)).insert n.detached).Hung (next + 1) := by
  have hnlt := h.lt _ n hn
  have hplt := h.lt _ p hp
  have hA : (F.insert (Node.heldBy { id := next, kind := .hole } p.id slot)).Hung (next + 1) := by
    refine (h.mono (Nat.le_succ next)).insert (Nat.lt_succ_self next) (fun q hq => ?_) (fun m hm => ?_)
      fun s c hc => nomatch hc
    · cases hq
      exact Nat.lt_succ_of_lt hplt
    · cases (h.get?_eq_none (Nat.le_refl next)).symm.trans hm
  have hAold : ∀ {x : Nat} {m : Node}, F.get? x = some m →
      (F.insert (Node.heldBy { id := next, kind := .hole } p.id slot)).get? x = some m :=
    fun hx => (get?_insert_of_ne (Nat.ne_of_lt (h.lt _ _ hx))).trans hx
  have hB := hA.withSlot (hAold hp) (get?_insert_self F _) rfl rfl
  set B := (F.insert (Node.heldBy { id := next, kind := .hole } p.id slot)).insert
    (p.withSlot slot next)
  have hBn : B.get? n.id = some n :=
    (get?_insert_of_ne (n := p.withSlot slot next) hne.symm).trans (hAold hn)
  have hslot' : (p.withSlot slot next).slots.get? slot ≠ some n.id := by
    simpa [Node.withSlot] using Nat.ne_of_gt hnlt
  refine hB.insert_of_holder (Nat.lt_succ_of_lt hnlt) (by rintro _ ⟨⟩) (fun x m s _ hx hc => ?_)
    fun s c hc => ?_
  · exact absurd hc (hB.not_held hBn (get?_insert_self _ (p.withSlot slot next)) hparent hslot
      hslot' hx)
  · obtain ⟨m, hm, hmp, hms⟩ := hB.held _ n s c hBn hc
    by_cases hcn : c = n.id
    · obtain rfl := Option.some.inj (hBn.symm.trans (hcn ▸ hm))
      exact absurd (Option.some.inj (hparent.symm.trans hmp)) hne
    · exact ⟨m, (get?_insert_of_ne (n := n.detached) hcn).trans hm, hmp, hms⟩

/-- A root comes into the slot of a hole, which is dropped. -/
theorem Hung.fill (h : F.Hung next) (hhole : F.get? hole.id = some hole)
    (hn : F.get? n.id = some n) (hp : F.get? p.id = some p) (hparent : hole.parent = some p.id)
    (hslot : hole.parentSlot = some slot) (hroot : n.parent = none) (hpn : p.id ≠ n.id)
    (hph : p.id ≠ hole.id) :
    (((F.erase hole.id).insert (p.withSlot slot n.id)).insert (n.heldBy p.id slot)).Hung next := by
  have hnh : n.id ≠ hole.id := fun e => by
    obtain rfl := Option.some.inj (hn.symm.trans (e ▸ hhole))
    cases hroot.symm.trans hparent
  have hA := h.heldBy slot hn (h.lt _ p hp) (.inl hroot)
  have hAp : (F.insert (n.heldBy p.id slot)).get? p.id = some p :=
    (get?_insert_of_ne (n := n.heldBy p.id slot) hpn).trans hp
  have hB := hA.withSlot hAp (get?_insert_self F (n.heldBy p.id slot)) rfl rfl
  have hBhole : ((F.insert (n.heldBy p.id slot)).insert (p.withSlot slot n.id)).get? hole.id =
      some hole :=
    (get?_insert_of_ne (n := p.withSlot slot n.id) hph.symm).trans
      ((get?_insert_of_ne (n := n.heldBy p.id slot) hnh.symm).trans hhole)
  have hslot' : (p.withSlot slot n.id).slots.get? slot ≠ some hole.id := by
    simpa [Node.withSlot] using hnh
  have heq : ((F.erase hole.id).insert (p.withSlot slot n.id)).insert (n.heldBy p.id slot) =
      ((F.insert (n.heldBy p.id slot)).insert (p.withSlot slot n.id)).erase hole.id := by
    refine Forest.ext fun y => ?_
    simp only [get?_insert, get?_erase, Node.id_heldBy, Node.id_withSlot]
    by_cases hy : hole.id = y
    · simp [hy, show p.id ≠ y from hy ▸ hph, show n.id ≠ y from hy ▸ hnh]
    · by_cases hny : n.id = y
      · simp [hy, hny, show p.id ≠ y from hny ▸ hpn]
      · simp [hy, hny]
  rw [heq]
  exact hB.erase fun y m s hy => hB.not_held hBhole (get?_insert_self _ (p.withSlot slot n.id))
    hparent hslot hslot' hy

/-- Taking a child out of its slot leaves a forest plain. -/
theorem Plain.detach (h : F.Plain) (hn : F.get? n.id = some n) (hp : F.get? p.id = some p)
    (hparent : n.parent = some p.id) (hne : p.id ≠ n.id) (hnext : n.id ≠ next) :
    (((F.insert (Node.heldBy { id := next, kind := .hole } p.id slot)).insert
      (p.withSlot slot next)).insert n.detached).Plain := by
  have hlit : ¬p.kind.IsLiteral := h.parents _ n _ p hn hparent hp
  have hA : (F.insert (Node.heldBy { id := next, kind := .hole } p.id slot)).Plain := by
    refine h.insert_other (by decide : ¬Kind.hole.IsLiteral) nofun fun q m hq hm => ?_
    cases hq
    exact Option.some.inj (hp.symm.trans hm) ▸ hlit
  have hB := hA.insert_other (n := p.withSlot slot next) hlit (h.parentSlots _ p hp) fun q m hq hm => by
    rw [get?_insert] at hm
    split at hm
    · cases hm
      exact (by decide : ¬Kind.hole.IsLiteral)
    · exact h.parents _ p q m hp hq hm
  refine hB.insert_same (n := n.detached) (m := n) ?_ rfl ((h.nodes _ n hn).congr rfl rfl rfl)
    (fun _ => rfl) nofun
  exact (get?_insert_of_ne (n := p.withSlot slot next) hne.symm).trans
    ((get?_insert_of_ne hnext).trans hn)

/-- Putting a root into the slot of a hole leaves a forest plain. -/
theorem Plain.fill (h : F.Plain) (hhole : F.get? hole.id = some hole)
    (hn : F.get? n.id = some n) (hp : F.get? p.id = some p) (hparent : hole.parent = some p.id)
    (hpn : p.id ≠ n.id) (hnh : n.id ≠ hole.id) :
    (((F.erase hole.id).insert (p.withSlot slot n.id)).insert (n.heldBy p.id slot)).Plain := by
  have hlit : ¬p.kind.IsLiteral := h.parents _ hole _ p hhole hparent hp
  have hB := (h.erase hole.id).insert_other (n := p.withSlot slot n.id) hlit (h.parentSlots _ p hp)
    fun q m hq hm => by
      rw [get?_erase] at hm
      split at hm
      · cases hm
      · exact h.parents _ p q m hp hq hm
  refine hB.heldBy slot (x := n.id) (n := n) ?_ fun m hm => ?_
  · rw [get?_insert_of_ne (n := p.withSlot slot n.id) hpn.symm, get?_erase, if_neg hnh.symm]
    exact hn
  · obtain rfl := Option.some.inj ((get?_insert_self _ (p.withSlot slot n.id)).symm.trans hm)
    exact hlit

end Forest

namespace State

/-- The forest is hung and plain, and the areas list ids that were handed out, each once, and no node
that has a parent. -/
structure Hung (next : Nat) (s : State) : Prop where
  nodes : s.nodes.Hung next
  lt : ∀ r : Nat, r ∈ s.roots → r < next
  isRoot : ∀ r ∈ s.roots, ∀ n, s.nodes.get? r = some n → n.parent = none
  nodup : s.roots.Nodup
  plain : s.nodes.Plain

/-- What `s'` says that was added and removed is what was added to `s` and removed from it. -/
structure Reports (s s' : State) : Prop where
  added : s.nodes.Lacks s'.nodes s'.added
  removed : s'.nodes.Lacks s.nodes s'.removed

/-- The definition that one which is moved takes the place of. -/
def replaced? (s : State) (id : NodeId) : Option Node :=
  ((s.nodes.get? id).bind Node.name?).bind s.definition?

/-- The definition at `id` is moved. What `s'` says that was added is what was added to `s`, but of
what was removed, the definition and the one it takes the place of, it says nothing. -/
structure Redefines (s : State) (id : NodeId) (s' : State) : Prop where
  added : s.nodes.Lacks s'.nodes s'.added
  removed : s'.removed = []
  dropped : ∃ ids ids', s.nodes.idsUnder id = .ok ids ∧
    (match s.replaced? id with
      | some old => s.nodes.idsUnder old.id
      | none => .ok []) = .ok ids' ∧
    s'.nodes.Lacks s.nodes (ids ++ ids')

variable {s s' : State} {lo next next' : Nat}

theorem Reports.of_nodes (hs : s'.nodes = s.nodes) (ha : s'.added = []) (hr : s'.removed = []) :
    s.Reports s' := by
  constructor <;> simp only [hs, ha, hr] <;> exact Forest.lacks_self _

theorem Grafts.reports {t u : Plant} (h : s.Grafts t u s') : s.Reports s' := by
  have hthere : ∀ x ∈ s'.removed, s.nodes.has x = true := fun x hx => by
    rw [h.removed] at hx
    obtain ⟨n, hn, rfl⟩ := Plant.mem_ids_iff_nodes.1 hx
    exact Forest.has_of_get? (h.old.get?_of_mem_nodes hn)
  obtain ⟨hadded, hremoved⟩ := Forest.lacks_of_has_iff (h.added ▸ h.nodup_new)
    (h.removed ▸ h.nodup_old) (h.added ▸ h.fresh) hthere h.has_iff
  exact ⟨hadded, hremoved⟩

namespace Hung

theorem mono (h : s.Hung next) (hn : next ≤ next') : s.Hung next' :=
  ⟨h.nodes.mono hn, fun r hr => Nat.lt_of_lt_of_le (h.lt r hr) hn, h.isRoot, h.nodup,
    h.plain⟩

/-- Fewer roots of the same forest. -/
theorem relist (h : s.Hung next) (hs : s'.nodes = s.nodes) (hr : s'.roots ⊆ s.roots)
    (hn : s'.roots.Nodup) : s'.Hung next :=
  ⟨hs ▸ h.nodes, fun r hr' => h.lt r (hr hr'), fun r hr' n hn => h.isRoot r (hr hr') n (hs ▸ hn), hn,
    hs ▸ h.plain⟩

/-- A hung and plain forest whose roots are new roots or keep their parents. -/
theorem change (h : s.Hung next) (hle : next ≤ next') (hF : s'.nodes.Hung next')
    (hplain : s'.nodes.Plain)
    (hr : ∀ r ∈ s'.roots, s'.nodes.IsRoot r ∨ r ∈ s.roots ∧ ∀ n, s'.nodes.get? r = some n →
      ∃ m, s.nodes.get? r = some m ∧ n.parent = m.parent)
    (hn : s'.roots.Nodup) : s'.Hung next' where
  nodes := hF
  lt r hmem := by
    rcases hr r hmem with ⟨n, hget, -⟩ | ⟨hold, -⟩
    · exact hF.lt r n hget
    · exact Nat.lt_of_lt_of_le (h.lt r hold) hle
  isRoot r hmem n hget := by
    rcases hr r hmem with ⟨m, hm, hp⟩ | ⟨hold, hsame⟩
    · exact Option.some.inj (hm.symm.trans hget) ▸ hp
    · obtain ⟨m, hm, hp⟩ := hsame n hget
      exact hp.trans (h.isRoot r hold m hm)
  nodup := hn
  plain := hplain

theorem nodup_areas (h : s.Hung next) :
    (s.board.Nodup ∧ s.toolbox.Nodup ∧ s.defs.Nodup ∧ s.goal.Nodup) ∧
    (∀ x ∈ s.board, x ∉ s.toolbox ∧ x ∉ s.defs ∧ x ∉ s.goal) ∧
    (∀ x ∈ s.toolbox, x ∉ s.defs ∧ x ∉ s.goal) ∧ ∀ x ∈ s.defs, x ∉ s.goal :=
  Kept.nodup_roots_iff.1 h.nodup

/-! ### Steps -/

theorem graft (h : s.Hung lo) {t u : Plant} (hg : s.Grafts t u s') (hle : lo ≤ next)
    (hu : ∀ x : Nat, x ∈ u.ids → lo ≤ x ∧ x < next) (hplain : s'.nodes.Plain) : s'.Hung next := by
  obtain ⟨htoolbox, hdefs, hgoal, -, -⟩ := hg.rest
  have hout : u.id ∉ s.roots := fun hmem =>
    absurd (h.lt _ hmem) (Nat.not_lt.2 (hu _ u.id_mem_ids).1)
  have hareas := h.nodup_areas
  have hold : ∀ r ∈ s.roots, ∀ n, s'.nodes.get? r = some n →
      ∃ m, s.nodes.get? r = some m ∧ n.parent = m.parent := by
    intro r hr n hn
    rcases hg.get?_cases hn with ⟨v, hv, rfl, -⟩ | ⟨m, -, hm, ⟨-, rfl⟩ | ⟨slot, -, -, rfl⟩⟩
    · exact absurd (h.lt _ hr) (Nat.not_lt.2 (hu _ (Plant.mem_ids_iff.2 ⟨v, hv, rfl⟩)).1)
    · exact ⟨n, hm, rfl⟩
    · exact ⟨m, hm, rfl⟩
  have hmem : ∀ x, x ∈ s'.board → x = u.id ∧ t.root.parent = none ∨ x ∈ s.board := by
    intro x hx
    rw [hg.board] at hx
    split at hx
    · next hp =>
      obtain ⟨y, hy, rfl⟩ := List.mem_map.1 hx
      split
      · exact .inl ⟨rfl, hp⟩
      · exact .inr hy
    · exact .inr hx
  have hboard : s'.board.Nodup := by
    rw [hg.board]
    split
    · exact nodup_map_replace hareas.1.1 fun hx => hout (Kept.mem_roots_of_board hx)
    · exact hareas.1.1
  rw [Kept.mem_roots_iff] at hout
  refine h.change hle (hg.hung h.nodes hle fun x hx => (hu x hx).2) hplain (fun r hr => ?_) ?_
  · rw [Kept.mem_roots_iff, htoolbox, hdefs, hgoal] at hr
    by_cases hru : r = u.id ∧ t.root.parent = none
    · exact .inl (hru.1 ▸ ⟨u.root, hg.new.get?_id, hg.parent.trans hru.2⟩)
    · have hr' : r ∈ s.roots := Kept.mem_roots_iff.2 (hr.imp (fun hx => (hmem r hx).resolve_left hru) id)
      exact .inr ⟨hr', hold r hr'⟩
  · show (s'.board ++ s'.toolbox ++ s'.defs ++ s'.goal).Nodup
    rw [htoolbox, hdefs, hgoal, Kept.nodup_roots_iff]
    grind

/-- A step keeps a state hung and reports what it changed. -/
theorem meets_step (h : s.Hung next) (S : Signature) (most : Int64) (target : NodeId) :
    (s.step S most target).Meets next
      (fun o next' => ∀ s', o = some s' → s'.Hung next' ∧ s.Reports s') fun _ => True := by
  refine ((grafts_step h.nodes S most target).and (plain_step h.nodes h.plain S most target)).imp
    (fun o next' hle ho s' hs' => ?_) fun _ _ => trivial
  obtain ⟨t, u, -, hg, hids⟩ := ho.1 s' hs'
  exact ⟨h.graft hg hle hids (ho.2 s' hs'), hg.reports⟩

/-- The second phase of a step that was begun earlier keeps its base hung. -/
theorem meets_complete (h : s.Hung lo) (S : Signature) {p : Plan} {hi : Nat}
    (hp : p.AddsRoot s.nodes lo hi) (hlo : lo ≤ hi) (hhi : hi ≤ next) :
    (s.complete S p).Meets next
      (fun o next' => ∀ s', o = some s' → s'.Hung next' ∧ s.Reports s') fun _ => True := by
  refine ((grafts_complete h.nodes S hp hlo hhi).and
    (plain_complete h.nodes h.plain S hp hlo hhi)).imp (fun o next' hle ho s' hs' => ?_)
    fun _ _ => trivial
  obtain ⟨t, u, -, hg, hids⟩ := ho.1 s' hs'
  exact ⟨h.graft hg (by lia) hids (ho.2 s' hs'), hg.reports⟩

/-! ### Detaching -/

theorem meets_detach (h : s.Hung next) (id : NodeId) :
    (s.detach id).Meets next
      (fun o next' => ∀ s', o = some s' → s'.Hung next' ∧ s.Reports s') fun _ => True := by
  refine (s.meets_detaches id next).imp (fun o _ _ ho s' hs' => ?_) fun _ _ => trivial
  obtain ⟨rfl, n, p, slot, root, rfl, hn, hp, hparent, hslot, hinside, -, rfl⟩ := ho s' hs'
  have hne : p.id ≠ n.id := fun e => hinside.parent_ne hn (e ▸ hparent)
  have hout : n.id ∉ s.roots := fun hmem => by
    cases (h.isRoot _ hmem n hn).symm.trans hparent
  have hparents : ∀ r m, r ≠ n.id → r < next → (((s.nodes.insert (Node.heldBy
      { id := next, kind := .hole } p.id slot)).insert (p.withSlot slot next)).insert
      n.detached).get? r = some m → ∃ k, s.nodes.get? r = some k ∧ m.parent = k.parent := by
    intro r m hrn hrnext hm
    rw [Forest.get?_insert_of_ne (n := n.detached) hrn, Forest.get?_insert] at hm
    split at hm
    · next e =>
      cases hm
      exact ⟨p, e ▸ hp, rfl⟩
    · rw [Forest.get?_insert_of_ne (Nat.ne_of_lt hrnext)] at hm
      exact ⟨m, hm, rfl⟩
  have hhas : ∀ x, (((s.nodes.insert (Node.heldBy { id := next, kind := .hole } p.id
      slot)).insert (p.withSlot slot next)).insert n.detached).has x = true ↔
      s.nodes.has x = true ∧ x ∉ [] ∨ x ∈ [next] := by
    intro x
    simp only [Forest.has_insert, Node.id_heldBy, Node.id_detached, Node.id_withSlot]
    have := Forest.has_of_get? hn
    have := Forest.has_of_get? hp
    grind
  obtain ⟨hadded, hremoved⟩ := Forest.lacks_of_has_iff (List.nodup_singleton next) .nil
    (by simpa using h.nodes.get?_eq_none (Nat.le_refl next)) (List.forall_mem_nil _) hhas
  refine ⟨h.change (Nat.le_succ next) (h.nodes.detach hn hp hparent hslot hne)
    (h.plain.detach hn hp hparent hne (Nat.ne_of_lt (h.nodes.lt _ n hn))) (fun r hr => ?_) ?_,
    hadded, hremoved⟩
  · have hr' : r = n.id ∨ r ∈ s.roots := by
      simp only [roots, List.mem_append, List.mem_singleton] at hr ⊢
      tauto
    rcases hr' with rfl | hr'
    · exact .inl ⟨n.detached, Forest.get?_insert_self _ n.detached, rfl⟩
    · exact .inr ⟨hr', fun m => hparents r m (fun e => hout (e ▸ hr')) (h.lt r hr')⟩
  · have hareas := h.nodup_areas
    rw [Kept.mem_roots_iff] at hout
    show (s.board ++ [n.id] ++ s.toolbox ++ s.defs ++ s.goal).Nodup
    rw [Kept.nodup_roots_iff]
    grind

/-! ### Taking a root to the board -/

theorem ends_moveToBoard (h : s.Hung next) (id : NodeId) :
    Ends (s.moveToBoard id) (fun o => ∀ s', o = some s' → s'.Hung next ∧ s.Reports s')
      fun _ => True := by
  refine (s.ends_moveToBoard id).imp (fun o ho s' hs' => ?_) fun _ _ => trivial
  obtain ⟨hboard, htoolbox, rfl⟩ := ho s' hs'
  have := h.nodup_areas
  refine ⟨h.relist rfl (fun x hx => ?_) ?_, .of_nodes rfl rfl rfl⟩
  · simp only [roots, settled, List.mem_append, List.mem_singleton, List.mem_filter,
      decide_eq_true_eq] at hx ⊢
    grind
  · show (s.board ++ [id] ++ s.toolbox.filter (· ≠ id) ++ s.defs ++ s.goal).Nodup
    rw [Kept.nodup_roots_iff]
    grind

/-! ### Filling a hole -/

theorem ends_moveToSlot (h : s.Hung next) (S : Signature) (id hole : NodeId) :
    Ends (s.moveToSlot S id hole) (fun o => ∀ s', o = some s' → s'.Hung next ∧ s.Reports s')
      fun _ => True := by
  refine (s.ends_fills S id hole).imp (fun o ho s' hs' => ?_) fun _ _ => trivial
  obtain ⟨n, m, p, slot, root, rfl, rfl, hmem, hn, hm, -, hp, hparent, hslot, hinside, -, hne, rfl⟩ :=
    ho s' hs'
  have hnone : n.parent = none := h.isRoot n.id (Kept.mem_roots_iff.2 (by tauto)) n hn
  have hpn : p.id ≠ n.id := fun e => by
    have hself : s.nodes.RootOf n.id n.id := ⟨⟨n, hn, hnone⟩, 0, .refl hn⟩
    exact hne ((e ▸ hinside.of_parent hm hparent).unique hself)
  have hpm : p.id ≠ m.id := fun e => hinside.parent_ne hm (e ▸ hparent)
  have hnm : n.id ≠ m.id := fun e => by
    obtain rfl := Option.some.inj (hn.symm.trans (e ▸ hm))
    cases hnone.symm.trans hparent
  have hhas : ∀ x, (((s.nodes.erase m.id).insert (p.withSlot slot n.id)).insert
      (n.heldBy p.id slot)).has x = true ↔ s.nodes.has x = true ∧ x ∉ [m.id] ∨ x ∈ [] := by
    intro x
    simp only [Forest.has_insert, Forest.has_erase, Node.id_heldBy, Node.id_withSlot]
    have := Forest.has_of_get? hn
    have := Forest.has_of_get? hp
    grind
  obtain ⟨hadded, hremoved⟩ := Forest.lacks_of_has_iff .nil (List.nodup_singleton m.id) nofun
    (by simpa using Forest.has_of_get? hm) hhas
  have hareas := h.nodup_areas
  refine ⟨h.change (Nat.le_refl next)
    (h.nodes.fill hm hn hp hparent hslot hnone hpn hpm) (h.plain.fill hm hn hp hparent hpn hnm)
    (fun r hr => .inr ?_) ?_, hadded, hremoved⟩
  · have hr' : r ∈ s.roots ∧ r ≠ n.id := by
      simp only [roots, List.mem_append, List.mem_filter, decide_eq_true_eq] at hr ⊢
      grind
    refine ⟨hr'.1, fun k hget => ?_⟩
    change (((s.nodes.erase m.id).insert (p.withSlot slot n.id)).insert
      (n.heldBy p.id slot)).get? r = some k at hget
    rw [Forest.get?_insert_of_ne (n := n.heldBy p.id slot) hr'.2, Forest.get?_insert] at hget
    split at hget
    · next e =>
      cases hget
      exact ⟨p, e ▸ hp, rfl⟩
    · rw [Forest.get?_erase] at hget
      split at hget
      · cases hget
      · exact ⟨k, hget, rfl⟩
  · show (s.board.filter (· ≠ n.id) ++ s.toolbox.filter (· ≠ n.id) ++ s.defs ++ s.goal).Nodup
    rw [Kept.nodup_roots_iff]
    grind

/-! ### Dropping trees -/

/-- What is uprooted is a plant of the state. -/
theorem exists_of_uproot (h : s.Hung lo) {r : NodeId} (hr : r ∈ s.roots) {G H : Forest}
    (hG : G.Hung next)
    (hold : ∀ (x : Nat) n, x < lo → G.get? x = some n → s.nodes.get? x = some n)
    (hok : uproot G s.nodes r = .ok H) :
    ∃ t : Plant, t.id = r ∧ s.nodes.Holds t ∧ t.root.parent = none ∧ H = G.eraseAll t.ids ∧
      H.Hung next ∧ ∀ (x : Nat) n, x < lo → H.get? x = some n → s.nodes.get? x = some n := by
  obtain ⟨_, hids, hok⟩ := bind_eq_ok_iff.1 hok
  obtain ⟨t, rfl, ht, rfl⟩ := Forest.exists_plant_of_idsUnder hids
  cases hok
  have hroot := h.isRoot _ hr _ ht.get?_id
  refine ⟨t, rfl, ht, hroot, rfl, hG.eraseAll h.nodes ht hroot fun x hx n hn => ?_,
    fun x n hx hn => hold x n hx (Forest.get?_eraseAll_eq_some_iff.1 hn).2⟩
  obtain ⟨m, hm, rfl⟩ := Plant.mem_ids_iff_nodes.1 hx
  exact hold _ n (h.nodes.lt _ m (ht.get?_of_mem_nodes hm)) hn

/-- What a copy and trees that are dropped for it come to. -/
theorem lacks_redefined {F : Forest} {t u : Plant} {locked : Bool} (hu : t.CloneOf locked next next' u)
    (hfresh : ∀ x ∈ u.ids, F.get? x = none) {gone added : List NodeId} (hgone : gone.Nodup)
    (hthere : ∀ x ∈ gone, F.has x = true)
    (hadded : ((F.insertAll u.nodes).eraseAll gone).idsUnder u.id = .ok added) :
    F.Lacks ((F.insertAll u.nodes).eraseAll gone) added ∧
      ((F.insertAll u.nodes).eraseAll gone).Lacks F gone := by
  have hout : ∀ x ∈ u.ids, x ∉ gone := fun x hxu hx => by
    have := hthere x hx
    rw [Forest.has_eq_isSome, hfresh x hxu] at this
    cases this
  have hheld : ((F.insertAll u.nodes).eraseAll gone).Holds u :=
    (Forest.holds_insertAll hu.joined hu.nodup).congr fun x hx => by
      rw [Forest.get?_eraseAll, if_neg (hout x hx)]
  obtain ⟨v, hv, hheld', rfl⟩ := Forest.exists_plant_of_idsUnder hadded
  obtain rfl := hheld.unique hheld' hv.symm
  refine Forest.lacks_of_has_iff hu.nodup hgone hfresh hthere fun x => ?_
  rw [Forest.has_eq_isSome, Forest.has_eq_isSome, Forest.get?_eraseAll]
  by_cases hxu : x ∈ u.ids
  · obtain ⟨v, hv, rfl⟩ := Plant.mem_ids_iff.1 hxu
    simp [hout _ hxu, hxu, Forest.get?_insertAll_nodes hu.nodup hv]
  · rw [Forest.get?_insertAll_of_notMem (by rwa [Plant.map_id_nodes])]
    by_cases hx : x ∈ gone <;> simp [hx, hxu]

/-- A hung and plain forest that has one root more and keeps the nodes that were there. -/
theorem change_of_new {a : NodeId} (h : s.Hung next) (hle : next ≤ next')
    (hF : s'.nodes.Hung next') (hplain : s'.nodes.Plain) (ha : s'.nodes.IsRoot a)
    (hold : ∀ (x : Nat) n, x < next → s'.nodes.get? x = some n → s.nodes.get? x = some n)
    (hr : ∀ r ∈ s'.roots, r = a ∨ r ∈ s.roots) (hn : s'.roots.Nodup) : s'.Hung next' := by
  apply h.change hle hF hplain _ hn
  intro r hmem
  rcases hr r hmem with rfl | hr
  · exact .inl ha
  · exact .inr ⟨hr, fun k hk => ⟨k, hold r k (h.lt r hr) hk, rfl⟩⟩

/-- A new definition stands behind the others. -/
theorem of_defs_append {B : Forest} {a r : NodeId} {added : List NodeId} (h : s.Hung next)
    (hle : next ≤ next') (hB : B.Hung next') (hplain : B.Plain) (ha : B.IsRoot a)
    (hout : a ∉ s.roots)
    (hold : ∀ (x : Nat) n, x < next → B.get? x = some n → s.nodes.get? x = some n) :
    State.Hung next' { s with
      nodes := B
      board := s.board.filter (· ≠ r)
      defs := s.defs ++ [a]
      added
      removed := [] } := by
  have hareas := h.nodup_areas
  rw [Kept.mem_roots_iff] at hout
  refine h.change_of_new hle hB hplain ha hold (fun x hx => ?_) ?_
  · simp only [roots, List.mem_append, List.mem_filter, List.mem_singleton] at hx ⊢
    tauto
  · show (s.board.filter (· ≠ r) ++ s.toolbox ++ (s.defs ++ [a]) ++ s.goal).Nodup
    rw [Kept.nodup_roots_iff]
    grind

/-- A new definition stands in the place of an old one. -/
theorem of_defs_replace {C : Forest} {a r old : NodeId} {added : List NodeId} (h : s.Hung next)
    (hle : next ≤ next') (hC : C.Hung next') (hplain : C.Plain) (ha : C.IsRoot a)
    (hout : a ∉ s.roots)
    (hold : ∀ (x : Nat) n, x < next → C.get? x = some n → s.nodes.get? x = some n)
    (hdef : old ∈ s.defs) :
    State.Hung next' { s with
      nodes := C
      board := s.board.filter (· ≠ r)
      defs := s.defs.map fun d => if d = old then a else d
      added
      removed := [] } := by
  have hareas := h.nodup_areas
  rw [Kept.mem_roots_iff] at hout
  have hmap : ∀ x, x ∈ s.defs.map (fun d => if d = old then a else d) ↔
      x = a ∨ x ∈ s.defs ∧ x ≠ old := fun x => mem_map_replace hdef
  have hnodup := nodup_map_replace (a := old) (b := a) hareas.1.2.2.1 (by tauto)
  refine h.change_of_new hle hC hplain ha hold (fun x hx => ?_) ?_
  · simp only [roots, List.mem_append, List.mem_filter, hmap] at hx ⊢
    tauto
  · show (s.board.filter (· ≠ r) ++ s.toolbox ++
      s.defs.map (fun d => if d = old then a else d) ++ s.goal).Nodup
    rw [Kept.nodup_roots_iff]
    grind

theorem meets_moveToDefs (h : s.Hung next) (S : Signature) (id : NodeId) :
    (s.moveToDefs S id).Meets next
      (fun o next' => ∀ s', o = some s' → s'.Hung next' ∧ s.Redefines id s') fun _ => True := by
  refine (s.meets_redefining S id next).imp (fun o next' hnext ho s' hs' => ?_) fun _ _ => trivial
  obtain ⟨n, t, u, F, added, rfl, hid, ht, hu, hfree, hn, -, hboard, hdropped, hadded, rfl⟩ :=
    ho s' hs'
  have hA := (Forest.Extends.refl h.nodes).insertClone (Nat.le_refl _) ht hu hfree hnext
  have hfresh : ∀ y ∈ u.ids, s.nodes.get? y = none := fun y hy => h.nodes.get?_eq_none (hu.le y hy)
  obtain ⟨B, hB, hdropped⟩ := bind_eq_ok_iff.1 hdropped
  obtain ⟨t', ht'id, ht', hroot, rfl, hBhung, hBold⟩ := h.exists_of_uproot
    (Kept.mem_roots_of_board hboard) hA.hung (fun x n hx hn => (hA.below x hx).symm.trans hn) hB
  obtain rfl := ht.unique ht' (hid.trans ht'id.symm)
  have hareas := h.nodup_areas
  have hthere : ∀ {q : Plant}, s.nodes.Holds q → ∀ x ∈ q.ids, s.nodes.has x = true := by
    intro q hq x hx
    obtain ⟨m, hm, rfl⟩ := Plant.mem_ids_iff_nodes.1 hx
    exact Forest.has_of_get? (hq.get?_of_mem_nodes hm)
  have hout : u.root.id ∉ s.roots := fun hmem =>
    absurd (h.lt _ hmem) (Nat.not_lt.2 (hu.le _ u.id_mem_ids))
  have hrootOf : ∀ {gone : List NodeId}, (∀ x ∈ gone, s.nodes.has x = true) →
      ((s.nodes.insertAll u.nodes).eraseAll gone).IsRoot u.root.id := by
    intro gone hgone
    refine ⟨u.root, Forest.get?_eraseAll_eq_some_iff.2 ⟨fun hx => ?_,
      Forest.get?_insertAll_nodes hu.nodup u.mem_subs_self⟩, hfree.1⟩
    have := hgone _ hx
    rw [Forest.has_eq_isSome, hfresh u.root.id u.id_mem_ids] at this
    cases this
  have hreplaced : s.replaced? n.id = n.name?.bind s.definition? := by rw [replaced?, hn]; rfl
  cases hold : n.name?.bind s.definition? with
  | none =>
    rw [hold] at hdropped
    cases hdropped
    obtain ⟨hadd, hgone⟩ := lacks_redefined hu hfresh (h.nodes.nodup_ids ht) (hthere ht) hadded
    refine ⟨h.of_defs_append hnext hBhung ((hA.plain h.plain).eraseAll _) (hrootOf (hthere ht)) hout
      hBold, hadd, rfl, t.ids, [], hid ▸ ht.idsUnder (h.nodes.nodup_ids ht), ?_, by rwa [List.append_nil]⟩
    rw [hreplaced, hold]
  | some old =>
    obtain ⟨name, -, hname⟩ := Option.bind_eq_some_iff.1 hold
    obtain ⟨hmem, hget⟩ := mem_defs_of_definition? hname
    rw [hold] at hdropped
    obtain ⟨C, hC, hdropped⟩ := bind_eq_ok_iff.1 hdropped
    cases hdropped
    obtain ⟨q, hqid, hq, hqroot, rfl, hChung, hCold⟩ := h.exists_of_uproot
      (Kept.mem_roots_iff.2 (by tauto)) hBhung hBold hC
    have hne : t.id ≠ q.id := fun e =>
      (hareas.2.1 n.id hboard).2.1 (by rw [← hid, e, hqid]; exact hmem)
    have hnodup : (t.ids ++ q.ids).Nodup := List.nodup_append.2 ⟨h.nodes.nodup_ids ht,
      h.nodes.nodup_ids hq, fun a ha b hb e =>
        h.nodes.disjoint_of_roots ht hq hroot hqroot hne a ha (e ▸ hb)⟩
    have hthere' : ∀ x ∈ t.ids ++ q.ids, s.nodes.has x = true := fun x hx =>
      (List.mem_append.1 hx).elim (hthere ht x) (hthere hq x)
    have hboth : ((s.nodes.insertAll u.nodes).eraseAll t.ids).eraseAll q.ids =
        (s.nodes.insertAll u.nodes).eraseAll (t.ids ++ q.ids) := List.foldl_append.symm
    rw [hboth] at hChung hCold hadded ⊢
    obtain ⟨hadd, hgone⟩ := lacks_redefined hu hfresh hnodup hthere' hadded
    refine ⟨h.of_defs_replace hnext hChung ((hA.plain h.plain).eraseAll _) (hrootOf hthere') hout
      hCold hmem, hadd, rfl, t.ids, q.ids, hid ▸ ht.idsUnder (h.nodes.nodup_ids ht), ?_, hgone⟩
    rw [hreplaced, hold]
    dsimp only
    rw [← hqid, hq.idsUnder (h.nodes.nodup_ids hq)]

/-- Dropping trees of the state keeps the forest hung. -/
theorem of_uprootAll (h : s.Hung lo) {used : List NodeId} (hused : used ⊆ s.roots) {G H : Forest}
    (hG : G.Hung next)
    (hold : ∀ (x : Nat) n, x < lo → G.get? x = some n → s.nodes.get? x = some n)
    (hok : used.foldlM (fun nodes root => uproot nodes s.nodes root) G = .ok H) :
    H.Hung next ∧ ∀ (x : Nat) n, x < lo → H.get? x = some n → s.nodes.get? x = some n := by
  induction used generalizing G with
  | nil =>
    cases hok
    exact ⟨hG, hold⟩
  | cons r used ih =>
    rw [List.cons_subset] at hused
    obtain ⟨K, hK, hok⟩ := bind_eq_ok_iff.1 hok
    obtain ⟨t, -, -, -, -, hKhung, hKold⟩ := h.exists_of_uproot hused.1 hG hold hK
    exact ih hused.2 hKhung hKold hok

/-- Dropping what has been used up leaves a state hung. -/
theorem ends_cleanup (h : s.Hung next) :
    Ends s.cleanup (fun o => ∀ s', o = some s' → s'.Hung next) fun _ => True := by
  refine s.ends_clears.imp (fun o ho s' hs' => ?_) fun _ _ => trivial
  obtain ⟨used, F, hfound, -, hdropped, rfl⟩ := ho s' hs'
  have hused := subset_of_filterM_eq_ok hfound
  have hF := h.of_uprootAll (fun x hx => Kept.mem_roots_of_board (hused hx)) h.nodes
    (fun _ _ _ hn => hn) hdropped
  have hareas := h.nodup_areas
  refine h.change (Nat.le_refl next) hF.1
    (h.plain.mono fun x n hn => hF.2 x n (hF.1.lt x n hn) hn) (fun r hr => .inr ?_) ?_
  · have hr' : r ∈ s.roots := by
      simp only [roots, settled, List.mem_append, List.mem_filter] at hr ⊢
      tauto
    exact ⟨hr', fun k hk => ⟨k, hF.2 r k (h.lt r hr') hk, rfl⟩⟩
  · show (s.board.filter (· ∉ used) ++ s.toolbox ++ s.defs ++ s.goal).Nodup
    rw [Kept.nodup_roots_iff]
    grind

/-- Finding out how a level stands changes nothing but its mode. -/
theorem ends_detectCompletion (h : s.Hung next) (S : Signature) :
    Ends (s.detectCompletion S) (fun o => ∀ s', o = some s' → s'.Hung next ∧ s.Reports s')
      fun _ => True := by
  refine (s.ends_detectCompletion S).imp (fun o ho s' hs' => ?_) fun _ _ => trivial
  obtain ⟨-, mode, -, rfl⟩ := ho s' hs'
  exact ⟨h.relist rfl (fun _ => id) h.nodup, .of_nodes rfl rfl rfl⟩

end Hung

end State

end TermForest
