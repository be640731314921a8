import TermForest.Proofs.State.Areas

/-!
# Rearranging keeps the material

Detaching a term, taking one to the board and putting one into a hole only rearrange what is on the
board and in the toolbox. No node comes or goes but for the holes, and there comes a root with every
hole that comes and goes one with every hole that goes.
-/

namespace TermForest

open Supply (Meets)

/-! ### Material -/

/-- What a node is, wherever it hangs and whatever hangs in it. -/
structure Piece where
  id : NodeId
  kind : Kind
  fields : Fields
  /-- The names of the slots in order. -/
  slots : List String
  locked : Bool
  deriving DecidableEq

/-- A node as a piece. -/
def Node.piece (n : Node) : Piece := ⟨n.id, n.kind, n.fields, n.slots.names, n.locked⟩

/-- What there is to play with. -/
structure Material where
  /-- The nodes that are no holes. -/
  pieces : List Piece
  /-- By how many the roots outnumber the holes. -/
  surplus : Int
  deriving DecidableEq

/-- A command that takes terms out of slots and puts them into slots, on the board and from the
toolbox. -/
def Command.rearranges : Command → Bool
  | .detach _ | .moveToBoard _ | .moveToSlot _ _ => true
  | _ => false

namespace State

/-- The nodes of the trees on the board and in the toolbox. -/
def atHand (s : State) : Except Fault (List Node) := do
  let trees ← (s.board ++ s.toolbox).mapM fun root => s.nodes.findAll root fun _ => true
  return trees.flatten

/-- What the board and the toolbox are made of. -/
def material (s : State) : Except Fault Material := do
  let nodes ← s.atHand
  return {
    pieces := (nodes.filter (·.kind ≠ .hole)).map Node.piece
    surplus := (s.board ++ s.toolbox).length - (nodes.filter (·.kind = .hole)).length }

/-- Two states are made of the same pieces, each of which is there once, and have the same surplus of
roots over holes. -/
def SameMaterial (s s' : State) : Prop :=
  ∃ m m', s.material = .ok m ∧ s'.material = .ok m' ∧ (m.pieces.map Piece.id).Nodup ∧
    m.pieces.Perm m'.pieces ∧ m.surplus = m'.surplus

variable {s s' s'' : State} {next next' : Nat} {x : NodeId} {m : Move} {new gone : List NodeId}

theorem SameMaterial.trans (h : s.SameMaterial s') (h' : s'.SameMaterial s'') :
    s.SameMaterial s'' := by
  obtain ⟨m, m', hm, hm', hnodup, hpieces, hsurplus⟩ := h
  obtain ⟨k, m'', hk, hm'', -, hpieces', hsurplus'⟩ := h'
  obtain rfl := Except.ok.inj (hm'.symm.trans hk)
  exact ⟨m, m'', hm, hm'', hnodup, hpieces.trans hpieces', hsurplus.trans hsurplus'⟩

/-! ### Nodes at hand -/

/-- A node hangs in a tree on the board or in the toolbox. -/
def InHand (s : State) (x : NodeId) : Prop := ∃ r ∈ s.board ++ s.toolbox, s.nodes.RootOf x r

namespace Kept

/-- The trees of some roots, taken together. -/
theorem exists_mapM_findAll (h : s.Kept next) {roots : List NodeId} (hn : roots.Nodup)
    (hsub : roots ⊆ s.roots) :
    ∃ trees, roots.mapM (fun root => s.nodes.findAll root fun _ => true) = .ok trees ∧
      (trees.flatten.map Node.id).Nodup ∧
      ∀ n, n ∈ trees.flatten ↔ s.nodes.get? n.id = some n ∧ ∃ r ∈ roots, s.nodes.RootOf n.id r := by
  induction roots with
  | nil => exact ⟨[], rfl, .nil, by simp⟩
  | cons r roots ih =>
    rw [List.nodup_cons] at hn
    rw [List.cons_subset] at hsub
    obtain ⟨trees, htrees, hnodup, hmem⟩ := ih hn.2 hsub.2
    obtain ⟨t, rfl, ht, htnodup, hids⟩ := h.partitioned.exists_plant hsub.1
    have hnodes : ∀ n, n ∈ t.nodes ↔ s.nodes.get? n.id = some n ∧ s.nodes.RootOf n.id t.id := by
      intro n
      rw [← hids, Plant.mem_ids_iff_nodes]
      constructor
      · exact fun hn => ⟨ht.get?_of_mem_nodes hn, n, hn, rfl⟩
      · rintro ⟨hget, k, hk, hid⟩
        obtain rfl := Option.some.inj ((hid ▸ ht.get?_of_mem_nodes hk).symm.trans hget)
        exact hk
    refine ⟨t.nodes :: trees, ?_, ?_, fun n => ?_⟩
    · rw [List.mapM_cons, ht.findAll htnodup, List.filter_true, ok_bind, htrees]
      rfl
    · rw [List.flatten_cons, List.map_append, Plant.map_id_nodes]
      refine List.nodup_append.2 ⟨htnodup, hnodup, fun x hx y hy => ?_⟩
      rintro rfl
      obtain ⟨n, hn', rfl⟩ := List.mem_map.1 hy
      obtain ⟨-, r, hr, hroot⟩ := (hmem n).1 hn'
      exact hn.1 (((hids n.id).1 hx).unique hroot ▸ hr)
    · rw [List.flatten_cons, List.mem_append, hnodes, hmem]
      simp only [List.mem_cons, exists_eq_or_imp, and_or_left]

/-- The nodes at hand are found, each once. -/
theorem exists_atHand (h : s.Kept next) : ∃ nodes, s.atHand = .ok nodes ∧
    (nodes.map Node.id).Nodup ∧ ∀ n, n ∈ nodes ↔ s.nodes.get? n.id = some n ∧ s.InHand n.id := by
  have hroots : s.roots = (s.board ++ s.toolbox) ++ (s.defs ++ s.goal) := by
    simp [roots]
  obtain ⟨trees, htrees, hnodup, hmem⟩ := h.exists_mapM_findAll
    (List.Nodup.of_append_left (hroots ▸ h.nodup)) (hroots ▸ List.subset_append_left ..)
  exact ⟨trees.flatten, by rw [atHand, htrees]; rfl, hnodup, hmem⟩

/-- The pieces and the holes at hand. -/
theorem exists_material (h : s.Kept next) : ∃ (pieces : List Piece) (holes : List NodeId), s.material =
      .ok ⟨pieces, (s.board ++ s.toolbox).length - holes.length⟩ ∧
    (pieces.map Piece.id).Nodup ∧ holes.Nodup ∧
    (∀ p, p ∈ pieces ↔ p.kind ≠ .hole ∧ (s.nodes.get? p.id).map Node.piece = some p ∧
      s.InHand p.id) ∧
    ∀ x, x ∈ holes ↔ (s.nodes.get? x).map Node.kind = some .hole ∧ s.InHand x := by
  obtain ⟨nodes, hnodes, hnodup, hmem⟩ := h.exists_atHand
  refine ⟨(nodes.filter (·.kind ≠ .hole)).map Node.piece,
    (nodes.filter (·.kind = .hole)).map Node.id, ?_, ?_, ?_, fun p => ?_, fun x => ?_⟩
  · rw [material, hnodes, List.length_map]
    rfl
  · rw [List.map_map]
    exact hnodup.sublist (List.filter_sublist.map Node.id)
  · exact hnodup.sublist (List.filter_sublist.map Node.id)
  · simp only [List.mem_map, List.mem_filter, hmem, decide_eq_true_eq, Option.map_eq_some_iff]
    constructor
    · rintro ⟨n, ⟨⟨hget, hx⟩, hk⟩, rfl⟩
      exact ⟨hk, ⟨n, hget, rfl⟩, hx⟩
    · rintro ⟨hk, ⟨n, hget, rfl⟩, hx⟩
      exact ⟨n, ⟨⟨hget, hx⟩, hk⟩, rfl⟩
  · simp only [List.mem_map, List.mem_filter, hmem, decide_eq_true_eq, Option.map_eq_some_iff]
    constructor
    · rintro ⟨n, ⟨⟨hget, hx⟩, hk⟩, rfl⟩
      exact ⟨⟨n, hget, hk⟩, hx⟩
    · rintro ⟨⟨n, hget, hk⟩, hx⟩
      obtain rfl := Forest.id_of_get? hget
      exact ⟨n, ⟨⟨hget, hx⟩, hk⟩, rfl⟩

theorem sameMaterial_self (h : s.Kept next) : s.SameMaterial s := by
  obtain ⟨pieces, holes, hm, hnodup, -⟩ := h.exists_material
  exact ⟨_, _, hm, hm, hnodup, .refl _, rfl⟩

/-- What is at hand hangs neither below a definition nor below a goal. -/
theorem inHand_iff (h : s.Kept next) : s.InHand x ↔
    (∃ n, s.nodes.get? x = some n) ∧ ∀ r ∈ s.defs ++ s.goal, ¬s.nodes.RootOf x r := by
  have hareas := h.nodup_areas
  simp only [InHand, List.mem_append]
  constructor
  · rintro ⟨r, hr, hroot⟩
    refine ⟨hroot.exists_get?, fun r' hr' hroot' => ?_⟩
    obtain rfl := hroot.unique hroot'
    grind
  · rintro ⟨⟨n, hn⟩, hnot⟩
    obtain ⟨r, hr, hroot⟩ := h.exists_rootOf hn
    have hr' := mt (hnot r) (not_not.2 hroot)
    rw [mem_roots_iff] at hr
    exact ⟨r, by tauto, hroot⟩

end Kept

/-! ### Holes that come and go -/

/-- From `s` to `s'` the holes in `new` come and those in `gone` go, with as many roots, and all
other nodes stay the same pieces. -/
structure Rearranges (s s' : State) (new gone : List NodeId) : Prop where
  nodup_new : new.Nodup
  nodup_gone : gone.Nodup
  comes : ∀ x ∈ new, s.nodes.get? x = none ∧ (s'.nodes.get? x).map Node.kind = some .hole
  goes : ∀ x ∈ gone, s'.nodes.get? x = none ∧ (s.nodes.get? x).map Node.kind = some .hole ∧
    s.InHand x
  others : ∀ x, x ∉ new → x ∉ gone →
    (s'.nodes.get? x).map Node.piece = (s.nodes.get? x).map Node.piece
  roots : (s'.board ++ s'.toolbox).length + gone.length =
    (s.board ++ s.toolbox).length + new.length

end State

/-- A tree that is kept has the same nodes. -/
theorem Forest.KeepsTree.rootOf_iff {F G : Forest} {r x : NodeId} (h : F.KeepsTree G r)
    (hF : F.Linked) (hG : G.Linked) (hr : F.IsRoot r) : G.RootOf x r ↔ F.RootOf x r := by
  obtain ⟨n, hn, hp⟩ := hr
  obtain ⟨t, ht, hheld, -⟩ := hF.exists_plant hn
  obtain rfl : t.id = r := (congrArg Node.id ht).trans (id_of_get? hn)
  have hroot : F.IsRoot t.id := ⟨n, hn, hp⟩
  have hroot' : G.IsRoot t.id := ⟨n, (h _ ⟨hroot, 0, .refl hn⟩).trans hn, hp⟩
  simp only [RootOf, hroot, hroot', true_and, ← hF.mem_ids_iff hheld,
    ← hG.mem_ids_iff (h.holds hF hheld hroot)]

namespace State

variable {s s' : State} {next next' : Nat} {x : NodeId} {m : Move} {new gone : List NodeId}

/-- Where neither definitions nor goals change, what is at hand is what there is outside of them. -/
theorem Isolates.inHand_iff (hi : s.Isolates m s') (h : s.Kept next) (h' : s'.Kept next')
    (hm : ∀ x, m ≠ .command (.moveToDefs x)) : s'.InHand x ↔
      (∃ n, s'.nodes.get? x = some n) ∧ ∀ r ∈ s.defs ++ s.goal, ¬s.nodes.RootOf x r := by
  have hreplaced : m.replaced? s = none := by
    unfold Move.replaced?
    split
    · next x => exact absurd rfl (hm x)
    · rfl
  have hkeeps : ∀ r ∈ s.defs ++ s.goal, s.nodes.KeepsTree s'.nodes r := by
    intro r hr
    rcases List.mem_append.1 hr with hr | hr
    · exact (hi.definitions r hr (by simp [hreplaced])).2
    · exact hi.goals r hr
  rw [h'.inHand_iff, hi.defs hm, hi.goal]
  refine and_congr_right fun _ => forall₂_congr fun r hr => not_congr ?_
  refine (hkeeps r hr).rootOf_iff h.linked h'.linked (h.partitioned.isRoot ?_)
  exact Kept.mem_roots_iff.2 (by simpa using .inr (.inr (List.mem_append.1 hr)))

theorem map_kind_eq {o : Option Node} : o.map Node.kind = (o.map Node.piece).map Piece.kind := by
  rw [Option.map_map]
  rfl

namespace Rearranges

variable (hr : s.Rearranges s' new gone) (hi : s.Isolates m s') (h : s.Kept next)
  (h' : s'.Kept next') (hm : ∀ x, m ≠ .command (.moveToDefs x))

include hr hi h h' hm

theorem inHand_new (hx : x ∈ new) : s'.InHand x := by
  obtain ⟨hnone, hk⟩ := hr.comes x hx
  obtain ⟨n, hn, -⟩ := Option.map_eq_some_iff.1 hk
  refine (hi.inHand_iff h h' hm).2 ⟨⟨n, hn⟩, fun r _ hroot => ?_⟩
  obtain ⟨k, hk⟩ := hroot.exists_get?
  rw [hnone] at hk
  cases hk

/-- Of a node that neither comes nor goes. -/
theorem inHand_others (hnew : x ∉ new) (hgone : x ∉ gone) : s'.InHand x ↔ s.InHand x := by
  have hothers := congrArg Option.isSome (hr.others x hnew hgone)
  rw [Option.isSome_map, Option.isSome_map] at hothers
  rw [hi.inHand_iff h h' hm, h.inHand_iff, ← Option.isSome_iff_exists, hothers,
    Option.isSome_iff_exists]

theorem piece_iff {p : Piece} (hk : p.kind ≠ .hole) :
    (s'.nodes.get? p.id).map Node.piece = some p ∧ s'.InHand p.id ↔
      (s.nodes.get? p.id).map Node.piece = some p ∧ s.InHand p.id := by
  have hkind : ∀ o : Option Node, o.map Node.piece = some p → o.map Node.kind ≠ some .hole := by
    intro o ho
    rw [map_kind_eq, ho]
    exact fun e => hk (Option.some.inj e)
  by_cases hnew : p.id ∈ new
  · have hcomes := hr.comes _ hnew
    exact iff_of_false (fun hp => hkind _ hp.1 hcomes.2) (by simp [hcomes.1])
  by_cases hgone : p.id ∈ gone
  · have hgoes := hr.goes _ hgone
    exact iff_of_false (by simp [hgoes.1]) fun hp => hkind _ hp.1 hgoes.2.1
  rw [hr.others _ hnew hgone, hr.inHand_others hi h h' hm hnew hgone]

/-- The holes afterwards and those that go are the holes before and those that come. -/
theorem hole_iff (x : NodeId) :
    (s'.nodes.get? x).map Node.kind = some .hole ∧ s'.InHand x ∨ x ∈ gone ↔
      (s.nodes.get? x).map Node.kind = some .hole ∧ s.InHand x ∨ x ∈ new := by
  by_cases hnew : x ∈ new
  · exact iff_of_true (.inl ⟨(hr.comes x hnew).2, hr.inHand_new hi h h' hm hnew⟩) (.inr hnew)
  by_cases hgone : x ∈ gone
  · exact iff_of_true (.inr hgone) (.inl (hr.goes x hgone).2)
  rw [map_kind_eq, hr.others x hnew hgone, ← map_kind_eq, hr.inHand_others hi h h' hm hnew hgone]
  simp [hnew, hgone]

theorem sameMaterial : s.SameMaterial s' := by
  obtain ⟨pieces, holes, hmat, hnodup, hholes, hpieces, hmem⟩ := h.exists_material
  obtain ⟨pieces', holes', hmat', hnodup', hholes', hpieces', hmem'⟩ := h'.exists_material
  refine ⟨_, _, hmat, hmat', hnodup, ?_, ?_⟩
  · refine (List.perm_ext_iff_of_nodup (.of_map _ hnodup) (.of_map _ hnodup')).2 fun p => ?_
    rw [hpieces, hpieces']
    exact and_congr_right fun hk => (hr.piece_iff hi h h' hm hk).symm
  · -- a hole that comes is none of those before, and one that goes is none of those afterwards
    have hperm : (holes' ++ gone).Perm (holes ++ new) := by
      refine (List.perm_ext_iff_of_nodup ?_ ?_).2 fun x => ?_
      · refine List.nodup_append.2 ⟨hholes', hr.nodup_gone, ?_⟩
        rintro x hx _ hx' rfl
        have hk := ((hmem' x).1 hx).1
        rw [(hr.goes x hx').1] at hk
        cases hk
      · refine List.nodup_append.2 ⟨hholes, hr.nodup_new, ?_⟩
        rintro x hx _ hx' rfl
        have hk := ((hmem x).1 hx).1
        rw [(hr.comes x hx').1] at hk
        cases hk
      · rw [List.mem_append, List.mem_append, hmem, hmem']
        exact hr.hole_iff hi h h' hm x
    have hlen := hperm.length_eq
    have hroots := hr.roots
    simp only [List.length_append] at hlen hroots ⊢
    lia

end Rearranges

/-! ### Moves -/

theorem length_filter_ne {ids : List NodeId} (hn : ids.Nodup) (hx : x ∈ ids) :
    (ids.filter (· ≠ x)).length + 1 = ids.length := by
  have hfilter : ids.filter (· ≠ x) = ids.erase x := by
    rw [hn.erase_eq_filter]
    exact List.filter_congr fun y _ => Bool.eq_iff_iff.2 (by simp)
  rw [hfilter, List.length_erase_add_one hx]

/-- The same piece in the place of a node changes no piece. -/
theorem map_piece_insert {F : Forest} {n : Node}
    (h : (F.get? n.id).map Node.piece = some n.piece) (x : NodeId) :
    ((F.insert n).get? x).map Node.piece = (F.get? x).map Node.piece := by
  rw [Forest.get?_insert]
  split
  · next hx => rw [← hx, h, Option.map_some]
  · rfl

theorem piece_withSlot {n : Node} {slot : String} {c : NodeId} (h : n.slots.get? slot = some c)
    (d : NodeId) : (n.withSlot slot d).piece = n.piece := by
  simp only [Node.piece, Node.withSlot, Slots.names_set (Slots.mem_names_iff.2 ⟨c, h⟩)]

/-- A root that takes the place of a hole, and the node that holds it then, stay the same pieces. -/
theorem map_piece_fill {F : Forest} {p m n : Node} {slot : String} {root : NodeId} (hF : F.Linked)
    (e : F.Exchangeable p slot m n root) (x : NodeId) :
    ((((F.erase m.id).insert (p.withSlot slot n.id)).insert (n.heldBy p.id slot)).get? x).map
      Node.piece = ((F.erase m.id).get? x).map Node.piece := by
  have hold : ∀ {x : NodeId}, x ≠ m.id → (F.erase m.id).get? x = F.get? x :=
    fun hx => (Forest.get?_erase ..).trans (if_neg hx.symm)
  have hholder := map_piece_insert (F := F.erase m.id) (n := p.withSlot slot n.id) (by
    rw [piece_withSlot (e.get?_slot hF)]
    exact congrArg (Option.map Node.piece) ((hold (e.holder_ne_child hF)).trans e.holder))
  exact (map_piece_insert (n := n.heldBy p.id slot) ((hholder n.id).trans
    (congrArg _ ((hold e.child_ne_other.symm).trans e.other))) x).trans (hholder x)

namespace Kept

variable {id hole : NodeId}

/-- A detached term leaves a new hole. -/
theorem meets_rearranges_detach (h : s.Kept next) (id : NodeId) :
    (s.detach id).Meets next (fun o _ => ∀ s', o = some s' → s.Rearranges s' [next] [])
      fun _ => True := by
  refine (s.meets_detaches id next).imp (fun o _ _ ho s' hs' => ?_) fun _ _ => trivial
  obtain ⟨-, n, p, slot, root, rfl, hn, hp, hparent, hslot, -, -, rfl⟩ := ho s' hs'
  have hheld := h.linked.get?_slot hn hparent hslot hp
  have hnone : s.nodes.get? next = none := Forest.Kept.get?_eq_none h (Nat.le_refl next)
  set A := s.nodes.insert (Node.heldBy { id := next, kind := .hole } p.id slot)
  have hold : ∀ {x : NodeId} {k : Node}, s.nodes.get? x = some k → A.get? x = some k :=
    fun hk => (Forest.get?_insert_of_ne (Nat.ne_of_lt (h.lt _ _ hk))).trans hk
  have hB := map_piece_insert (F := A) (n := p.withSlot slot next) (by
    rw [piece_withSlot hheld]
    exact congrArg (Option.map Node.piece) (hold hp))
  have hC := map_piece_insert (n := n.detached) ((hB n.id).trans (congrArg _ (hold hn)))
  refine ⟨List.nodup_singleton next, .nil, fun x hx => ?_, by simp, fun x hx _ => ?_, ?_⟩
  · rw [List.mem_singleton.1 hx]
    have hnew := congrArg (Option.map Node.piece) (Forest.get?_insert_self s.nodes
      (Node.heldBy { id := next, kind := .hole } p.id slot))
    exact ⟨hnone, map_kind_eq.trans (congrArg (Option.map Piece.kind)
      ((hC next).trans ((hB next).trans hnew)))⟩
  · exact ((hC x).trans (hB x)).trans
      (congrArg _ (Forest.get?_insert_of_ne (List.ne_of_not_mem_cons hx)))
  · simp only [List.length_append, List.length_cons, List.length_nil]
    lia

/-- A root that is taken to the board stays what it is. -/
theorem ends_rearranges_moveToBoard (h : s.Kept next) (id : NodeId) :
    Ends (s.moveToBoard id) (fun o => ∀ s', o = some s' → s.Rearranges s' [] [])
      fun _ => True := by
  refine (s.ends_moveToBoard id).imp (fun o ho s' hs' => ?_) fun _ _ => trivial
  obtain ⟨-, htoolbox, rfl⟩ := ho s' hs'
  have hlen := length_filter_ne h.nodup_areas.1.2.1 htoolbox
  refine ⟨.nil, .nil, by simp, by simp, fun _ _ _ => rfl, ?_⟩
  simp only [List.length_append, List.length_cons, List.length_nil]
  lia

/-- A filled hole is gone. -/
theorem ends_rearranges_moveToSlot (h : s.Kept next) (S : Signature) (id hole : NodeId) :
    Ends (s.moveToSlot S id hole) (fun o => ∀ s', o = some s' → s.Rearranges s' [] [hole])
      fun _ => True := by
  refine (s.ends_fills S id hole).imp (fun o ho s' hs' => ?_) fun _ _ => trivial
  obtain ⟨n, m, p, slot, root, rfl, rfl, hplace, hn, hm, hk, hp, hparent, hslot, hroot, hboard,
    hne, rfl⟩ := ho s' hs'
  have hareas := h.nodup_areas
  obtain ⟨n', hn', hnone, -⟩ := h.exists_root (mem_roots_iff.2 (by tauto) : n.id ∈ s.roots)
  obtain rfl := Option.some.inj (hn.symm.trans hn')
  have e : s.nodes.Exchangeable p slot m n root :=
    ⟨hp, hm, hn, hparent, hslot, hnone, hroot.of_parent hm hparent, hne⟩
  have hpieces := map_piece_fill h.linked e
  refine ⟨.nil, List.nodup_singleton m.id, by simp, fun x hx => ?_, fun x _ hx => ?_, ?_⟩
  · rw [List.mem_singleton.1 hx]
    refine ⟨?_, by rw [hm, Option.map_some, hk], root, List.mem_append_left _ hboard, hroot⟩
    have hnot := hpieces m.id
    rw [Forest.get?_erase, if_pos rfl, Option.map_none, Option.map_eq_none_iff] at hnot
    exact hnot
  · refine (hpieces x).trans ?_
    rw [Forest.get?_erase, if_neg (List.ne_of_not_mem_cons hx).symm]
  · have hlen := length_filter_ne (List.nodup_append.2 ⟨hareas.1.1, hareas.1.2.1, by grind⟩)
      (List.mem_append.2 hplace)
    rw [← List.filter_append]
    exact hlen

end Kept

end State

/-! ### Runs -/

namespace Game

variable {s : State} {next next' : Nat} {c : Command}

/-- A rearrangement keeps the material. -/
theorem sameMaterial_obey (g : Game) (h : s.Kept next) (hc : c.rearranges = true) {s' : State}
    (hrun : (g.obey s c).runFrom next = (.ok (some s'), next')) : s.SameMaterial s' := by
  have hkept := ((g.meets_obey h c).of_ok hrun).2 s' rfl
  cases c with
  | detach x =>
    have hr := ((h.meets_rearranges_detach x).of_ok hrun).2 s' rfl
    exact hr.sameMaterial (((h.partitioned.meets_detach x).of_ok hrun).2 s' rfl) h hkept nofun
  | moveToBoard x =>
    have hr := ((Meets.of_ends (h.ends_rearranges_moveToBoard x)).of_ok hrun).2 s' rfl
    exact hr.sameMaterial (((Meets.of_ends (h.partitioned.ends_moveToBoard x)).of_ok hrun).2 s' rfl)
      h hkept nofun
  | moveToSlot x hole =>
    have hr := ((Meets.of_ends (h.ends_rearranges_moveToSlot g.signature x hole)).of_ok hrun).2 s' rfl
    exact hr.sameMaterial
      (((Meets.of_ends (h.partitioned.ends_moveToSlot g.signature x hole)).of_ok hrun).2 s' rfl)
      h hkept nofun
  | _ => cases hc

end Game

namespace Session

variable {g : Game} {session : Session State Move} {c : Command}

/-- Whatever comes of a rearrangement, the present state is kept and is made of the same material. -/
theorem sameMaterial_perform (hg : session.dynamics = g.dynamics)
    (h : session.present.Kept session.next) (hc : c.rearranges = true) :
    (session.perform (.command c)).1.present.Kept (session.perform (.command c)).1.next ∧
      session.present.SameMaterial (session.perform (.command c)).1.present := by
  have hself := h.sameMaterial_self
  have hsteer : session.dynamics.steering? (.command c) = none := by
    rw [hg]
    cases c <;> first | rfl | cases hc
  have hmeets := g.meets_obey h c
  have hchange : (session.dynamics.change session.timeline.present (.command c)).runFrom
      session.next = (g.obey session.present c).runFrom session.next := by
    rw [hg]
    rfl
  rw [perform_eq hsteer, hchange]
  rcases hrun : (g.obey session.present c).runFrom session.next with
    ⟨(why | fault) | (_ | state), next⟩
  · exact ⟨h.mono (hmeets.of_error hrun).1, hself⟩
  · exact ⟨h.mono (hmeets.of_error hrun).1, hself⟩
  · exact ⟨h.mono (hmeets.of_ok hrun).1, hself⟩
  · have hkept := (hmeets.of_ok hrun).2 state rfl
    have hsame := g.sameMaterial_obey h hc hrun
    dsimp only
    split
    · exact ⟨hkept, hsame⟩
    · exact ⟨hkept, hsame⟩

theorem sameMaterial_of_kept (hg : session.dynamics = g.dynamics)
    (h : session.present.Kept session.next) {commands : List Command}
    (hc : ∀ c ∈ commands, c.rearranges = true) :
    session.present.SameMaterial (session.performAll (commands.map .command)).present := by
  induction commands generalizing session with
  | nil => exact h.sameMaterial_self
  | cons c commands ih =>
    rw [List.forall_mem_cons] at hc
    obtain ⟨hkept, hsame⟩ := sameMaterial_perform hg h hc.1
    exact hsame.trans (ih ((dynamics_perform _ _).trans hg) hkept hc.2)

/-- Commands that only rearrange, in any number and with any ids, leave a well-formed state with the
pieces that it was made of, each of them once, and with as many more roots than holes. -/
theorem sameMaterial_performAll (hg : session.dynamics = g.dynamics)
    (h : session.present.WellFormed session.next) {commands : List Command}
    (hc : ∀ c ∈ commands, c.rearranges = true) :
    session.present.SameMaterial (session.performAll (commands.map .command)).present :=
  sameMaterial_of_kept hg h.kept hc

/-- A truth value is taken out of its negation, put back, and taken out again. -/
theorem sameMaterial_performAll_negating :
    (∃ m, Play.negating.present.material = .ok m ∧ m.pieces.map Piece.id = [2, 1] ∧
      m.surplus = 1) ∧
    Play.negating.present.SameMaterial (Play.negating.performAll ([.detach 2, .moveToSlot 2 3,
      .moveToSlot 2 2, .moveToSlot 1 4, .detach 2].map .command)).present := by
  have hkept : Play.negating.present.Kept Play.negating.next := Play.kept_negation
  refine ⟨?_, sameMaterial_performAll (g := { levels := ⟨[]⟩ }) rfl (hkept.wellFormed (by decide))
    (by decide)⟩
  cases hm : Play.negating.present.material with
  | error fault =>
    have hok : Play.negating.present.material.toOption.isSome = true := by decide +kernel
    rw [hm] at hok
    cases hok
  | ok m =>
    have hread : Play.negating.present.material.toOption.map
        (fun m => (m.pieces.map Piece.id, m.surplus)) = some ([2, 1], 1) := by
      decide +kernel
    rw [hm] at hread
    exact ⟨m, rfl, Prod.mk.inj (Option.some.inj hread)⟩

end Session

end TermForest
