import TermForest.Proofs.Forest.Copy

/-!
# Sprouts

An edit of a forest sprouts a plant when it leaves all older nodes as they were and grows a plant of
new ids that stands on its own. Nodes may be left over beside the plant.
-/

namespace TermForest

open Supply (Meets)

/-- `G` is `F` below `lo`, and holds a plant beside it that is grown from ids between `lo` and `hi` and
has no parent. -/
structure Forest.Sprouts (F G : Forest) (lo hi : Nat) (u : Plant) : Prop where
  below : ∀ x : Nat, x < lo → G.get? x = F.get? x
  held : G.Holds u
  grown : u.Grown lo hi
  free : u.Free

namespace Forest

variable {F G H : Forest} {lo mid hi : Nat} {t u v : Plant}

/-- Plants of older nodes are held as before. -/
theorem Sprouts.holds (h : F.Sprouts G lo hi u) (ht : F.Holds t) (hlt : ∀ x : Nat, x ∈ t.ids → x < lo) :
    G.Holds t :=
  ht.congr fun x hx => h.below x (hlt x hx)

/-- A plant that sprouts after another leaves it as it is. -/
theorem Sprouts.trans (hu : F.Sprouts G lo mid u) (hv : G.Sprouts H mid hi v) (hlo : lo ≤ mid)
    (hhi : mid ≤ hi) : F.Sprouts H lo hi u ∧ F.Sprouts H lo hi v := by
  have hbelow : ∀ x : Nat, x < lo → H.get? x = F.get? x := fun x hx =>
    (hv.below x (Nat.lt_of_lt_of_le hx hlo)).trans (hu.below x hx)
  constructor
  · exact ⟨hbelow, hv.holds hu.held hu.grown.lt, hu.grown.mono (Nat.le_refl _) hhi, hu.free⟩
  · exact ⟨hbelow, hv.held, hv.grown.mono hlo (Nat.le_refl _), hv.free⟩

/-- Plants of two parts of the supply have no id in common. -/
theorem disjoint_of_grown (hu : u.Grown lo mid) (hv : v.Grown mid hi) :
    ∀ x ∈ u.ids, x ∉ v.ids :=
  fun x hx hx' => Nat.lt_irrefl x (Nat.lt_of_lt_of_le (hu.lt x hx) (hv.le x hx'))

/-- A new node above grown plants that point at it sprouts one plant. -/
theorem sprouts_insert_above {n : Node} {us : List Plant}
    (hG : ∀ x : Nat, x < lo → G.get? x = F.get? x) (hheld : ∀ p ∈ us, G.Holds p)
    (hgrown : ∀ p ∈ us, p.Grown lo hi) (hnodup : (us.flatMap Plant.ids).Nodup)
    (hn : n.id ∉ us.flatMap Plant.ids) (hlo : lo ≤ n.id) (hhi : n.id < hi) (hc : n.Carries us)
    (hp : n.parent = none) (hps : n.parentSlot = none) (hf : n.Formed hi)
    (hl : n.locked = false) : F.Sprouts (G.insert n) lo hi (.mk n us) where
  below x hx := by
    rw [get?_insert, if_neg (by lia), hG x hx]
  held := holds_insert hc.children hheld hn
  grown := .of_parts hgrown hnodup hn hlo hhi hc hf hl
  free := ⟨hp, hps⟩

/-- A new node sprouts a plant of itself. -/
theorem sprouts_insert {n : Node} (hlo : lo ≤ n.id) (hhi : n.id < hi) (hs : n.slots.entries = [])
    (hp : n.parent = none) (hps : n.parentSlot = none) (hf : n.Formed hi)
    (hl : n.locked = false) : F.Sprouts (F.insert n) lo hi (.mk n []) := by
  refine sprouts_insert_above (fun _ _ => rfl) nofun nofun .nil nofun hlo hhi ?_ hp hps hf hl
  rw [Node.Carries, hs]
  exact .nil

/-- A new node above two plants that stand on their own makes one plant of them. -/
theorem Sprouts.pair (hu : F.Sprouts G lo mid u) (hv : F.Sprouts G lo mid v)
    (hd : ∀ x ∈ u.ids, x ∉ v.ids) {n : Node} (hlo : lo ≤ mid) (hid : mid ≤ n.id)
    (hhi : n.id < hi) {s s' : String} (hs : n.slots.entries = [(s, u.id), (s', v.id)])
    (hp : n.parent = none) (hps : n.parentSlot = none) (hf : n.Formed hi) (hl : n.locked = false) :
    F.Sprouts (((G.insert (u.root.heldBy n.id s)).insert (v.root.heldBy n.id s')).insert n) lo hi
      (.mk n [u.heldBy n.id s, v.heldBy n.id s']) := by
  have hmid : mid ≤ hi := by lia
  have hulo := hu.grown.le _ u.id_mem_ids
  have hvlo := hv.grown.le _ v.id_mem_ids
  have hnew : ∀ w : Plant, w.Grown lo mid → n.id ∉ w.ids := by
    intro w hw hx
    have := hw.lt _ hx
    lia
  -- pointing one plant at the node leaves the other as it is
  have hu' := (hu.held.heldBy hu.grown.nodup n.id s).insert_of_notMem
    (n := v.root.heldBy n.id s') fun hx => hd v.id (by simpa using hx) v.id_mem_ids
  have hv' := (hv.held.insert_of_notMem (n := u.root.heldBy n.id s)
    (hd _ u.id_mem_ids)).heldBy hv.grown.nodup n.id s'
  refine sprouts_insert_above (fun x hx => ?_) ?_ ?_ ?_ ?_ (by lia) hhi ?_ hp hps hf hl
  · rw [get?_insert, if_neg (by simp; lia), get?_insert, if_neg (by simp; lia), hu.below x hx]
  · intro p hmem
    rcases List.mem_pair.1 hmem with rfl | rfl
    · exact hu'
    · exact hv'
  · intro p hmem
    rcases List.mem_pair.1 hmem with rfl | rfl
    · exact (hu.grown.heldBy _ _).mono (Nat.le_refl _) hmid
    · exact (hv.grown.heldBy _ _).mono (Nat.le_refl _) hmid
  · simp only [List.flatMap_cons, Plant.ids_heldBy, List.flatMap_nil, List.append_nil]
    exact List.nodup_append.2 ⟨hu.grown.nodup, hv.grown.nodup, fun a ha b hb e => hd a ha (e ▸ hb)⟩
  · simpa using ⟨hnew u hu.grown, hnew v hv.grown⟩
  · rw [Node.Carries, hs]
    exact .cons ⟨rfl, rfl, rfl⟩ (.cons ⟨rfl, rfl, rfl⟩ .nil)

end Forest

/-! ### Edits that sprout -/

namespace Editing

variable {F G : Forest} {lo next : Nat} {t u v : Plant}

/-- A copy of a plant sprouts, of the same shape. -/
theorem meets_copy (h : F.Holds t) (hn : t.ids.Nodup) (hf : t.Formed next) :
    ((copy t.id).run F).Meets next
      (fun r next' => ∃ u : Plant, r.1 = u.root ∧ F.Sprouts r.2 next next' u ∧
        u.shape = t.shape)
      fun _ => False := by
  show (StateT.run (do
    let c ← (liftM (F.copy t.id false) : Editing Copy)
    set c.forest
    return c.root : Editing Node) F).Meets next _ _
  rw [StateT.run_bind]
  refine Meets.bind (Q := fun r next' => ∃ u : Plant, r.1.root = u.root ∧
    r.1.forest = F.insertAll u.nodes ∧ t.CloneOf false next next' u ∧ u.Free) ?_ ?_
  · refine ((h.copy hn false next).bind (f := fun c => pure (c, F)) fun c next' _ hc => .pure hc)
  · rintro ⟨c, _⟩ next' hnext ⟨u, hroot, hforest, hu, hfree⟩
    refine .pure ⟨u, hroot, ?_, hu.shape⟩
    show F.Sprouts c.forest next next' u
    rw [hforest]
    refine ⟨fun x hx => ?_, Forest.holds_insertAll hu.joined hu.nodup, hu.grown (hf.mono hnext),
      hfree⟩
    refine Forest.get?_insertAll_of_notMem fun hm => ?_
    rw [Plant.map_id_nodes] at hm
    exact Nat.lt_irrefl x (Nat.lt_of_lt_of_le hx (hu.le x hm))

theorem meets_copyOf (h : F.Holds t) (hn : t.ids.Nodup) (hf : t.Formed next) :
    ((copyOf t.id).run F).Meets next
      (fun r next' => ∃ u : Plant, r.1 = u.id ∧ F.Sprouts r.2 next next' u ∧ u.shape = t.shape)
      fun _ => False := by
  rw [copyOf, StateT.run_bind]
  refine (meets_copy h hn hf).bind ?_
  rintro ⟨_, G⟩ next' - ⟨u, rfl, hu, hs⟩
  exact .pure ⟨u, rfl, hu, hs⟩

/-- An application of one plant to another sprouts from both. -/
theorem meets_apply (hu : F.Sprouts G lo next u) (hv : F.Sprouts G lo next v)
    (hd : ∀ x ∈ u.ids, x ∉ v.ids) (hlo : lo ≤ next) :
    ((apply u.id v.id).run G).Meets next
      (fun r next' => ∃ w : Plant, r.1 = w.id ∧ F.Sprouts r.2 lo next' w ∧
        w.shape = u.shape.applied v.shape)
      fun _ => False := by
  have hne : u.id ≠ v.id := fun e => hd _ u.id_mem_ids (e ▸ v.id_mem_ids)
  have hget : (G.insert (u.root.heldBy next "callee")).get? v.id = some v.root := by
    rw [Forest.get?_insert, if_neg (show (u.root.heldBy next "callee").id ≠ v.id from hne)]
    exact hv.held.get?_id
  simp only [apply, StateT.run_bind, run_newId, bind_assoc, pure_bind]
  refine .take_bind ?_
  rw [run_fill hu.held.get?_id, pure_bind, run_fill hget, pure_bind, run_insert, pure_bind]
  refine .pure ⟨_, rfl, hu.pair hv hd hlo (Nat.le_refl _) (Nat.lt_succ_self _) ?_ rfl rfl ?_ rfl,
    ?_⟩
  · simp [Node.withSlot, Slots.set, Slots.put]
  · exact Node.formed_of_slots rfl rfl
  · rw [Plant.shape_mk, List.map_cons, List.map_cons, List.map_nil, Plant.shape_heldBy,
      Plant.shape_heldBy]
    rfl

end Editing

end TermForest
