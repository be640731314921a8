import TermForest.Proofs.Forest.Clone
import TermForest.Proofs.Forest.Literal

/-!
# Extensions of hung forests

An edit extends a hung forest when it leaves all older nodes as they were and ends in a hung forest,
which is plain if the forest was. Of an edit that gives a result this much is known without a look at
the fields and slots of nodes that are no literals.
-/

namespace TermForest

open Supply (Meets)

namespace Forest

/-- `G` is hung, plain if `F` is, and below `lo` it is `F`. -/
structure Extends (F G : Forest) (lo next : Nat) : Prop where
  below : ∀ x : Nat, x < lo → G.get? x = F.get? x
  hung : G.Hung next
  plain : F.Plain → G.Plain

variable {F G H : Forest} {lo next next' : Nat} {x : NodeId} {n m k : Node}

namespace Extends

theorem refl (h : F.Hung lo) : F.Extends F lo lo := ⟨fun _ _ => rfl, h, id⟩

theorem mono (h : F.Extends G lo next) (hn : next ≤ next') : F.Extends G lo next' :=
  ⟨h.below, h.hung.mono hn, h.plain⟩

/-- The children of a new node are new. -/
theorem le_of_mem_children (hF : F.Hung lo) (h : F.Extends G lo next) (hn : G.get? x = some n)
    (hx : lo ≤ x) {c : Nat} (hc : c ∈ n.slots.children) : lo ≤ c := by
  by_contra hlt
  obtain ⟨m, hm, hp⟩ := h.hung.exists_child hn hc
  rw [h.below c (Nat.lt_of_not_le hlt)] at hm
  exact Nat.not_lt.2 hx (hF.parent_lt c m hm x hp)

/-- What hangs below a new node is new. -/
theorem le_of_mem_ids (hF : F.Hung lo) (h : F.Extends G lo next) {t : Plant} (ht : G.Holds t)
    (hid : lo ≤ t.id) : ∀ y : Nat, y ∈ t.ids → lo ≤ y := by
  induction ht with
  | @mk root parts get children _ ih =>
    intro y hy
    rw [Plant.ids_mk, List.mem_append, List.mem_flatMap, List.mem_singleton] at hy
    rcases hy with ⟨p, hp, hy⟩ | rfl
    · have hmem : p.id ∈ root.slots.children := children ▸ List.mem_map_of_mem hp
      exact ih p hp (h.le_of_mem_children hF get hid hmem) y hy
    · exact hid

/-! ### Single nodes -/

theorem insert_leaf (h : F.Extends G lo next) (hlo : lo ≤ n.id) (hnew : G.get? n.id = none)
    (hn : n.id < next) (hp : n.parent = none) (hs : n.slots.entries = []) (ha : G.Admits n) :
    F.Extends (G.insert n) lo next where
  below x hx := by
    rw [get?_insert, if_neg (by lia), h.below x hx]
  hung := h.hung.insert_leaf hn hnew hp hs
  plain hF := (h.plain hF).insert_root ha hp

theorem heldBy (h : F.Extends G lo next) (slot : String) (hn : G.get? x = some n) (hx : lo ≤ x)
    {p : Nat} (hp : p < next)
    (hroot : n.parent = none ∨ n.parent = some p ∧ n.parentSlot = some slot)
    (hlit : G.Plain → ∀ m, G.get? p = some m → ¬m.kind.IsLiteral) :
    F.Extends (G.insert (n.heldBy p slot)) lo next where
  below y hy := by
    rw [get?_insert, Node.id_heldBy, id_of_get? hn, if_neg (by lia), h.below y hy]
  hung := h.hung.heldBy slot hn hp hroot
  plain hF := (h.plain hF).heldBy slot hn (hlit (h.plain hF))

/-- A new root above nodes that point at it. -/
theorem insert_above (h : F.Extends G lo next) (hlo : lo ≤ n.id) (hn : n.id < next)
    (hnew : G.get? n.id = none) (hp : n.parent = none) (hs : G.PointsTo n.id n.slots.entries)
    (ha : G.Admits n) : F.Extends (G.insert n) lo next where
  below x hx := by
    rw [get?_insert, if_neg (by lia), h.below x hx]
  hung := by
    refine h.hung.insert hn (by simp [hp]) (by simp [hnew]) fun slot c hc => ?_
    obtain ⟨m, hm, hmp, hms⟩ := hs _ (Slots.get?_eq_some_iff.1 hc)
    refine ⟨m, ?_, hmp, hms⟩
    rw [get?_insert, if_neg, hm]
    rintro rfl
    rw [hnew] at hm
    cases hm
  plain hF := (h.plain hF).insert_root ha hp

/-- A new root above two roots. -/
theorem pair (h : F.Extends G lo next) {a b : Nat} (ha : G.get? a = some m) (hb : G.get? b = some k)
    (hm : m.parent = none) (hk : k.parent = none) (hne : a ≠ b) (hloa : lo ≤ a) (hlob : lo ≤ b)
    {s s' : String} (hn : n.id = next) (hlo : lo ≤ next) (hp : n.parent = none)
    (hs : n.slots.entries = [(s, a), (s', b)]) (hkind : ¬n.kind.IsLiteral) :
    F.Extends (((G.insert (m.heldBy next s)).insert (k.heldBy next s')).insert n) lo
      (next + 1) := by
  obtain rfl : m.id = a := id_of_get? ha
  obtain rfl : k.id = b := id_of_get? hb
  have hmlt := h.hung.lt _ m ha
  have hklt := h.hung.lt _ k hb
  have hnone : G.get? next = none := h.hung.get?_eq_none (Nat.le_refl _)
  have hnone₁ : (G.insert (m.heldBy next s)).get? next = none :=
    (get?_insert_of_ne (n := m.heldBy next s) (Nat.ne_of_gt hmlt)).trans hnone
  have hnone₂ : ((G.insert (m.heldBy next s)).insert (k.heldBy next s')).get? next = none :=
    (get?_insert_of_ne (n := k.heldBy next s') (Nat.ne_of_gt hklt)).trans hnone₁
  have h₁ := (h.mono (Nat.le_succ next)).heldBy s ha hloa (Nat.lt_succ_self next)
    (.inl hm) fun _ j hj => nomatch hnone.symm.trans hj
  have hb₁ : (G.insert (m.heldBy next s)).get? k.id = some k := by
    rw [get?_insert, if_neg (show (m.heldBy next s).id ≠ k.id from hne), hb]
  have h₂ := h₁.heldBy s' hb₁ hlob (Nat.lt_succ_self next) (.inl hk)
    fun _ j hj => nomatch hnone₁.symm.trans hj
  refine h₂.insert_above (by lia) (by lia) (hn ▸ hnone₂) hp ?_ (admits_of_not_literal hkind)
  · rw [hs, hn]
    intro e he
    rcases List.mem_pair.1 he with rfl | rfl
    · refine ⟨m.heldBy next s, ?_, rfl, rfl⟩
      rw [get?_insert, if_neg (show (k.heldBy next s').id ≠ m.id from hne.symm), get?_insert]
      exact if_pos rfl
    · exact ⟨k.heldBy next s', by rw [get?_insert]; exact if_pos rfl, rfl, rfl⟩

end Extends

/-! ### Copies -/

/-- A clone extends a hung forest by a root. -/
theorem Extends.insertClone (h : F.Extends G lo next) (hlo : lo ≤ next) {t u : Plant}
    {locked : Bool} (ht : G.Holds t) (hu : t.CloneOf locked next next' u) (hfree : u.Free)
    (hn : next ≤ next') :
    F.Extends (G.insertAll u.nodes) lo next' := by
  have hfresh : ∀ y ∈ u.ids, G.get? y = none := fun y hy => h.hung.get?_eq_none (hu.le y hy)
  have hpart : ∀ v ∈ u.subs, ∀ p : Nat, v.root.parent = some p → p < next' := by
    intro v hv p hp
    rcases Plant.eq_or_mem_parts hv with rfl | ⟨w, hw, hvw⟩
    · rw [hfree.1] at hp
      cases hp
    · obtain ⟨-, -, hparent, -⟩ := (hu.joined w hw).exists_entry hvw
      rw [hparent, Option.some.injEq] at hp
      exact hp ▸ hu.lt _ (Plant.mem_ids_iff.2 ⟨w, hw, rfl⟩)
  refine ⟨fun x hx => ?_, ⟨fun x n hx => ?_, fun x n hx p hp => ?_, fun x n slot c hx hc => ?_⟩,
    fun hF => ?_⟩
  · rw [get?_insertAll_of_notMem, h.below x hx]
    intro hm
    rw [Plant.map_id_nodes] at hm
    have := hu.le x hm
    lia
  · rcases get?_insertAll_cases hu.nodup hx with ⟨v, hv, rfl, -⟩ | hx
    · exact hu.lt _ (Plant.mem_ids_iff.2 ⟨v, hv, rfl⟩)
    · exact Nat.lt_of_lt_of_le (h.hung.lt x n hx) hn
  · rcases get?_insertAll_cases hu.nodup hx with ⟨v, hv, -, rfl⟩ | hx
    · exact hpart v hv p hp
    · exact Nat.lt_of_lt_of_le (h.hung.parent_lt x n hx p hp) hn
  · rcases get?_insertAll_cases hu.nodup hx with ⟨v, hv, rfl, rfl⟩ | hx
    · obtain ⟨q, hq, rfl, hparent, hslot⟩ := (hu.joined v hv).exists_part (Slots.get?_eq_some_iff.1 hc)
      exact ⟨q.root, get?_insertAll_nodes hu.nodup
        (Plant.mem_subs_trans (Plant.mem_subs_of_mem_parts hq) hv), hparent, hslot⟩
    · obtain ⟨m, hm, hp, hs⟩ := h.hung.held x n slot c hx hc
      exact ⟨m, get?_insertAll_of_get? hfresh hm, hp, hs⟩
  · refine (h.plain hF).insertAll hu.nodup hu.joined hfree.1
      (Plant.plain_of_shape_eq hu.shape (ht.plain (h.plain hF))) fun x m p hm hp hmem => ?_
    exact Nat.not_lt.2 (hu.le p hmem) (h.hung.parent_lt x m hm p hp)

/-- What an edit that adds a root brings: the root has a new id, and the older nodes stay. -/
structure Gains (F G H : Forest) (lo next next' : Nat) (n : Node) : Prop where
  extension : F.Extends H lo next'
  older : ∀ x : Nat, x < next → H.get? x = G.get? x
  le : next ≤ n.id
  get : H.get? n.id = some n
  parent : n.parent = none
  parentSlot : n.parentSlot = none

/-- The nodes of `F` are there in `G`, of the same kinds and with the same parents. -/
def Keeps (F G : Forest) : Prop :=
  ∀ x n, F.get? x = some n → ∃ m, G.get? x = some m ∧ m.parent = n.parent ∧
    m.parentSlot = n.parentSlot ∧ m.kind = n.kind

theorem Keeps.refl (F : Forest) : F.Keeps F := fun _ n hn => ⟨n, hn, rfl, rfl, rfl⟩

theorem Keeps.trans (h : F.Keeps G) (h' : G.Keeps H) : F.Keeps H := by
  intro x n hn
  obtain ⟨m, hm, hp, hs, hkind⟩ := h x n hn
  obtain ⟨k, hk, hp', hs', hkind'⟩ := h' x m hm
  exact ⟨k, hk, hp'.trans hp, hs'.trans hs, hkind'.trans hkind⟩

theorem Keeps.isRoot (h : F.Keeps G) (hx : F.IsRoot x) : G.IsRoot x := by
  obtain ⟨n, hn, hp⟩ := hx
  obtain ⟨m, hm, hp', -⟩ := h x n hn
  exact ⟨m, hm, hp'.trans hp⟩

theorem Keeps.pointsTo (h : F.Keeps G) {entries : List (String × NodeId)}
    (he : F.PointsTo x entries) : G.PointsTo x entries := by
  intro e hmem
  obtain ⟨m, hm, hp, hs⟩ := he e hmem
  obtain ⟨k, hk, hp', hs', -⟩ := h e.2 m hm
  exact ⟨k, hk, hp'.trans hp, hs'.trans hs⟩

/-- Nodes below `next` that stay as they are are kept. -/
theorem Hung.keeps (h : G.Hung next) (hH : ∀ x : Nat, x < next → H.get? x = G.get? x) :
    G.Keeps H :=
  fun x n hn => ⟨n, (hH x (h.lt x n hn)).trans hn, rfl, rfl, rfl⟩

theorem Gains.keeps (h : F.Gains G H lo next next' n) (hG : G.Hung next) : G.Keeps H :=
  hG.keeps h.older

theorem Gains.isRoot (h : F.Gains G H lo next next' n) : H.IsRoot n.id := ⟨n, h.get, h.parent⟩

theorem Hung.pointsTo (h : G.Hung next) (hn : G.get? x = some n) :
    G.PointsTo x n.slots.entries :=
  fun e he => h.held x n e.1 e.2 hn (Slots.get?_eq_some_iff.2 he)

/-- A node may come in the place of one of its kind with the same parent when its children point at
it. -/
theorem Extends.replace (h : F.Extends G lo next) (hm : G.get? n.id = some m) (hlo : lo ≤ n.id)
    (hp : n.parent = m.parent) (hps : n.parentSlot = m.parentSlot) (hkind : n.kind = m.kind)
    (hplain : F.Plain → n.Plain) (hs : G.PointsTo n.id n.slots.entries) :
    F.Extends (G.insert n) lo next ∧ G.Keeps (G.insert n) := by
  refine ⟨⟨fun x hx => ?_, h.hung.insert (h.hung.lt _ m hm) (fun p hp' => ?_) (fun k hk => ?_)
    fun slot c hc => ?_, fun hF => ?_⟩, fun x k hk => ?_⟩
  · rw [get?_insert, if_neg (by lia), h.below x hx]
  · exact h.hung.parent_lt _ m hm p (hp ▸ hp')
  · obtain rfl : m = k := Option.some.inj (hm.symm.trans hk)
    exact .inr ⟨hp.symm, hps.symm⟩
  · obtain ⟨k, hk, hkp, hks⟩ := hs _ (Slots.get?_eq_some_iff.1 hc)
    rw [get?_insert]
    split
    · next e =>
      obtain rfl : m = k := Option.some.inj (hm.symm.trans (e ▸ hk :))
      exact ⟨n, rfl, hp.trans hkp, hps.trans hks⟩
    · exact ⟨k, hk, hkp, hks⟩
  · have hG := h.plain hF
    refine hG.insert_same hm hkind (hplain hF) (fun hs' => ?_) fun p k hp' => ?_
    · exact hp.trans (hG.parentSlots _ m hm (hps ▸ hs'))
    · exact hG.parents _ m p k hm (hp ▸ hp')
  · rw [get?_insert]
    split
    · next e =>
      obtain rfl : m = k := Option.some.inj (hm.symm.trans (e ▸ hk :))
      exact ⟨n, rfl, hp, hps, hkind⟩
    · exact ⟨k, hk, rfl, rfl, rfl⟩

end Forest

/-! ### Edits -/

namespace Editing

variable {F G : Forest} {lo next : Nat}

/-- A part that only reads gives what it reads. -/
theorem read_bind {α β : Type} {x : Except Fault α} {f : α × Forest → Supply Fault β}
    {Q : β → Nat → Prop} (h : ∀ a, x = .ok a → (f (a, G)).Meets next Q fun _ => True) :
    ((liftM x : Editing α).run G >>= f).Meets next Q fun _ => True := by
  refine Meets.bind (Q := fun o next' => next = next' ∧ G = o.2 ∧ x = .ok o.1)
    (meets_lift (fun _ ha => ⟨rfl, rfl, ha⟩) fun _ _ => trivial) ?_
  rintro ⟨a, _⟩ _ - ⟨rfl, rfl, ha⟩
  exact h a ha

theorem find_bind {β : Type} {id : NodeId} {f : Node × Forest → Supply Fault β}
    {Q : β → Nat → Prop} (h : ∀ n, G.get? id = some n → (f (n, G)).Meets next Q fun _ => True) :
    ((find id).run G >>= f).Meets next Q fun _ => True :=
  read_bind (x := G.find id) fun n hn => h n (Forest.find_eq_ok_iff.1 hn)

theorem gains_copy (h : F.Extends G lo next) (hlo : lo ≤ next) (id : NodeId) (locked : Bool) :
    ((copy id locked).run G).Meets next
      (fun o next' => F.Gains G o.2 lo next next' o.1) fun _ => True := by
  show (StateT.run (do
    let c ← (liftM (G.copy id locked) : Editing Copy)
    set c.forest
    return c.root : Editing Node) G).Meets next _ _
  rw [StateT.run_bind]
  refine Meets.bind (Q := fun r next' => ∃ t u : Plant, G.Holds t ∧ r.1.root = u.root ∧
    r.1.forest = G.insertAll u.nodes ∧ t.CloneOf locked next next' u ∧ u.Free) ?_ ?_
  · exact ((G.meets_copy id locked next).imp (fun _ _ _ hc => hc) fun _ _ => trivial).bind
      (f := fun c => pure (c, G)) fun c next' _ ⟨t, u, _, ht, _, hroot, _, hc⟩ =>
        .pure ⟨t, u, ht, hroot, hc⟩
  · rintro ⟨c, _⟩ next' hnext ⟨t, u, ht, hroot, hforest, hu, hfree⟩
    refine .pure ?_
    show F.Gains G c.forest lo next next' c.root
    rw [hroot, hforest]
    refine ⟨h.insertClone hlo ht hu hfree hnext, fun x hx => ?_, hu.le _ u.id_mem_ids,
      Forest.get?_insertAll_nodes hu.nodup u.mem_subs_self, hfree.1, hfree.2⟩
    refine Forest.get?_insertAll_of_notMem fun hm => ?_
    rw [Plant.map_id_nodes] at hm
    have := hu.le x hm
    lia

theorem gains_copyOf (h : F.Extends G lo next) (hlo : lo ≤ next) (id : NodeId) :
    ((copyOf id).run G).Meets next
      (fun o next' => ∃ n, o.1 = n.id ∧ F.Gains G o.2 lo next next' n) fun _ => True := by
  rw [copyOf, StateT.run_bind]
  refine (gains_copy h hlo id false).bind ?_
  rintro ⟨n, H⟩ next' - hn
  exact .pure ⟨n, rfl, hn⟩

/-- Pointing roots and children of a node at its slots, one after the other. -/
theorem extends_attachAll (h : F.Extends G lo next) {holder : Nat} (hp : holder < next)
    (entries : List (String × NodeId)) (hn : (entries.map Prod.snd).Nodup)
    (he : ∀ e ∈ entries, lo ≤ e.2 ∧ ∃ m, G.get? e.2 = some m ∧
      (m.parent = none ∨ m.parent = some holder ∧ m.parentSlot = some e.1))
    (hlit : G.Plain → entries ≠ [] → ∀ m, G.get? holder = some m → ¬m.kind.IsLiteral) :
    ∃ H, (entries.forM fun e => attach e.2 holder e.1).run G = pure ((), H) ∧
      F.Extends H lo next ∧ H.PointsTo holder entries ∧
      (∀ x, x ∉ entries.map Prod.snd → H.get? x = G.get? x) ∧
      ∀ x n, G.get? x = some n → ∃ m, H.get? x = some m ∧ m.kind = n.kind := by
  induction entries generalizing G with
  | nil => exact ⟨G, rfl, h, nofun, fun _ _ => rfl, fun _ n hn => ⟨n, hn, rfl⟩⟩
  | cons e entries ih =>
    rw [List.map_cons, List.nodup_cons] at hn
    obtain ⟨hlo, m, hm, hroot⟩ := he e List.mem_cons_self
    have hother : ∀ x, x ≠ e.2 → (G.insert (m.heldBy holder e.1)).get? x = G.get? x := by
      intro x hx
      rw [Forest.get?_insert, Node.id_heldBy, Forest.id_of_get? hm, if_neg hx.symm]
    have hself : (G.insert (m.heldBy holder e.1)).get? e.2 = some (m.heldBy holder e.1) := by
      rw [Forest.get?_insert, Node.id_heldBy, Forest.id_of_get? hm, if_pos rfl]
    obtain ⟨H, hrun, hH, hpoints, hsame, hkinds⟩ :=
      ih (h.heldBy e.1 hm hlo hp hroot fun hG => hlit hG (List.cons_ne_nil _ _)) hn.2
        (fun e' he' => by
          rw [hother e'.2 fun heq => hn.1 (heq ▸ List.mem_map_of_mem he')]
          exact he e' (List.mem_cons_of_mem _ he'))
        fun hG _ k hk => hG.parents _ _ _ k hself rfl hk
    refine ⟨H, ?_, hH, fun e' he' => ?_, fun x hx => ?_, fun x n hx => ?_⟩
    · show (attach e.2 holder e.1 >>= fun _ =>
        entries.forM fun e => attach e.2 holder e.1).run G = _
      rw [StateT.run_bind, run_attach hm, pure_bind, hrun]
    · rcases List.mem_cons.1 he' with rfl | he'
      · exact ⟨m.heldBy holder e'.1, (hsame _ hn.1).trans hself, rfl, rfl⟩
      · exact hpoints e' he'
    · rw [List.map_cons, List.mem_cons, not_or] at hx
      rw [hsame x hx.2, hother x hx.1]
    · by_cases hxe : x = e.2
      · obtain rfl : m = n := Option.some.inj (hm.symm.trans (hxe ▸ hx))
        exact hxe ▸ hkinds e.2 (m.heldBy holder e.1) hself
      · exact hkinds x n ((hother x hxe).trans hx)

end Editing

/-! ### Revisions -/

/-- Each edit of a node leaves its links as they are or adds a root instead. -/
def Editing.Extending (edit : Node → Editing Node) (F : Forest) (lo : Nat) : Prop :=
  ∀ n G next, lo ≤ next → F.Extends G lo next →
    ((edit n).run G).Meets next
      (fun o next' => o.2 = G ∧ o.1.id = n.id ∧ o.1.parent = n.parent ∧
          o.1.parentSlot = n.parentSlot ∧ o.1.slots = n.slots ∧ o.1.kind = n.kind ∧
          (n.Plain → o.1.Plain) ∨
        F.Gains G o.2 lo next next' o.1)
      fun _ => True

namespace Revision

variable {r : Revision} {F G : Forest} {lo next : Nat}

/-- The slots of a node with other children hold each child where one it is related to was. -/
theorem exists_entry_of_withChildren {R : NodeId → NodeId → Prop} {s : Slots} {cs : List NodeId}
    (h : List.Forall₂ R s.children cs) {e : String × NodeId}
    (he : e ∈ (s.withChildren cs).entries) : ∃ c, (e.1, c) ∈ s.entries ∧ R c e.2 := by
  unfold Slots.withChildren Slots.names at he
  unfold Slots.children at h
  dsimp only at he
  generalize s.entries = entries at h he
  induction entries generalizing cs with
  | nil => simp at he
  | cons e' entries ih =>
    cases h with
    | cons hr hrest =>
      rw [List.map_cons, List.zip_cons_cons, List.mem_cons] at he
      rcases he with rfl | he
      · exact ⟨e'.2, List.mem_cons_self, hr⟩
      · obtain ⟨c, hc, hrc⟩ := ih hrest he
        exact ⟨c, List.mem_cons_of_mem _ hc, hrc⟩

/-- Pointing what the children of a node have become at its slots keeps the parents of the nodes
there were. -/
theorem exists_run_relink {H : Forest} {mid : Nat} {x : Nat} {n n' : Node} {cs : List NodeId}
    (h : F.Extends G lo next) (hlo : lo ≤ next) (hn : G.get? x = some n) (hx : lo ≤ x)
    (hF : F.Hung lo) (hH : F.Extends H lo mid) (hkeeps : G.Keeps H)
    (hcs : List.Forall₂ (fun c c' => c' = c ∨ next ≤ c' ∧ H.IsRoot c') n.slots.children cs)
    (hnodup : cs.Nodup) (hid : n'.id = x) (hslots : n'.slots = n.slots.withChildren cs) :
    ∃ J, (n'.slots.entries.forM fun e => Editing.attach e.2 n'.id e.1).run H = pure ((), J) ∧
      F.Extends J lo mid ∧ G.Keeps J ∧ J.PointsTo n'.id n'.slots.entries := by
  have hchildren : n'.slots.children = cs := by
    rw [hslots, Slots.children_withChildren]
    rw [← hcs.length_eq, Slots.length_children]
  -- a child is the one that was in its slot before, or a new root
  have hcases : ∀ e ∈ n'.slots.entries, (∃ m, G.get? e.2 = some m ∧ m.parent = some x ∧
      m.parentSlot = some e.1) ∨ next ≤ e.2 ∧ H.IsRoot e.2 := by
    intro e he
    obtain ⟨c, hc, rfl | hnew⟩ := exists_entry_of_withChildren hcs (hslots ▸ he)
    · exact .inl (h.hung.held x n _ _ hn (Slots.get?_eq_some_iff.2 hc))
    · exact .inr hnew
  obtain ⟨m, hm, -⟩ := hkeeps x n hn
  -- a node that holds something has a child that names it, also after the children were revised
  have hlit : H.Plain → n'.slots.entries ≠ [] → ∀ m, H.get? n'.id = some m →
      ¬m.kind.IsLiteral := by
    intro hplain hne m hm
    have hcs' : cs ≠ [] := by
      rw [← hchildren]
      exact fun e => hne (List.map_eq_nil_iff.1 e)
    obtain ⟨c, hc⟩ := List.exists_mem_of_ne_nil n.slots.children fun e => by
      rw [e, List.forall₂_nil_left_iff] at hcs
      exact hcs' hcs
    obtain ⟨k, hk, hp⟩ := h.hung.exists_child hn hc
    obtain ⟨k', hk', hp', -⟩ := hkeeps c k hk
    exact hplain.parents c k' x m hk' (hp'.trans hp) (hid ▸ hm)
  obtain ⟨J, hrun, hJ, hpoints, hsame, hkinds⟩ := Editing.extends_attachAll hH
    (hid ▸ hH.hung.lt x m hm : n'.id < mid) n'.slots.entries (hchildren ▸ hnodup :) (fun e he => by
      rcases hcases e he with ⟨m, hm, hp, hs⟩ | ⟨hle, m, hm, hp⟩
      · obtain ⟨k, hk, hkp, hks, -⟩ := hkeeps _ m hm
        have hmem : e.2 ∈ n'.slots.children := List.mem_map_of_mem he
        refine ⟨?_, k, hk, .inr ⟨by rw [hkp, hp, hid], hks.trans hs⟩⟩
        by_contra hlt
        rw [h.below _ (Nat.lt_of_not_le hlt)] at hm
        exact Nat.not_lt.2 hx (hF.parent_lt _ m hm x hp)
      · exact ⟨by lia, m, hm, .inl hp⟩) hlit
  refine ⟨J, hrun, hJ, fun y k hy => ?_, hpoints⟩
  by_cases hmem : y ∈ n'.slots.entries.map Prod.snd
  · obtain ⟨e, he, rfl⟩ := List.mem_map.1 hmem
    obtain ⟨j, hj, hjp, hjs⟩ := hpoints e he
    rcases hcases e he with ⟨m, hm, hp, hs⟩ | ⟨hle, -⟩
    · obtain rfl : k = m := Option.some.inj (hy.symm.trans hm)
      obtain ⟨k', hk', -, -, hkind⟩ := hkeeps _ k hy
      obtain ⟨j', hj', hkind'⟩ := hkinds _ k' hk'
      obtain rfl : j = j' := Option.some.inj (hj.symm.trans hj')
      exact ⟨j, hj, by rw [hjp, hp, hid], hjs.trans hs.symm, hkind'.trans hkind⟩
    · have := h.hung.lt _ k hy
      lia
  · rw [hsame y hmem]
    exact hkeeps y k hy

/-- Going to some depth below a new id leaves a subtree where it stands or gives a root of a newer id,
and no node gets another parent. -/
def Extending (r : Revision) (F : Forest) (lo depth : Nat) : Prop :=
  ∀ (G : Forest) (next id : Nat) (edited : List NodeId), lo ≤ id → lo ≤ next → F.Extends G lo next →
    (((r.runTo depth id).run edited).run G).Meets next
      (fun o next' => F.Extends o.2 lo next' ∧ G.Keeps o.2 ∧
        ((∃ n, G.get? id = some n) ∧ o.1.1 = id ∨ next ≤ o.1.1 ∧ o.2.IsRoot o.1.1))
      fun _ => True

/-- Subtrees are revised one after the other, each to an id of its own. -/
theorem Extending.mapM {depth : Nat} (hr : r.Extending F lo depth) {cs : List NodeId}
    (edited : List NodeId) (hlo : lo ≤ next) (hG : F.Extends G lo next)
    (hcs : ∀ c : Nat, c ∈ cs → lo ≤ c ∧ c < next) (hn : cs.Nodup) :
    (((cs.mapM fun child => r.runTo depth child).run edited).run G).Meets next
      (fun o next' => F.Extends o.2 lo next' ∧ G.Keeps o.2 ∧
        List.Forall₂ (fun c c' => c' = c ∨ next ≤ c' ∧ o.2.IsRoot c') cs o.1.1 ∧
        o.1.1.Nodup)
      fun _ => True := by
  induction cs generalizing G next edited with
  | nil => exact .pure ⟨hG, .refl G, .nil, .nil⟩
  | cons c cs ih =>
    rw [List.nodup_cons] at hn
    rw [List.mapM_cons, StateT.run_bind, StateT.run_bind]
    refine (hr G next c edited (hcs c List.mem_cons_self).1 hlo hG).bind ?_
    rintro ⟨⟨c', edited⟩, H⟩ mid hmid ⟨hH, hkeeps, hc'⟩
    dsimp only at hc' ⊢
    rw [StateT.run_bind, StateT.run_bind]
    refine (ih edited (by lia) hH (fun d hd => ?_) hn.2).bind ?_
    · have := hcs d (List.mem_cons_of_mem _ hd)
      exact ⟨this.1, by lia⟩
    rintro ⟨⟨cs', edited'⟩, I⟩ next' hnext ⟨hI, hkeeps', hcs', hn'⟩
    have hstay : ∀ d, H.IsRoot d → I.IsRoot d := fun d hd => hkeeps'.isRoot hd
    refine .pure ⟨hI, hkeeps.trans hkeeps', .cons ?_ ?_, List.nodup_cons.2 ⟨fun hmem => ?_, hn'⟩⟩
    · exact hc'.imp And.right fun ⟨hle, hroot⟩ => ⟨hle, hstay _ hroot⟩
    · refine hcs'.imp ?_
      rintro d d' (rfl | ⟨hle, hroot⟩)
      · exact .inl rfl
      · exact .inr ⟨by lia, hroot⟩
    · -- the first result was there before the others were made
      obtain ⟨d, hd, hd'⟩ := exists_mem_of_forall₂ (List.Forall₂.flip hcs') hmem
      have hlt : c' < mid := by
        rcases hc' with ⟨-, rfl⟩ | ⟨-, n, hn, -⟩
        · have := (hcs c' List.mem_cons_self).2
          lia
        · exact hH.hung.lt _ n hn
      have hdlt := (hcs d (List.mem_cons_of_mem _ hd)).2
      rcases hd' with rfl | ⟨hle, -⟩
      · rcases hc' with ⟨-, rfl⟩ | ⟨hle, -⟩
        · exact hn.1 hd
        · lia
      · lia

/-- A revision by edits that leave links as they are or add roots extends a forest, at any depth. -/
theorem extending (hF : F.Hung lo) (hr : Editing.Extending r.edit F lo) (depth : Nat) :
    r.Extending F lo depth := by
  induction depth with
  | zero => exact fun _ _ _ _ _ _ _ => .throw trivial
  | succ depth ih =>
    intro G next id edited hid hlo h
    simp only [runTo, StateT.run_bind, liftM, StateT.run_monadLift, monadLift_self, bind_assoc]
    refine Editing.find_bind fun n hn => ?_
    simp only [StateT.run_pure, pure_bind]
    split
    · have hchildren : ∀ c : Nat, c ∈ n.slots.children → lo ≤ c ∧ c < next := by
        intro c hc
        obtain ⟨m, hm, -⟩ := h.hung.exists_child hn hc
        exact ⟨h.le_of_mem_children hF hn hid hc, h.hung.lt c m hm⟩
      simp only [StateT.run_bind, StateT.run_monadLift, monadLift_self]
      refine (ih.mapM edited hlo h hchildren (h.hung.nodup_children hn)).bind ?_
      rintro ⟨⟨cs, edited'⟩, H⟩ mid hmid ⟨hH, hkeeps, hcs, hnodup⟩
      dsimp only
      rw [bind_assoc]
      refine (hr _ H mid (by lia) hH).bind ?_
      rintro ⟨n', I⟩ next' hnext hedit
      simp only [run_forM_lift, StateT.run_pure, pure_bind, Editing.run_insert, bind_assoc,
        StateT.run_modify, StateT.run_bind]
      rcases hedit with ⟨rfl, hid', hp, hps, hslots, hkind, hplain⟩ | hgains
      · have hid'' : n'.id = id := (show n'.id = n.id from hid').trans (Forest.id_of_get? hn)
        obtain ⟨J, hrun, hJ, hkeepsJ, hpoints⟩ := exists_run_relink h hlo hn hid hF hH hkeeps hcs
          hnodup hid'' hslots
        obtain ⟨m, hm, hmp, hms, hmk⟩ := hkeepsJ id n hn
        have hplain' : F.Plain → n'.Plain := fun hplainF => hplain <|
          ((h.plain hplainF).nodes id n hn).congr rfl rfl
            (Slots.names_withChildren (by rw [← hcs.length_eq, Slots.length_children]))
        obtain ⟨hext, hkeepsK⟩ := hJ.replace (n := n') (hid''.symm ▸ hm) (hid''.symm ▸ hid)
          (hp.trans hmp.symm) (hps.trans hms.symm) (hkind.trans hmk.symm) hplain' hpoints
        rw [hrun, pure_bind]
        exact .pure ⟨hext.mono hnext, hkeepsJ.trans hkeepsK, .inl ⟨⟨n, hn⟩, hid''⟩⟩
      · have hroot := hgains.extension.hung.pointsTo hgains.get
        rw [Editing.run_attachAll_self hroot, pure_bind]
        refine .pure ⟨?_, ?_, .inr ⟨?_, ?_⟩⟩
        · rw [Forest.insert_of_get? hgains.get]
          exact hgains.extension
        · rw [Forest.insert_of_get? hgains.get]
          exact hkeeps.trans (hgains.keeps hH.hung)
        · exact Nat.le_trans hmid hgains.le
        · rw [Forest.insert_of_get? hgains.get]
          exact hgains.isRoot
    · exact .pure ⟨h, .refl _, .inl ⟨⟨n, hn⟩, rfl⟩⟩

end Revision

end TermForest
