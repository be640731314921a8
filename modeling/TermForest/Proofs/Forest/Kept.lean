import TermForest.Proofs.Forest.Change
import TermForest.Proofs.Rule.Edits

/-!
# Kept forests

A kept forest is linked, has a list of its roots, and locks the trees of some of them, the
definitions. It stays kept through the changes of linked forests, and the lists change with it.
-/

namespace TermForest

namespace Forest

/-- A linked forest of formed nodes holds a plant at every node. -/
theorem Linked.stocked {F : Forest} {next : Nat} (h : F.Linked)
    (hlt : ∀ (x : Nat) n, F.get? x = some n → x < next)
    (hformed : ∀ x n, F.get? x = some n → n.Formed next) : F.Stocked next := by
  intro x n hx
  obtain ⟨t, rfl, ht, -, hnodup, hids⟩ := h.exists_plant hx
  refine ⟨t, rfl, ht, hnodup, ?_, fun m hm => hformed _ m (ht.get?_of_mem_nodes hm)⟩
  intro y hy
  obtain ⟨j, hj⟩ := (hids y).1 hy
  obtain ⟨m, hm⟩ := hj.exists_start
  exact hlt y m hm

/-- A linked forest of ids from 1 up to but not including `next`. Its nodes without a parent are the
roots, each listed once; a node is locked when its root is among the definitions; and every node
satisfies `P`. -/
structure Kept (P : Node → Prop) (F : Forest) (roots defs : List NodeId) (next : Nat) : Prop where
  linked : F.Linked
  pos : ∀ (x : Nat) n, F.get? x = some n → 1 ≤ x
  lt : ∀ (x : Nat) n, F.get? x = some n → x < next
  nodup : roots.Nodup
  mem_roots_iff : ∀ r, r ∈ roots ↔ F.IsRoot r
  defs_subset : defs ⊆ roots
  defines : ∀ r ∈ defs, ∃ n, F.get? r = some n ∧ n.kind = .define
  locked_iff : ∀ x n r, F.get? x = some n → F.RootOf x r → (n.locked = true ↔ r ∈ defs)
  nodes : ∀ x n, F.get? x = some n → P n

namespace Kept

variable {P Q : Node → Prop} {F : Forest} {roots roots' defs defs' : List NodeId} {next next' : Nat}
  {x a r : NodeId} {t u : Plant}

theorem imp (h : F.Kept P roots defs next) (hn : next ≤ next') (hPQ : ∀ n, P n → Q n) :
    F.Kept Q roots defs next' where
  linked := h.linked
  pos := h.pos
  lt x n hx := Nat.lt_of_lt_of_le (h.lt x n hx) hn
  nodup := h.nodup
  mem_roots_iff := h.mem_roots_iff
  defs_subset := h.defs_subset
  defines := h.defines
  locked_iff := h.locked_iff
  nodes x n hx := hPQ n (h.nodes x n hx)

theorem empty (P : Node → Prop) (next : Nat) : (∅ : Forest).Kept P [] [] next where
  linked := linked_empty
  pos x n hx := by simp at hx
  lt x n hx := by simp at hx
  nodup := .nil
  mem_roots_iff r := by simp [IsRoot]
  defs_subset := List.Subset.refl _
  defines := nofun
  locked_iff x n r hx := by simp at hx
  nodes x n hx := by simp at hx

/-- Lists of the same roots and definitions are as good. -/
theorem relist (h : F.Kept P roots defs next) (hnodup : roots'.Nodup)
    (hroots : ∀ r, r ∈ roots' ↔ r ∈ roots) (hdefs : ∀ r, r ∈ defs' ↔ r ∈ defs) :
    F.Kept P roots' defs' next where
  linked := h.linked
  pos := h.pos
  lt := h.lt
  nodup := hnodup
  mem_roots_iff r := (hroots r).trans (h.mem_roots_iff r)
  defs_subset r hr := (hroots r).2 (h.defs_subset ((hdefs r).1 hr))
  defines r hr := h.defines r ((hdefs r).1 hr)
  locked_iff x n r hx hr := (h.locked_iff x n r hx hr).trans (hdefs r).symm
  nodes := h.nodes

theorem mono (h : F.Kept (Node.Formed next) roots defs next) (hn : next ≤ next') :
    F.Kept (Node.Formed next') roots defs next' :=
  h.imp hn fun _ hf => hf.mono hn

/-! ### Trees -/

theorem exists_plant (h : F.Kept (Node.Formed next) roots defs next) {n : Node}
    (hx : F.get? x = some n) :
    ∃ t : Plant, t.root = n ∧ F.Holds t ∧ t.Joined ∧ t.ids.Nodup ∧
      (∀ y, y ∈ t.ids ↔ ∃ j, F.Ascends y j x) ∧ t.Formed next := by
  obtain ⟨t, rfl, ht, hj, hnodup, hids⟩ := h.linked.exists_plant hx
  exact ⟨t, rfl, ht, hj, hnodup, hids, fun m hm => h.nodes _ m (ht.get?_of_mem_nodes hm)⟩

theorem exists_idsUnder (h : F.Kept (Node.Formed next) roots defs next) {n : Node}
    (hx : F.get? x = some n) : ∃ ids, F.idsUnder x = .ok ids := by
  obtain ⟨t, rfl, ht, -, hnodup, -⟩ := h.exists_plant hx
  obtain rfl := id_of_get? hx
  exact ⟨t.ids, ht.idsUnder hnodup⟩

theorem stocked (h : F.Kept (Node.Formed next) roots defs next) : F.Stocked next :=
  h.linked.stocked h.lt h.nodes

theorem exists_rootOf (h : F.Kept P roots defs next) {n : Node} (hx : F.get? x = some n) :
    ∃ r ∈ roots, F.RootOf x r := by
  obtain ⟨r, hr⟩ := h.linked.rooted x n hx
  exact ⟨r, (h.mem_roots_iff r).2 hr.1, hr⟩

theorem exists_root (h : F.Kept P roots defs next) (hr : r ∈ roots) :
    ∃ n, F.get? r = some n ∧ n.parent = none ∧ n.parentSlot = none := by
  obtain ⟨n, hn, hp⟩ := (h.mem_roots_iff r).1 hr
  refine ⟨n, hn, hp, ?_⟩
  have := h.linked.parentSlot r n hn
  rw [hp] at this
  simpa using this

theorem rootOf_self (h : F.Kept P roots defs next) (hr : r ∈ roots) : F.RootOf r r := by
  obtain ⟨n, hn, hp, -⟩ := h.exists_root hr
  exact ⟨⟨n, hn, hp⟩, 0, .refl hn⟩

theorem rootOf_eq (h : F.Kept P roots defs next) {n : Node} (hx : F.get? x = some n) :
    ∃ r ∈ roots, F.RootOf x r ∧ F.rootOf x = .ok r := by
  obtain ⟨r, hr, hroot⟩ := h.exists_rootOf hx
  exact ⟨r, hr, hroot, hroot.rootOf_eq⟩

theorem one_le (h : F.Kept P roots defs next) {n : Node} (hx : F.get? x = some n) : 1 ≤ next :=
  Nat.le_of_lt (Nat.lt_of_le_of_lt (h.pos x n hx) (h.lt x n hx))

/-- Ids that are not handed out yet have no node. -/
theorem get?_eq_none (h : F.Kept P roots defs next) {y : Nat} (hy : next ≤ y) : F.get? y = none := by
  rw [Option.eq_none_iff_forall_ne_some]
  exact fun n hn => absurd (h.lt y n hn) (Nat.not_lt.2 hy)

/-! ### Changes -/

/-- A plant of new nodes with one lock brings in its root, which is a definition if it is locked. -/
theorem insertAll (h : F.Kept (Node.Formed next) roots defs next) {locked : Bool} (hj : u.Joined)
    (hn : u.ids.Nodup) (hfree : u.Free) (hpos : 1 ≤ next) (hle : ∀ y : Nat, y ∈ u.ids → next ≤ y)
    (hlt : ∀ y : Nat, y ∈ u.ids → y < next') (hnext : next ≤ next') (hf : u.Formed next')
    (hl : ∀ n ∈ u.nodes, n.locked = locked) (hk : locked = true → u.root.kind = .define)
    (hnodup : roots'.Nodup) (hroots : ∀ r, r ∈ roots' ↔ r = u.id ∨ r ∈ roots)
    (hdefs : ∀ r, r ∈ defs' ↔ r ∈ defs ∨ locked = true ∧ r = u.id) :
    (F.insertAll u.nodes).Kept (Node.Formed next') roots' defs' next' := by
  have hfresh : ∀ y ∈ u.ids, F.get? y = none := fun y hy => h.get?_eq_none (hle y hy)
  have hheld := holds_insertAll (F := F) hj hn
  have hinside : ∀ v ∈ u.subs, (F.insertAll u.nodes).RootOf v.id u.id := fun v hv =>
    hheld.rootOf hj hfree (Plant.mem_ids_iff.2 ⟨v, hv, rfl⟩)
  have hout : u.id ∉ roots := fun hr => by
    obtain ⟨n, hn, -⟩ := h.exists_root hr
    rw [hfresh _ u.id_mem_ids] at hn
    cases hn
  constructor
  case linked => exact h.linked.insertAll hn hfresh hj hfree
  case pos =>
    intro x n hx
    rcases get?_insertAll_cases hn hx with ⟨v, hv, rfl, -⟩ | hx
    · exact Nat.le_trans hpos (hle _ (Plant.mem_ids_iff.2 ⟨v, hv, rfl⟩))
    · exact h.pos x n hx
  case lt =>
    intro x n hx
    rcases get?_insertAll_cases hn hx with ⟨v, hv, rfl, -⟩ | hx
    · exact hlt _ (Plant.mem_ids_iff.2 ⟨v, hv, rfl⟩)
    · exact Nat.lt_of_lt_of_le (h.lt x n hx) hnext
  case nodup => exact hnodup
  case mem_roots_iff =>
    intro r
    rw [hroots, h.mem_roots_iff]
    constructor
    · rintro (rfl | ⟨n, hr, hp⟩)
      · exact (hinside u u.mem_subs_self).1
      · exact ⟨n, get?_insertAll_of_get? hfresh hr, hp⟩
    · intro hr
      obtain ⟨n, hget, hp⟩ := hr
      rcases get?_insertAll_cases hn hget with ⟨v, hv, rfl, rfl⟩ | hget
      · obtain ⟨-, k, hk⟩ := hinside v hv
        exact .inl (hk.eq_zero_of_isRoot ⟨_, get?_insertAll_nodes hn hv, hp⟩).2.symm
      · exact .inr ⟨n, hget, hp⟩
  case defs_subset =>
    intro r hr
    rcases (hdefs r).1 hr with hr | ⟨-, rfl⟩
    · exact (hroots r).2 (.inr (h.defs_subset hr))
    · exact (hroots _).2 (.inl rfl)
  case defines =>
    intro r hr
    rcases (hdefs r).1 hr with hr | ⟨hlock, rfl⟩
    · obtain ⟨n, hn, hk⟩ := h.defines r hr
      exact ⟨n, get?_insertAll_of_get? hfresh hn, hk⟩
    · exact ⟨u.root, hheld.get?_id, hk hlock⟩
  case locked_iff =>
    intro x n r hx hr
    rcases get?_insertAll_cases hn hx with ⟨v, hv, rfl, rfl⟩ | hx
    · obtain rfl := hr.unique (hinside v hv)
      rw [hl _ (Plant.mem_nodes_iff.2 ⟨v, hv, rfl⟩), hdefs]
      simp [mt (@h.defs_subset u.id) hout]
    · obtain ⟨r', hr', hroot⟩ := h.exists_rootOf hx
      obtain rfl := hr.unique (hroot.insertAll hfresh)
      rw [h.locked_iff x n r hx hroot, hdefs]
      simp [show r ≠ u.id from fun e => hout (e ▸ hr')]
  case nodes =>
    intro x n hx
    rcases get?_insertAll_cases hn hx with ⟨v, hv, -, rfl⟩ | hx
    · exact hf _ (Plant.mem_nodes_iff.2 ⟨v, hv, rfl⟩)
    · exact (h.nodes x n hx).mono hnext

/-- Dropping a tree drops its root. -/
theorem eraseAll (h : F.Kept P roots defs next) (ha : a ∈ roots)
    (hids : ∀ y, y ∈ t.ids ↔ ∃ j, F.Ascends y j a) (hnodup : roots'.Nodup)
    (hroots : ∀ r, r ∈ roots' ↔ r ∈ roots ∧ r ≠ a) (hdefs : ∀ r, r ∈ defs' ↔ r ∈ defs ∧ r ≠ a) :
    (F.eraseAll t.ids).Kept P roots' defs' next := by
  have hroot := (h.mem_roots_iff a).1 ha
  have hkeep : ∀ {x : NodeId} {n : Node}, (F.eraseAll t.ids).get? x = some n →
      F.get? x = some n := fun hx => (get?_eraseAll_eq_some_iff.1 hx).2
  have hstay : ∀ {r : NodeId} {n : Node}, r ∈ roots → r ≠ a → F.get? r = some n →
      (F.eraseAll t.ids).get? r = some n := by
    intro r n hr hne hn
    refine get?_eraseAll_eq_some_iff.2 ⟨fun hmem => hne ?_, hn⟩
    obtain ⟨j, hj⟩ := (hids r).1 hmem
    exact (hj.eq_zero_of_isRoot ((h.mem_roots_iff r).1 hr)).2.symm
  have hgone : ∀ {n : Node}, (F.eraseAll t.ids).get? a ≠ some n := fun ha =>
    (get?_eraseAll_eq_some_iff.1 ha).1 ((hids a).2 ⟨0, .refl hroot.choose_spec.1⟩)
  constructor
  case linked => exact h.linked.eraseAll hroot hids
  case pos => exact fun x n hx => h.pos x n (hkeep hx)
  case lt => exact fun x n hx => h.lt x n (hkeep hx)
  case nodup => exact hnodup
  case mem_roots_iff =>
    intro r
    rw [hroots, h.mem_roots_iff]
    constructor
    · rintro ⟨⟨n, hn, hp⟩, hne⟩
      exact ⟨n, hstay ((h.mem_roots_iff r).2 ⟨n, hn, hp⟩) hne hn, hp⟩
    · rintro ⟨n, hn, hp⟩
      exact ⟨⟨n, hkeep hn, hp⟩, fun e => hgone (e ▸ hn)⟩
  case defs_subset =>
    intro r hr
    obtain ⟨hr, hne⟩ := (hdefs r).1 hr
    exact (hroots r).2 ⟨h.defs_subset hr, hne⟩
  case defines =>
    intro r hr
    obtain ⟨hr, hne⟩ := (hdefs r).1 hr
    obtain ⟨n, hn, hk⟩ := h.defines r hr
    exact ⟨n, hstay (h.defs_subset hr) hne hn, hk⟩
  case locked_iff =>
    intro x n r hx hr
    obtain ⟨r', hr', hroot'⟩ := h.exists_rootOf (hkeep hx)
    have hne : r' ≠ a := by
      rintro rfl
      exact (get?_eraseAll_eq_some_iff.1 hx).1 ((hids x).2 hroot'.2)
    obtain rfl := hr.unique (hroot'.eraseAll hroot hids hne)
    rw [h.locked_iff x n r (hkeep hx) hroot', hdefs]
    simp [hne]
  case nodes => exact fun x n hx => h.nodes x n (hkeep hx)

theorem eraseAll_filter (h : F.Kept P roots defs next) (ha : a ∈ roots)
    (hids : ∀ y, y ∈ t.ids ↔ ∃ j, F.Ascends y j a) :
    (F.eraseAll t.ids).Kept P (roots.filter (· ≠ a)) (defs.filter (· ≠ a)) next :=
  h.eraseAll ha hids (h.nodup.filter _) (by simp) (by simp)

/-- Exchanging a child for a root that is no definition exchanges the roots. -/
theorem exchange (h : F.Kept (Node.Formed next) roots defs next) {p n n' : Node} {slot : String}
    (e : F.Exchangeable p slot n n' r) (hr : r ∉ defs) (hn' : n'.id ∉ defs)
    (hnodup : roots'.Nodup) (hroots : ∀ x, x ∈ roots' ↔ x = n.id ∨ x ∈ roots ∧ x ≠ n'.id) :
    (F.exchange p slot n n').Kept (Node.Formed next) roots' defs next := by
  have hn : n.id ∉ roots := by
    intro hmem
    obtain ⟨m, hm, hp, -⟩ := h.exists_root hmem
    rw [e.child, Option.some.injEq] at hm
    rw [← hm, e.parent] at hp
    cases hp
  constructor
  case linked => exact e.linked_exchange h.linked
  case pos =>
    intro x m hx
    obtain ⟨m₀, hm₀, -⟩ := e.frame_of_get?_exchange h.linked hx
    exact h.pos x m₀ hm₀
  case lt =>
    intro x m hx
    obtain ⟨m₀, hm₀, -⟩ := e.frame_of_get?_exchange h.linked hx
    exact h.lt x m₀ hm₀
  case nodup => exact hnodup
  case mem_roots_iff =>
    intro x
    rw [hroots, e.isRoot_exchange_iff h.linked, h.mem_roots_iff]
  case defs_subset =>
    intro x hx
    exact (hroots x).2 (.inr ⟨h.defs_subset hx, fun hxn => hn' (hxn ▸ hx)⟩)
  case defines =>
    intro x hx
    obtain ⟨m, hm, hk⟩ := h.defines x hx
    have hxn : x ≠ n.id := fun hxn => hn (hxn ▸ h.defs_subset hx)
    have hxn' : x ≠ n'.id := fun hxn => hn' (hxn ▸ hx)
    obtain ⟨m', hm', -⟩ := e.get?_exchange_of_ne hm hxn hxn'
    obtain ⟨m₀, hm₀, hk', -⟩ := e.frame_of_get?_exchange h.linked hm'
    rw [hm, Option.some.injEq] at hm₀
    exact ⟨m', hm', hk'.trans (hm₀ ▸ hk)⟩
  case locked_iff =>
    intro x m r' hx hr'
    obtain ⟨m₀, hm₀, -, -, -, hl⟩ := e.frame_of_get?_exchange h.linked hx
    obtain ⟨r₀, hr₀, hroot⟩ := h.exists_rootOf hm₀
    have hiff := h.locked_iff x m₀ r₀ hm₀ hroot
    rw [hl, hiff]
    obtain ⟨-, h'⟩ | ⟨rfl, h'⟩ | ⟨rfl, h'⟩ := e.rootOf_exchange h.linked hroot
    · rw [hr'.unique h']
    · rw [hr'.unique h']
      exact iff_of_false hr fun hmem => hn (h.defs_subset hmem)
    · rw [hr'.unique h']
      exact iff_of_false hn' hr
  case nodes =>
    intro x m hx
    obtain ⟨m₀, hm₀, hk, hf, hs, -⟩ := e.frame_of_get?_exchange h.linked hx
    exact (h.nodes x m₀ hm₀).congr hk hf hs

end Kept

end Forest

end TermForest
