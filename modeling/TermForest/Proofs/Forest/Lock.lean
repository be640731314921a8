import TermForest.Proofs.Forest.Kept

/-!
# Locking a tree

Locks are no part of how nodes hang together, so a forest stays linked when some nodes are locked.
Locking the tree of a definition makes its root one of the definitions.
-/

namespace TermForest

namespace Forest

/-- `G` is `F` with the nodes of some ids locked. -/
def Locks (F G : Forest) (ids : List NodeId) : Prop :=
  ∀ x, G.get? x = (F.get? x).map fun n => if x ∈ ids then { n with locked := true } else n

variable {F G H : Forest} {ids : List NodeId} {x r : NodeId} {n : Node}

theorem Locks.refl (F : Forest) : F.Locks F [] := fun x => by simp

/-- Locking one more node. -/
theorem Locks.cons (h : (F.insert { n with locked := true }).Locks G ids)
    (hn : F.get? x = some n) : F.Locks G (x :: ids) := by
  intro y
  obtain rfl := id_of_get? hn
  rw [h y, get?_insert]
  by_cases hy : n.id = y
  · subst hy
    simp [hn]
  · have hy' : y ≠ n.id := fun e => hy e.symm
    simp [hy, hy']

/-- Locking some nodes and then others. -/
theorem Locks.trans {ids' : List NodeId} (h : F.Locks G ids) (h' : G.Locks H ids') :
    F.Locks H (ids ++ ids') := by
  intro x
  rw [h' x, h x, Option.map_map]
  congr 1
  funext n
  by_cases hx : x ∈ ids <;> by_cases hx' : x ∈ ids' <;> simp [hx, hx']

theorem Locks.get?_of_get? (h : F.Locks G ids) (hn : F.get? x = some n) :
    G.get? x = some (if x ∈ ids then { n with locked := true } else n) := by
  rw [h x, hn, Option.map_some]

/-- A node of the one forest differs at most by its lock from the one of the other. -/
theorem Locks.of_get? (h : F.Locks G ids) {m : Node} (hm : G.get? x = some m) :
    ∃ n, F.get? x = some n ∧ m = { n with locked := if x ∈ ids then true else n.locked } := by
  rw [h x, Option.map_eq_some_iff] at hm
  obtain ⟨n, hn, rfl⟩ := hm
  refine ⟨n, hn, ?_⟩
  split <;> rfl

theorem Locks.exists_get?_iff (h : F.Locks G ids) :
    (∃ m, G.get? x = some m) ↔ ∃ n, F.get? x = some n := by
  rw [← Option.isSome_iff_exists, ← Option.isSome_iff_exists, h x, Option.isSome_map]

/-- Locks are no part of a shape. -/
theorem Locks.exists_holds {t : Plant} (h : F.Locks G ids) (ht : F.Holds t) :
    ∃ u : Plant, G.Holds u ∧ u.id = t.id ∧ u.shape = t.shape := by
  induction ht with
  | @mk root parts get children held ih =>
    have hparts : ∃ us : List Plant, (∀ u ∈ us, G.Holds u) ∧
        us.map Plant.id = parts.map Plant.id ∧ us.map Plant.shape = parts.map Plant.shape := by
      clear children held
      induction parts with
      | nil => exact ⟨[], nofun, rfl, rfl⟩
      | cons p parts ihp =>
        obtain ⟨u, hu, hid, hshape⟩ := ih p List.mem_cons_self
        obtain ⟨us, hus, hids, hshapes⟩ := ihp fun q hq => ih q (List.mem_cons_of_mem _ hq)
        refine ⟨u :: us, List.forall_mem_cons.2 ⟨hu, hus⟩, ?_, ?_⟩
        · rw [List.map_cons, List.map_cons, hid, hids]
        · rw [List.map_cons, List.map_cons, hshape, hshapes]
    obtain ⟨us, hus, hids, hshapes⟩ := hparts
    have hroot := h.get?_of_get? get
    split at hroot
    · refine ⟨.mk { root with locked := true } us, .mk hroot (children.trans hids.symm) hus, rfl, ?_⟩
      rw [Plant.shape_mk, Plant.shape_mk, hshapes]
    · refine ⟨.mk root us, .mk hroot (children.trans hids.symm) hus, rfl, ?_⟩
      rw [Plant.shape_mk, Plant.shape_mk, hshapes]

theorem Locks.childAt_eq (h : F.Locks G ids) (p : NodeId) (slot : String) :
    G.childAt p slot = F.childAt p slot := by
  rw [childAt, childAt, h p, Option.bind_map]
  congr 1
  funext n
  rw [Function.comp]
  split <;> rfl

theorem Locks.holderOf_eq (h : F.Locks G ids) (c : NodeId) : G.holderOf c = F.holderOf c := by
  rw [holderOf, holderOf, h c, Option.bind_map]
  congr 1
  funext n
  rw [Function.comp]
  split <;> rfl

theorem Locks.rootOf (h : F.Locks G ids) (hr : F.RootOf x r) : G.RootOf x r := by
  refine hr.of_parents fun y n _ hn => ⟨_, h.get?_of_get? hn, ?_⟩
  split <;> rfl

theorem Locks.linked (h : F.Locks G ids) (hF : F.Linked) : G.Linked where
  inverse p slot c := by rw [h.childAt_eq, h.holderOf_eq, hF.inverse]
  parentSlot x m hx := by
    obtain ⟨n, hn, rfl⟩ := h.of_get? hx
    exact hF.parentSlot x n hn
  rooted x m hx := by
    obtain ⟨n, hn, -⟩ := h.of_get? hx
    obtain ⟨r, hr⟩ := hF.rooted x n hn
    exact ⟨r, h.rootOf hr⟩

/-- Locking the tree of a `define` node makes a definition of it. -/
theorem Kept.lock {roots defs : List NodeId} {next : Nat}
    (hF : F.Kept (Node.Formed next) roots defs next) (h : F.Locks G ids) (hr : r ∈ roots)
    (hn : F.get? r = some n) (hk : n.kind = .define)
    (hids : ∀ y, y ∈ ids ↔ ∃ j, F.Ascends y j r) :
    G.Kept (Node.Formed next) roots (defs ++ [r]) next := by
  constructor
  case linked => exact h.linked hF.linked
  case pos =>
    intro x m hx
    obtain ⟨n, hn, -⟩ := h.of_get? hx
    exact hF.pos x n hn
  case lt =>
    intro x m hx
    obtain ⟨n, hn, -⟩ := h.of_get? hx
    exact hF.lt x n hn
  case nodup => exact hF.nodup
  case mem_roots_iff =>
    intro x
    rw [hF.mem_roots_iff]
    constructor
    · rintro ⟨n, hn, hp⟩
      refine ⟨_, h.get?_of_get? hn, ?_⟩
      split <;> exact hp
    · rintro ⟨m, hm, hp⟩
      obtain ⟨n, hn, rfl⟩ := h.of_get? hm
      exact ⟨n, hn, hp⟩
  case defs_subset => exact List.append_subset.2 ⟨hF.defs_subset, by simpa using hr⟩
  case defines =>
    intro x hx
    obtain ⟨m, hm, hkm⟩ : ∃ m, F.get? x = some m ∧ m.kind = .define := by
      rcases List.mem_append.1 hx with hx | hx
      · exact hF.defines x hx
      · exact ⟨n, List.mem_singleton.1 hx ▸ hn, hk⟩
    refine ⟨_, h.get?_of_get? hm, ?_⟩
    split <;> exact hkm
  case locked_iff =>
    intro x m r' hx hr'
    obtain ⟨n, hn, rfl⟩ := h.of_get? hx
    obtain ⟨r₀, -, hr₀⟩ := hF.exists_rootOf hn
    obtain rfl := (h.rootOf hr₀).unique hr'
    rw [List.mem_append, List.mem_singleton, ← hF.locked_iff x n r₀ hn hr₀]
    -- the tree of a node is the locked one exactly when its root is
    have hmem : x ∈ ids ↔ r₀ = r := by
      rw [hids]
      refine ⟨fun hj => hr₀.unique ⟨(hF.mem_roots_iff r).1 hr, hj⟩, ?_⟩
      rintro rfl
      exact hr₀.2
    by_cases hx : x ∈ ids
    · simp [hx, hmem.1 hx]
    · simp [hx, mt hmem.2 hx]
  case nodes =>
    intro x m hx
    obtain ⟨n, hn, rfl⟩ := h.of_get? hx
    exact (hF.nodes x n hn).congr rfl rfl rfl

end Forest

end TermForest
