import TermForest.Game
import TermForest.Proofs.Forest.Replace
import TermForest.Proofs.Normal
import TermForest.Proofs.Rule.Refusal
import TermForest.Proofs.State.Kept

/-!
# Moves keep states

Every move of a game takes a kept state to a kept state. It is refused, or it ends in one of the
faults that its triple names.
-/

namespace TermForest

open Supply (Meets)

namespace State

variable {s : State} {next : Nat}

/-- A root on the board or in the toolbox is to go into another root on the board that is a hole. -/
def FitsLoose (s : State) (id hole : NodeId) : Prop :=
  (id ∈ s.board ∨ id ∈ s.toolbox) ∧ hole ∈ s.board ∧ hole ≠ id ∧
    ∃ n, s.nodes.get? hole = some n ∧ n.kind = .hole

/-- Looking up a node gives the node, or the id has none. -/
theorem meets_find (F : Forest) (id : NodeId) :
    (liftM (F.find id) : Supply Failure Node).Meets next
      (fun n next' => F.get? id = some n ∧ next = next') fun _ => F.get? id = none := by
  refine .liftFault (fun n hn => ⟨Forest.find_eq_ok_iff.1 hn, rfl⟩) fun e he => ?_
  cases hn : F.get? id with
  | none => rfl
  | some n =>
    rw [Forest.find_eq_ok_iff.2 hn] at he
    cases he

namespace Kept

/-! ### Detaching -/

/-- A hole is a plant. -/
theorem hole_grown (next : Nat) :
    (Plant.mk { id := next, kind := .hole } []).Grown next (next + 1) :=
  .single (Nat.le_refl _) (Nat.lt_succ_self _) rfl (Node.formed_of_slots rfl rfl) rfl

theorem exchange_hole {F : Forest} {p n : Node} (slot : String) (hn : n.id ≠ next)
    (hp : p.id ≠ next) :
    (F.insertAll (Plant.mk { id := next, kind := .hole } []).nodes).exchange p slot n
        { id := next, kind := .hole } =
      ((F.insert (Node.heldBy { id := next, kind := .hole } p.id slot)).insert
        (p.withSlot slot next)).insert n.detached := by
  refine Forest.ext fun y => ?_
  by_cases hy : y = next
  · simp [Forest.exchange, Forest.get?_insert, Forest.insertAll, hy, hn, hp]
  · simp [Forest.exchange, Forest.get?_insert, Forest.insertAll, Ne.symm hy]

theorem meets_detach (h : s.Kept next) (id : NodeId) :
    (s.detach id).Meets next (fun o next' => ∀ s', o = some s' → s'.Kept next')
      fun e => e.IsRefusal ∨ s.nodes.get? id = none := by
  refine ((meets_find s.nodes id).imp (fun _ _ _ hn => hn) fun _ => .inr).bind ?_
  rintro n _ - ⟨hn, rfl⟩
  obtain rfl := Forest.id_of_get? hn
  obtain ⟨root, hmem, hroot, hrootOf⟩ := h.rootOf_eq hn
  rw [Supply.liftM_fault_ok hrootOf, pure_bind]
  refine .guard (fun _ => .inl ⟨_, rfl⟩) fun hboard => ?_
  rw [not_not] at hboard
  split
  · next p slot hparent hslot =>
    obtain ⟨slot', m, hslot', hm, hheld⟩ := h.linked.exists_holder hn hparent
    obtain rfl := Forest.id_of_get? hm
    refine .take_bind ?_
    rw [Supply.liftM_fault_ok (Forest.find_eq_ok_iff.2 hm), pure_bind]
    refine .pure fun s' hs' => ?_
    cases hs'
    have hout : n.id ∉ s.roots := fun hmem => by
      obtain ⟨n', hn', hp, -⟩ := h.exists_root hmem
      rw [hn, Option.some.injEq] at hn'
      rw [← hn', hparent] at hp
      cases hp
    have hne : ∀ {y : Nat} {k : Node}, s.nodes.get? y = some k → y ≠ next := fun hy =>
      Nat.ne_of_lt (h.lt _ _ hy)
    have hnodup : (s.board ++ [n.id] ++ s.toolbox ++ s.defs ++ s.goal).Nodup := by
      have := h.nodup_areas
      rw [mem_roots_iff] at hout
      rw [nodup_roots_iff]
      grind
    have hroots : ∀ x, x ∈ s.board ++ [n.id] ++ s.toolbox ++ s.defs ++ s.goal ↔
        x = n.id ∨ x ∈ s.roots := fun x => by
      simp only [mem_roots_iff, List.mem_append, List.mem_singleton]
      tauto
    have hkept := h.replaceChild (hole_grown next) ⟨rfl, rfl⟩ (Nat.le_succ next) hn hm hparent
      hslot hroot (h.board_notMem_defs hboard) hnodup hroots
    exact (exchange_hole slot (hne hn) (hne hm) ▸ hkept :)
  · exact .pure nofun

/-! ### Taking a root to the board -/

theorem moveToBoard (h : s.Kept next) (id : NodeId) :
    (liftM (s.moveToBoard id) : Supply Failure (Option State)).Meets next
      (fun o next' => ∀ s', o = some s' → s'.Kept next') Failure.IsRefusal := by
  unfold State.moveToBoard
  split
  · exact .pure nofun
  · next hboard =>
    by_cases htoolbox : id ∈ s.toolbox
    · simp only [htoolbox, not_true_eq_false, if_false]
      refine .pure fun s' hs' => ?_
      cases hs'
      have := h.nodup_areas
      refine Forest.Kept.relist (h : Forest.Kept ..) ?_ (fun x => ?_) fun _ => Iff.rfl
      · show (s.board ++ [id] ++ s.toolbox.filter (· ≠ id) ++ s.defs ++ s.goal).Nodup
        rw [nodup_roots_iff]
        grind
      · simp only [roots, settled, List.mem_append, List.mem_singleton, List.mem_filter,
          decide_eq_true_eq]
        grind
    · simp only [htoolbox, not_false_eq_true, if_true]
      exact .throw ⟨_, rfl⟩

/-! ### Filling a hole -/

/-- A root in the place of a hole, which is dropped. -/
theorem exchange_erase {F : Forest} {p n hole : Node} (slot : String) (hp : p.id ≠ hole.id)
    (hn : n.id ≠ hole.id) :
    (F.exchange p slot hole n).eraseAll [hole.id] =
      ((F.erase hole.id).insert (p.withSlot slot n.id)).insert (n.heldBy p.id slot) := by
  refine Forest.ext fun y => ?_
  by_cases hy : y = hole.id
  · simp [Forest.exchange, Forest.get?_insert, Forest.get?_erase, Forest.get?_eraseAll, hy, hp, hn]
  · rw [Forest.get?_eraseAll, if_neg (by simpa using hy)]
    by_cases hn' : n.id = y <;> by_cases hp' : p.id = y <;>
      simp [Forest.exchange, Forest.get?_insert, Forest.get?_erase, Ne.symm hy, hn', hp']

/-- A root comes into the place of a hole, which is dropped. -/
theorem fill (h : s.Kept next) {p n hole : Node} {slot : String} {root : NodeId}
    (e : s.nodes.Exchangeable p slot hole n root) (hk : hole.kind = .hole)
    (hboard : root ∈ s.board) (hid : n.id ∈ s.board ∨ n.id ∈ s.toolbox) :
    State.Kept next { s with
      nodes := ((s.nodes.erase hole.id).insert (p.withSlot slot n.id)).insert (n.heldBy p.id slot)
      board := s.board.filter (· ≠ n.id)
      toolbox := s.toolbox.filter (· ≠ n.id)
      added := []
      removed := [hole.id] } := by
  have hareas := h.nodup_areas
  have hdefs : n.id ∉ s.defs :=
    hid.elim (fun hid => h.board_notMem_defs hid) fun hid => h.toolbox_notMem_defs hid
  have hout : hole.id ∉ s.roots := fun hmem => by
    obtain ⟨m, hm, hp, -⟩ := h.exists_root hmem
    rw [e.child, Option.some.injEq] at hm
    rw [← hm, e.parent] at hp
    cases hp
  have hexchanged := Forest.Kept.exchange h e (h.board_notMem_defs hboard) hdefs
    (List.nodup_cons.2 ⟨fun hmem => hout (List.mem_filter.1 hmem).1, h.nodup.filter (· ≠ n.id)⟩)
    fun x => by simp
  have hget : (s.nodes.exchange p slot hole n).get? hole.id = some hole.detached := by
    rw [Forest.get?_exchange, if_neg e.child_ne_other, if_pos rfl]
  -- a hole has nothing below it
  obtain ⟨⟨root', parts⟩, rfl, hheld, -, -, hids, -⟩ := hexchanged.exists_plant hget
  have hslots : hole.slots.names = [] := by
    rw [(h.nodes _ _ e.child).slots (by simp [hk]), Node.declaredSlots, hk]
  have hlen : hole.slots.names.length = parts.length := by
    rw [Slots.length_names, ← Slots.length_children,
      show hole.slots.children = parts.map Plant.id from hheld.children, List.length_map]
  rw [hslots, eq_comm, List.length_nil, List.length_eq_zero_iff] at hlen
  subst hlen
  have hnodup : (s.board.filter (· ≠ n.id) ++ s.toolbox.filter (· ≠ n.id) ++ s.defs ++
      s.goal).Nodup := by
    rw [nodup_roots_iff]
    grind
  have hroots : ∀ x, x ∈ s.board.filter (· ≠ n.id) ++ s.toolbox.filter (· ≠ n.id) ++ s.defs ++
      s.goal ↔ x ∈ hole.id :: s.roots.filter (· ≠ n.id) ∧ x ≠ hole.id := by
    intro x
    rw [mem_roots_iff] at hout
    simp only [roots, List.mem_append, List.mem_filter, List.mem_cons, decide_eq_true_eq]
    grind
  have hdefs' : ∀ x, x ∈ s.defs ↔ x ∈ s.defs ∧ x ≠ hole.id := fun x =>
    ⟨fun hx => ⟨hx, fun e => hout (mem_roots_iff.2 (by grind))⟩, And.left⟩
  have hdropped := hexchanged.eraseAll List.mem_cons_self hids hnodup hroots hdefs'
  exact (exchange_erase slot (e.holder_ne_child h.linked) e.child_ne_other.symm ▸ hdropped :)

/-- A root goes into a hole on the board, unless it is its own hole. Only a hole that is a root
itself ends in a fault. -/
theorem ends_moveToSlot (h : s.Kept next) (S : Signature) (id hole : NodeId) :
    Ends (s.moveToSlot S id hole) (fun o => ∀ s', o = some s' → s'.Kept next)
      fun e => e.IsRefusal ∨ ¬S.Full ∨ s.nodes.get? hole = none ∨
        e = .fatal (.broken (.looseHole hole)) ∧ s.FitsLoose id hole := by
  unfold State.moveToSlot
  refine .guard (fun _ => .inl ⟨_, rfl⟩) fun hid => ?_
  cases hget : s.nodes.get? hole with
  | none =>
    rw [Forest.find, hget]
    exact .inr (.inr (.inl rfl))
  | some m =>
    obtain rfl := Forest.id_of_get? hget
    obtain ⟨root, hmem, hroot, hrootOf⟩ := h.rootOf_eq hget
    rw [liftM_eq_ok_iff.2 (Forest.find_eq_ok_iff.2 hget), ok_bind,
      liftM_eq_ok_iff.2 hrootOf, ok_bind]
    refine .guard (fun _ => .inl ⟨_, rfl⟩) fun hboard => ?_
    rw [not_not] at hboard
    by_cases hk : m.kind = .hole
    case neg =>
      rw [if_pos hk]
      refine Ends.bind (Q := fun _ => True) ?_ fun _ _ => .inl ⟨_, rfl⟩
      cases hc : S.coarseType s.nodes m.id with
      | ok c => trivial
      | error e =>
        refine .inr (.inl fun hS => ?_)
        rw [hS.coarseType_eq hget] at hc
        cases hc
    rw [if_neg (not_not.2 hk)]
    by_cases hne : root = id
    · rw [if_pos hne]
      exact fun _ hs' => absurd hs' (by simp)
    · rw [if_neg hne]
      split
      · next parent slot hparent hslot =>
        obtain ⟨slot', p, hslot', hp, -⟩ := h.linked.exists_holder hget hparent
        obtain rfl := Forest.id_of_get? hp
        have hplace : id ∈ s.board ∨ id ∈ s.toolbox := by tauto
        obtain ⟨n, hn, hnone, -⟩ := h.exists_root (mem_roots_iff.2 (by tauto) : id ∈ s.roots)
        obtain rfl := Forest.id_of_get? hn
        obtain ⟨r, hr⟩ := h.linked.rooted p.id p hp
        obtain rfl := (hr.up hget hparent).unique hroot
        rw [liftM_eq_ok_iff.2 (Forest.find_eq_ok_iff.2 hp), ok_bind,
          liftM_eq_ok_iff.2 (Forest.find_eq_ok_iff.2 hn), ok_bind]
        refine .pure fun s' hs' => ?_
        cases hs'
        exact h.fill ⟨hp, hget, hn, hparent, hslot, hnone, hr, hne⟩ hk hboard hplace
      · next hloose =>
        have hnone : m.parent = none := by
          have hsome := h.linked.parentSlot m.id m hget
          cases hparent : m.parent with
          | none => rfl
          | some p =>
            rw [hparent] at hsome
            obtain ⟨slot, hslot⟩ := Option.isSome_iff_exists.1 hsome
            exact (hloose p slot hparent hslot).elim
        refine .inr (.inr (.inr ⟨rfl, ?_⟩))
        have hself : s.nodes.RootOf m.id m.id := ⟨⟨m, hget, hnone⟩, 0, .refl hget⟩
        obtain rfl := hroot.unique hself
        exact ⟨by tauto, hboard, hne, m, hget, hk⟩

/-- A root that is put into a hole without a slot ends in a fault. -/
theorem moveToSlot_of_fitsLoose (h : s.Kept next) (S : Signature) {id hole : NodeId}
    (hloose : s.FitsLoose id hole) :
    s.moveToSlot S id hole = .error (.fatal (.broken (.looseHole hole))) := by
  obtain ⟨hid, hboard, hne, m, hget, hk⟩ := hloose
  obtain ⟨m', hget', hparent, -⟩ := h.exists_board hboard
  obtain rfl := Option.some.inj (hget.symm.trans hget')
  have hroot := (h.rootOf_self (mem_roots_of_board hboard)).rootOf_eq
  have hplace : ¬(id ∉ s.board ∧ id ∉ s.toolbox) := by tauto
  rw [State.moveToSlot, if_neg hplace, liftM_eq_ok_iff.2 (Forest.find_eq_ok_iff.2 hget), ok_bind,
    liftM_eq_ok_iff.2 hroot, ok_bind, if_neg (not_not.2 hboard), if_neg (not_not.2 hk),
    if_neg hne, hparent]
  rfl

end Kept

/-! ### Dropping trees -/

section uproot

variable {F G : Forest} {roots roots' defs defs' : List NodeId} {next' : Nat} {r : NodeId}

/-- A tree that stands in two forests alike is dropped from one of them. -/
theorem exists_uproot (hF : F.Kept (Node.Formed next) roots defs next)
    (hG : G.Kept (Node.Formed next') roots' defs' next') (hr : r ∈ roots)
    (hsame : ∀ x n, F.RootOf x r → F.get? x = some n → G.get? x = some n) :
    ∃ t : Plant, uproot G F r = .ok (G.eraseAll t.ids) ∧ (∀ x, x ∈ t.ids ↔ F.RootOf x r) ∧
      ∀ x, x ∈ t.ids ↔ ∃ j, G.Ascends x j r := by
  obtain ⟨n, hn, hp, -⟩ := hF.exists_root hr
  have hroot := hF.rootOf_self hr
  obtain ⟨t, ht, hheld, -, hnodup, hids, -⟩ := hF.exists_plant hn
  obtain ⟨t', ht', hheld', -, -, hids', -⟩ := hG.exists_plant (hsame r n hroot hn)
  obtain rfl : t.id = r := (congrArg Node.id ht).trans (Forest.id_of_get? hn)
  have hmem : ∀ x, x ∈ t.ids ↔ F.RootOf x t.id := fun x =>
    (hids x).trans ⟨fun h => ⟨hroot.1, h⟩, And.right⟩
  have hheldG : G.Holds t := hheld.congr fun x hx => by
    obtain ⟨m, hm⟩ := ((hids x).1 hx).choose_spec.exists_start
    rw [hm, hsame x m ((hmem x).1 hx) hm]
  obtain rfl : t = t' := hheldG.unique hheld' (congrArg Node.id (ht.trans ht'.symm))
  refine ⟨t, ?_, hmem, hids'⟩
  rw [uproot, hheld.idsUnder hnodup]
  rfl

/-- Dropping some trees one after the other drops their roots. -/
theorem exists_uprootAll (hF : F.Kept (Node.Formed next) roots defs next) {used : List NodeId}
    (hG : G.Kept (Node.Formed next') roots' defs' next') (hnodup : used.Nodup)
    (hroots : used ⊆ roots) (hroots' : used ⊆ roots')
    (hsame : ∀ r ∈ used, ∀ x n, F.RootOf x r → F.get? x = some n → G.get? x = some n) :
    ∃ H, used.foldlM (fun nodes root => uproot nodes F root) G = .ok H ∧
      H.Kept (Node.Formed next') (roots'.filter (· ∉ used)) (defs'.filter (· ∉ used)) next' := by
  induction used generalizing G roots' defs' with
  | nil => exact ⟨G, rfl, hG.relist (hG.nodup.filter _) (by simp) (by simp)⟩
  | cons r used ih =>
    rw [List.nodup_cons] at hnodup
    rw [List.cons_subset] at hroots hroots'
    obtain ⟨t, ht, hids, hids'⟩ :=
      exists_uproot hF hG hroots.1 (hsame r List.mem_cons_self)
    have hG' := hG.eraseAll_filter hroots'.1 hids'
    have hused : used ⊆ roots'.filter (· ≠ r) := fun x hx =>
      List.mem_filter.2 ⟨hroots'.2 hx, by simpa using fun e : x = r => hnodup.1 (e ▸ hx)⟩
    have hsame' : ∀ r' ∈ used, ∀ x n, F.RootOf x r' → F.get? x = some n →
        (G.eraseAll t.ids).get? x = some n := by
      intro r' hr' x n hx hn
      refine Forest.get?_eraseAll_eq_some_iff.2 ⟨fun hmem => hnodup.1 ?_, ?_⟩
      · exact ((hids x).1 hmem).unique hx ▸ hr'
      · exact hsame r' (List.mem_cons_of_mem _ hr') x n hx hn
    obtain ⟨H, hH, hkept⟩ := ih hG' hnodup.2 hroots.2 hused hsame'
    refine ⟨H, by rw [List.foldlM_cons, ht, ok_bind, hH], ?_⟩
    refine hkept.relist (hG.nodup.filter _) (fun x => ?_) fun x => ?_ <;>
      simp [and_comm, and_assoc]

end uproot

namespace Kept

/-- Dropping what has been used up from the board succeeds. -/
theorem exists_cleanup (h : s.Kept next) :
    ∃ o, s.cleanup = .ok o ∧ ∀ s', o = some s' → s'.Kept next := by
  have hvoid : ∀ root ∈ s.board, (do
      return decide ((← s.nodes.find root).kind = Kind.void) : Except Fault Bool) =
      .ok ((s.nodes.get? root).any fun n => n.kind = Kind.void) := by
    intro root hroot
    obtain ⟨n, hn, -⟩ := h.exists_board hroot
    rw [Forest.find_eq_ok_iff.2 hn, hn]
    rfl
  unfold State.cleanup
  rw [filterM_eq_ok hvoid, ok_bind]
  generalize hused : s.board.filter _ = used
  have hsub : used ⊆ s.board := fun x hx => (List.mem_filter.1 (hused ▸ hx)).1
  have hareas := h.nodup_areas
  have hnodup : used.Nodup := hused ▸ hareas.1.1.filter _
  split
  · exact ⟨none, rfl, nofun⟩
  · obtain ⟨H, hH, hkept⟩ := exists_uprootAll h h hnodup
      (fun x hx => mem_roots_of_board (hsub hx)) (fun x hx => mem_roots_of_board (hsub hx))
      fun _ _ _ _ _ hn => hn
    rw [hH]
    refine ⟨_, rfl, fun s' hs' => ?_⟩
    cases hs'
    refine Forest.Kept.relist hkept ?_ (fun x => ?_) fun x => ?_
    · show (s.board.filter (· ∉ used) ++ s.toolbox ++ s.defs ++ s.goal).Nodup
      rw [nodup_roots_iff]
      grind
    · simp only [roots, settled, List.mem_append, List.mem_filter, decide_eq_true_eq]
      grind
    · simp only [settled, List.mem_filter, decide_eq_true_eq]
      grind

end Kept

/-! ### Putting a root in the place of another -/

section replace

variable {ids : List NodeId} {a b x : NodeId}

theorem mem_map_replace (ha : a ∈ ids) :
    x ∈ ids.map (fun d => if d = a then b else d) ↔ x = b ∨ x ∈ ids ∧ x ≠ a := by
  rw [List.mem_map]
  constructor
  · rintro ⟨d, hd, rfl⟩
    split
    · exact .inl rfl
    · next hne => exact .inr ⟨hd, hne⟩
  · rintro (rfl | ⟨hx, hne⟩)
    · exact ⟨a, ha, if_pos rfl⟩
    · exact ⟨x, hx, if_neg hne⟩

theorem nodup_map_replace (hn : ids.Nodup) (hb : b ∉ ids) :
    (ids.map fun d => if d = a then b else d).Nodup := by
  refine hn.map_on fun x hx y hy hxy => ?_
  grind

end replace

namespace Kept

/-! ### Moving a definition -/

/-- A new definition stands behind the others. -/
theorem of_defs_append {B : Forest} {a r : NodeId} {added : List NodeId} (h : s.Kept next)
    (hboard : r ∈ s.board) (hout : a ∉ s.roots)
    (hB : B.Kept (Node.Formed next') ((a :: s.roots).filter (· ≠ r))
      ((a :: s.defs).filter (· ≠ r)) next') :
    State.Kept next' { s with
      nodes := B
      board := s.board.filter (· ≠ r)
      defs := s.defs ++ [a]
      added
      removed := [] } := by
  have hareas := h.nodup_areas
  rw [mem_roots_iff] at hout
  refine hB.relist ?_ (fun x => ?_) fun x => ?_
  · show (s.board.filter (· ≠ r) ++ s.toolbox ++ (s.defs ++ [a]) ++ s.goal).Nodup
    rw [nodup_roots_iff]
    grind
  · simp only [roots, List.mem_append, List.mem_filter, List.mem_cons, decide_eq_true_eq]
    grind
  · simp only [List.mem_append, List.mem_filter, List.mem_cons, decide_eq_true_eq]
    grind

/-- A new definition stands in the place of an old one. -/
theorem of_defs_replace {C : Forest} {a r old : NodeId} {added : List NodeId} (h : s.Kept next)
    (hboard : r ∈ s.board) (hold : old ∈ s.defs) (hout : a ∉ s.roots)
    (hC : C.Kept (Node.Formed next') (((a :: s.roots).filter (· ≠ r)).filter (· ≠ old))
      (((a :: s.defs).filter (· ≠ r)).filter (· ≠ old)) next') :
    State.Kept next' { s with
      nodes := C
      board := s.board.filter (· ≠ r)
      defs := s.defs.map fun d => if d = old then a else d
      added
      removed := [] } := by
  have hareas := h.nodup_areas
  rw [mem_roots_iff] at hout
  have hmap : ∀ x, x ∈ s.defs.map (fun d => if d = old then a else d) ↔
      x = a ∨ x ∈ s.defs ∧ x ≠ old := fun x => mem_map_replace hold
  have hnodup := nodup_map_replace (a := old) (b := a) hareas.1.2.2.1 (by tauto)
  refine hC.relist ?_ (fun x => ?_) fun x => ?_
  · show (s.board.filter (· ≠ r) ++ s.toolbox ++
      s.defs.map (fun d => if d = old then a else d) ++ s.goal).Nodup
    rw [nodup_roots_iff]
    grind
  · simp only [roots, List.mem_append, List.mem_filter, List.mem_cons, decide_eq_true_eq, hmap]
    grind
  · simp only [List.mem_filter, List.mem_cons, decide_eq_true_eq, hmap]
    grind

theorem meets_moveToDefs (h : s.Kept next) (S : Signature) (id : NodeId) :
    (s.moveToDefs S id).Meets next (fun o next' => ∀ s', o = some s' → s'.Kept next')
      fun e => e.IsRefusal ∨ ¬S.Full := by
  unfold State.moveToDefs
  refine .guard (fun _ => .inl ⟨_, rfl⟩) fun hboard => ?_
  rw [not_not] at hboard
  obtain ⟨n, hn, hp, hps⟩ := h.exists_board hboard
  obtain rfl := Forest.id_of_get? hn
  rw [Supply.liftM_fault_ok (Forest.find_eq_ok_iff.2 hn), pure_bind]
  by_cases hk : n.kind = .define
  case neg =>
    rw [if_pos hk]
    refine Meets.bind (Q := fun _ _ => True) (.liftFault (fun _ _ => trivial) fun e he => ?_)
      fun _ _ _ _ => .throw_bind (.inl ⟨_, rfl⟩)
    refine .inr fun hS => ?_
    rw [hS.coarseType_eq hn] at he
    cases he
  rw [if_neg (not_not.2 hk)]
  obtain ⟨t, rfl, ht, -, hnodup, hids, hf⟩ := Forest.Kept.exists_plant h hn
  refine Meets.bind (.liftSupply ((ht.copy hnodup true next).imp (fun _ _ _ hc => hc) nofun)) ?_
  rintro ⟨_, below, G⟩ next' hnext ⟨u, rfl, hforest, hu, hfree⟩
  obtain rfl : G = _ := hforest
  have hfresh : ∀ y ∈ u.ids, s.nodes.get? y = none := fun y hy =>
    Forest.Kept.get?_eq_none h (hu.le y hy)
  have hout : u.id ∉ s.roots := fun hmem => by
    obtain ⟨m, hm, -⟩ := h.exists_root hmem
    rw [hfresh _ u.id_mem_ids] at hm
    cases hm
  have hA : (s.nodes.insertAll u.nodes).Kept (Node.Formed next') (u.id :: s.roots)
      (u.id :: s.defs) next' :=
    Forest.Kept.insertAll h hu.joined hu.nodup hfree (Forest.Kept.one_le h hn) hu.le hu.lt hnext
      ((hf.mono hnext).of_shape_eq hu.shape) hu.locked
      (fun _ => (Plant.root_of_shape_eq hu.shape).1.trans hk)
      (List.nodup_cons.2 ⟨hout, h.nodup⟩) (fun _ => List.mem_cons) (fun _ => by simp [or_comm])
  have hkeep : ∀ x m, s.nodes.get? x = some m → (s.nodes.insertAll u.nodes).get? x = some m :=
    fun x m => Forest.get?_insertAll_of_get? hfresh
  obtain ⟨t₁, ht₁, hids₁, hids₁'⟩ :=
    exists_uproot h hA (mem_roots_of_board hboard) fun x m _ => hkeep x m
  have hB := hA.eraseAll_filter (List.mem_cons_of_mem _ (mem_roots_of_board hboard)) hids₁'
  rw [Supply.liftM_fault_ok ht₁, pure_bind]
  have hne : u.id ≠ t.root.id := fun e => hout (e ▸ mem_roots_of_board hboard)
  cases hold : t.root.name?.bind s.definition? with
  | none =>
    have hmem : u.id ∈ (u.id :: s.roots).filter (· ≠ t.root.id) :=
      List.mem_filter.2 ⟨List.mem_cons_self, decide_eq_true hne⟩
    obtain ⟨m, hm, -⟩ := hB.exists_root hmem
    obtain ⟨added, hadded⟩ := hB.exists_idsUnder hm
    dsimp only
    rw [pure_bind, Plant.id_root, Supply.liftM_fault_ok hadded, pure_bind]
    refine .pure fun s' hs' => ?_
    cases hs'
    exact h.of_defs_append hboard hout hB
  | some old =>
    obtain ⟨name, -, hname⟩ := Option.bind_eq_some_iff.1 hold
    obtain ⟨hmem, hget⟩ := mem_defs_of_definition? hname
    have hroot : old.id ∈ s.roots := mem_roots_iff.2 (by tauto)
    have hother : old.id ≠ t.root.id := fun e => h.board_notMem_defs hboard (e ▸ hmem)
    have hsame : ∀ x m, s.nodes.RootOf x old.id → s.nodes.get? x = some m →
        ((s.nodes.insertAll u.nodes).eraseAll t₁.ids).get? x = some m := fun x m hx hm =>
      Forest.get?_eraseAll_eq_some_iff.2
        ⟨fun hx' => hother (hx.unique ((hids₁ x).1 hx')), hkeep x m hm⟩
    obtain ⟨t₂, ht₂, -, hids₂⟩ := exists_uproot h hB hroot hsame
    have hfresh' : u.id ≠ old.id := fun e => hout (e ▸ hroot)
    have hC := hB.eraseAll_filter (List.mem_filter.2
      ⟨List.mem_cons_of_mem _ hroot, decide_eq_true hother⟩) hids₂
    have hmemC : u.id ∈ ((u.id :: s.roots).filter (· ≠ t.root.id)).filter (· ≠ old.id) :=
      List.mem_filter.2 ⟨List.mem_filter.2 ⟨List.mem_cons_self, decide_eq_true hne⟩,
        decide_eq_true hfresh'⟩
    obtain ⟨m, hm, -⟩ := hC.exists_root hmemC
    obtain ⟨added, hadded⟩ := hC.exists_idsUnder hm
    dsimp only
    rw [Supply.liftM_fault_ok ht₂, pure_bind, pure_bind, Plant.id_root,
      Supply.liftM_fault_ok hadded, pure_bind]
    refine .pure fun s' hs' => ?_
    cases hs'
    exact h.of_defs_replace hboard hmem hout hC

end Kept

end State

end TermForest
