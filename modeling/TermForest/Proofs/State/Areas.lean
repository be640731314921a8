import TermForest.Proofs.Reach
import TermForest.Proofs.Safety
import TermForest.Proofs.State.Apart

/-!
# Areas are apart

The four areas of a state share one forest. A move changes the trees of a few roots and leaves all
others as they are: trees on the board that hold an id which the move names, the root that it takes
from the toolbox, the definition that it replaces, and what it clears away. So the goals are never
touched, and neither is the rest of an area.
-/

namespace TermForest

open Supply (Meets)

namespace Forest

variable {F G : Forest} {x r : NodeId} {n : Node} {touched : List NodeId}

/-- The tree of a root is in `G` node for node what it is in `F`. -/
def KeepsTree (F G : Forest) (r : NodeId) : Prop := ∀ x, F.RootOf x r → G.get? x = F.get? x

/-- All trees are kept but those of some roots. -/
def KeepsBut (F G : Forest) (touched : List NodeId) : Prop := ∀ r, r ∉ touched → F.KeepsTree G r

/-- The plant at the root of a kept tree still hangs there. -/
theorem KeepsTree.holds {t : Plant} (h : F.KeepsTree G t.id) (hF : F.Linked) (ht : F.Holds t)
    (hr : F.IsRoot t.id) : G.Holds t :=
  ht.congr fun x hx => h x ⟨hr, (hF.mem_ids_iff ht x).1 hx⟩

namespace KeepsBut

theorem refl (F : Forest) (touched : List NodeId) : F.KeepsBut F touched := fun _ _ _ _ => rfl

/-- A node that is put in is new or belongs to one of the trees. -/
theorem insert (h : F.KeepsBut G touched) (hn : ∀ r, F.RootOf n.id r → r ∈ touched) :
    F.KeepsBut (G.insert n) touched := fun r hr x hx => by
  rw [get?_insert_of_ne fun e => hr (hn r (e ▸ hx))]
  exact h r hr x hx

theorem erase (h : F.KeepsBut G touched) (hx : ∀ r, F.RootOf x r → r ∈ touched) :
    F.KeepsBut (G.erase x) touched := fun r hr y hy => by
  rw [get?_erase, if_neg fun e : x = y => hr (hx r (e ▸ hy))]
  exact h r hr y hy

theorem eraseAll (h : F.KeepsBut G touched) {ids : List NodeId}
    (hids : ∀ x ∈ ids, ∀ r, F.RootOf x r → r ∈ touched) :
    F.KeepsBut (G.eraseAll ids) touched := fun r hr x hx => by
  rw [get?_eraseAll, if_neg fun hmem => hr (hids x hmem r hx)]
  exact h r hr x hx

theorem insertAll (h : F.KeepsBut G touched) {t : Plant} (hfresh : ∀ x ∈ t.ids, F.get? x = none) :
    F.KeepsBut (G.insertAll t.nodes) touched := fun r hr x hx => by
  rw [get?_insertAll_of_notMem]
  · exact h r hr x hx
  · rw [Plant.map_id_nodes]
    intro hmem
    obtain ⟨n, hn⟩ := hx.exists_get?
    rw [hfresh x hmem] at hn
    cases hn

end KeepsBut

end Forest

/-! ### What a move is about -/

namespace Move

/-- The ids that a move names. The second phase of a step names its target. -/
def named : Move → List NodeId
  | .command (.execute x) | .command (.detach x) | .command (.moveToBoard x)
  | .command (.moveToDefs x) => [x]
  | .command (.moveToSlot x hole) => [x, hole]
  | .command _ => []
  | .commit p => [p.target]

/-- The root that a move may take out of the toolbox. -/
def taken? : Move → Option NodeId
  | .command (.moveToBoard x) | .command (.moveToSlot x _) => some x
  | _ => none

/-- The root of the definition that a move replaces in a state: the first one that carries the name of
the moved definition. -/
def replaced? (s : State) : Move → Option NodeId
  | .command (.moveToDefs x) => (s.replaced? x).map Node.id
  | _ => none

/-- The second phase of a step belongs to a first phase that was carried out on the same snapshot and
ended before the next id was `next`. -/
def Follows (g : Game) (s : Snapshot State) (next : Nat) : Move → Prop
  | .command _ => True
  | .commit p => ∃ lo hi, (∀ (x : Nat) n, s.state.nodes.get? x = some n → x < lo) ∧
      (g.begin s p.target).runFrom lo = (.ok p, hi) ∧ hi ≤ next

end Move

namespace State

/-- The root of a tree is used up: it is `void`. -/
def isVoid (s : State) (r : NodeId) : Bool := (s.nodes.get? r).any fun n => n.kind = .void

/-- The forest is linked, its ids lie below `next`, and the areas have no root in common and list
exactly the nodes without a parent. -/
structure Partitioned (next : Nat) (s : State) : Prop where
  linked : s.nodes.Linked
  lt : ∀ (x : Nat) n, s.nodes.get? x = some n → x < next
  mem_roots_iff : ∀ r, r ∈ s.roots ↔ s.nodes.IsRoot r
  board : ∀ r ∈ s.board, r ∉ s.toolbox ∧ r ∉ s.defs ∧ r ∉ s.goal
  toolbox : ∀ r ∈ s.toolbox, r ∉ s.defs ∧ r ∉ s.goal
  defs : ∀ r ∈ s.defs, r ∉ s.goal

/-- What a move leaves alone when it leads from `s` to `s'`. -/
structure Isolates (s : State) (m : Move) (s' : State) : Prop where
  level : s'.level = s.level
  /-- Only finding out how a level stands changes that. -/
  mode : m ≠ .command .detectCompletion → s'.mode = s.mode
  goal : s'.goal = s.goal
  goals : ∀ r ∈ s.goal, s.nodes.KeepsTree s'.nodes r
  defs : (∀ x, m ≠ .command (.moveToDefs x)) → s'.defs = s.defs
  /-- A moved definition takes the place of the replaced one, or comes last. -/
  redefined : ∀ x, m = .command (.moveToDefs x) → ∃ c, s.nodes.get? c = none ∧
    s'.defs = match m.replaced? s with
      | some old => s.defs.map fun d => if d = old then c else d
      | none => s.defs ++ [c]
  definitions : ∀ r ∈ s.defs, m.replaced? s ≠ some r → r ∈ s'.defs ∧ s.nodes.KeepsTree s'.nodes r
  toolbox : s'.toolbox = s.toolbox.filter (m.taken? ≠ some ·)
  tools : ∀ r ∈ s.toolbox, m.taken? ≠ some r → s.nodes.KeepsTree s'.nodes r
  board : ∀ r ∈ s.board, (∀ x ∈ m.named, ¬s.nodes.RootOf x r) →
    (m = .command .cleanup → s.isVoid r = false) → r ∈ s'.board ∧ s.nodes.KeepsTree s'.nodes r
  /-- Clearing away drops the used up roots with their trees, and no other. -/
  cleanup : m = .command .cleanup → s'.board = s.board.filter (!s.isVoid ·) ∧
    ∀ r ∈ s.board, s.isVoid r = true → ∀ x, s.nodes.RootOf x r → s'.nodes.get? x = none

variable {s s' : State} {lo next : Nat} {m : Move}

theorem Kept.partitioned (h : s.Kept next) : s.Partitioned next where
  linked := h.linked
  lt := h.lt
  mem_roots_iff := Forest.Kept.mem_roots_iff h
  board := h.nodup_areas.2.1
  toolbox := h.nodup_areas.2.2.1
  defs := h.nodup_areas.2.2.2

namespace Partitioned

theorem isRoot (h : s.Partitioned next) {r : NodeId} (hr : r ∈ s.roots) : s.nodes.IsRoot r :=
  (h.mem_roots_iff r).1 hr

/-- A listed root is the root of its tree. -/
theorem rootOf_self (h : s.Partitioned next) {r : NodeId} (hr : r ∈ s.roots) :
    s.nodes.RootOf r r := by
  obtain ⟨n, hn, hp⟩ := h.isRoot hr
  exact ⟨⟨n, hn, hp⟩, 0, .refl hn⟩

theorem get?_eq_none (h : s.Partitioned next) {x : Nat} (hx : next ≤ x) : s.nodes.get? x = none :=
  (h.linked.hung h.lt).get?_eq_none hx

/-- The tree of a listed root is a plant. -/
theorem exists_plant (h : s.Partitioned next) {r : NodeId} (hr : r ∈ s.roots) :
    ∃ t : Plant, t.id = r ∧ s.nodes.Holds t ∧ t.ids.Nodup ∧
      ∀ x, x ∈ t.ids ↔ s.nodes.RootOf x r := by
  obtain ⟨n, hn, hp⟩ := h.isRoot hr
  obtain ⟨t, rfl, ht, -, hnodup, hids⟩ := h.linked.exists_plant hn
  exact ⟨t, Forest.id_of_get? hn, ht, hnodup, fun x =>
    (hids x).trans ⟨fun hx => ⟨⟨_, hn, hp⟩, hx⟩, And.right⟩⟩

/-- Dropping the trees of listed roots leaves nothing of them, and touches no other tree. -/
theorem exists_of_uprootAll (h : s.Partitioned next) {used : List NodeId} (hused : used ⊆ s.roots)
    {G H : Forest} (hok : used.foldlM (fun nodes root => uproot nodes s.nodes root) G = .ok H) :
    ∃ gone : List NodeId, H = G.eraseAll gone ∧
      ∀ x, x ∈ gone ↔ ∃ r ∈ used, s.nodes.RootOf x r := by
  obtain ⟨gone, rfl, hgone⟩ := State.exists_of_uprootAll hok
  refine ⟨gone, rfl, fun x => (hgone x).trans (exists_congr fun r => and_congr_right fun hr => ?_)⟩
  obtain ⟨t, rfl, ht, hnodup, hids⟩ := h.exists_plant (hused hr)
  rw [ht.idsUnder hnodup, ← hids]
  simp

/-- A move that touches trees on the board which it names something in, and does not change the lists
of the areas in another way than its kind of move may, leaves alone what it should. -/
theorem isolates (h : s.Partitioned next) (touched : List NodeId)
    (hnodes : s.nodes.KeepsBut s'.nodes touched)
    (htouched : ∀ r ∈ touched, r ∈ s.board ∧ (∃ x ∈ m.named, s.nodes.RootOf x r) ∨
      r ∈ s.toolbox ∧ m.taken? = some r)
    (hm : m ≠ .command .cleanup) (hm' : ∀ x, m ≠ .command (.moveToDefs x))
    (hboard : ∀ r ∈ s.board, r ∉ m.named → r ∉ touched → r ∈ s'.board)
    (htoolbox : s'.toolbox = s.toolbox.filter (m.taken? ≠ some ·)) (hdefs : s'.defs = s.defs)
    (hgoal : s'.goal = s.goal) (hlevel : s'.level = s.level)
    (hmode : m ≠ .command .detectCompletion → s'.mode = s.mode) : s.Isolates m s' where
  level := hlevel
  mode := hmode
  goal := hgoal
  goals r hr := hnodes r fun ht => by
    rcases htouched r ht with ⟨hb, -⟩ | ⟨hb, -⟩
    · exact (h.board r hb).2.2 hr
    · exact (h.toolbox r hb).2 hr
  defs _ := hdefs
  redefined x hx := absurd hx (hm' x)
  definitions r hr _ := by
    refine ⟨hdefs ▸ hr, hnodes r fun ht => ?_⟩
    rcases htouched r ht with ⟨hb, -⟩ | ⟨hb, -⟩
    · exact (h.board r hb).2.1 hr
    · exact (h.toolbox r hb).1 hr
  toolbox := htoolbox
  tools r hr hne := hnodes r fun ht => by
    rcases htouched r ht with ⟨hb, -⟩ | ⟨-, htaken⟩
    · exact (h.board r hb).1 hr
    · exact hne htaken
  board r hr hnamed _ := by
    have hnot : r ∉ touched := fun ht => by
      rcases htouched r ht with ⟨-, x, hx, hroot⟩ | ⟨hb, -⟩
      · exact hnamed x hx hroot
      · exact (h.board r hr).1 hb
    exact ⟨hboard r hr (fun hmem => hnamed r hmem (h.rootOf_self (Kept.mem_roots_of_board hr))) hnot,
      hnodes r hnot⟩
  cleanup hc := absurd hc hm

end Partitioned

/-! ### Steps -/

/-- A step changes the tree that its redex is in. -/
theorem Grafts.isolates {t u : Plant} {target root : NodeId} (hg : s.Grafts t u s')
    (h : s.Partitioned next) (hboard : root ∈ s.board) (htarget : s.nodes.RootOf target root)
    (hredex : s.nodes.RootOf t.id root) (hm : m.named = [target]) (htaken : m.taken? = none)
    (hclean : m ≠ .command .cleanup) (hdef : ∀ x, m ≠ .command (.moveToDefs x)) :
    s.Isolates m s' := by
  have hnodes : s.nodes.KeepsBut s'.nodes [root] := by
    intro r hr x hx
    rw [List.mem_singleton] at hr
    refine hg.others x (fun ht => ?_) (fun hu => ?_) fun hp => ?_
    · exact hr (hx.unique (h.linked.rootOf_of_mem_ids hg.old ht hredex))
    · obtain ⟨n, hn⟩ := hx.exists_get?
      exact hg.notMem_new hn hu
    · exact hr (hx.unique (hredex.of_parent hg.old.get?_id hp))
  obtain ⟨htoolbox, hdefs, hgoal, hlevel, hmode⟩ := hg.rest
  refine h.isolates [root] hnodes (fun r hr => .inl ?_) hclean hdef (fun r hr _ hne => ?_) ?_ hdefs hgoal
    hlevel fun _ => hmode
  · obtain rfl := List.mem_singleton.1 hr
    exact ⟨hboard, target, by rw [hm]; exact List.mem_singleton_self _, htarget⟩
  · rw [hg.board]
    split
    · next hp =>
      -- the redex is the root of its tree
      have hself : s.nodes.RootOf t.id t.id := ⟨⟨_, hg.old.get?_id, hp⟩, 0, .refl hg.old.get?_id⟩
      have hrt : r ≠ t.id := fun e => hne (List.mem_singleton.2 (e.trans (hself.unique hredex)))
      exact List.mem_map.2 ⟨r, hr, if_neg hrt⟩
    · exact hr
  · simp [htoolbox, htaken]

namespace Partitioned

variable {S : Signature} {id : NodeId}

theorem isolates_step (h : s.Partitioned next) {most : Int64} {target next' : NodeId}
    (hrun : (s.step S most target).runFrom next = (.ok (some s'), next')) :
    s.Isolates (.command (.execute target)) s' := by
  obtain ⟨t, u, hredex, hg, -⟩ :=
    ((grafts_step (h.linked.hung h.lt) S most target).of_ok hrun).2 s' rfl
  obtain ⟨r, hr⟩ := exists_ready_of_step hrun
  obtain ⟨-, -, -, root, hboard, hroot⟩ := of_ready hr
  exact hg.isolates h hboard hroot (h.linked.rootOf_redex hroot hredex) rfl rfl nofun nofun

/-- The second phase of a step changes what its first phase has found on the same state. -/
theorem isolates_commit (h : s.Partitioned next) {most : Int64} {p : BegunStep} {lo hi : Nat}
    (hlt : ∀ (x : Nat) n, s.nodes.get? x = some n → x < lo)
    (hbegin : (s.begin S most p.target).runFrom lo = (.ok p.work, hi)) (hhi : hi ≤ next)
    {next' : NodeId} (hrun : (s.complete S p.work).runFrom next = (.ok (some s'), next')) :
    s.Isolates (.commit p) s' := by
  have hhung := h.linked.hung hlt
  obtain ⟨hle, hadds, hredex⟩ := (addsRoot_begin hhung S most p.target).of_ok hbegin
  obtain ⟨t, u, hwork, hg, -⟩ := ((grafts_complete hhung S hadds hle hhi).of_ok hrun).2 s' rfl
  obtain ⟨o, ho, hready⟩ := exists_ready hbegin
  obtain ⟨r, rfl, -⟩ := hready _ hwork
  obtain ⟨-, -, -, root, hboard, hroot⟩ := of_ready ho
  exact hg.isolates h hboard hroot (h.linked.rootOf_redex hroot (hredex _ hwork)) rfl rfl nofun nofun

/-! ### Moves of terms -/

theorem meets_detach (h : s.Partitioned next) (id : NodeId) :
    (s.detach id).Meets next
      (fun o _ => ∀ s', o = some s' → s.Isolates (.command (.detach id)) s') fun _ => True := by
  refine (s.meets_detaches id next).imp (fun o _ _ ho s' hs' => ?_) fun _ _ => trivial
  obtain ⟨-, n, p, slot, root, rfl, hn, -, hparent, -, hroot, hboard, rfl⟩ := ho s' hs'
  have hin : ∀ {x : NodeId}, s.nodes.RootOf x root → ∀ r, s.nodes.RootOf x r → r ∈ [root] :=
    fun hx r hr => List.mem_singleton.2 (hr.unique hx)
  refine h.isolates [root] ?_ (fun r hr => .inl ?_) (by simp) (by simp)
    (fun r hr _ _ => List.mem_append_left _ hr) ?_ rfl rfl rfl fun _ => rfl
  · refine Forest.KeepsBut.insert (.insert (.insert (.refl _ _) fun r hr => ?_)
      (hin (hroot.of_parent hn hparent))) (hin hroot)
    -- the hole is new
    obtain ⟨m, hm⟩ := hr.exists_get?
    cases (h.get?_eq_none (Nat.le_refl next)).symm.trans hm
  · obtain rfl := List.mem_singleton.1 hr
    exact ⟨hboard, n.id, List.mem_singleton_self _, hroot⟩
  · simp [Move.taken?]

theorem ends_moveToBoard (h : s.Partitioned next) (id : NodeId) :
    Ends (s.moveToBoard id)
      (fun o => ∀ s', o = some s' → s.Isolates (.command (.moveToBoard id)) s') fun _ => True := by
  refine (s.ends_moveToBoard id).imp (fun o ho s' hs' => ?_) fun _ _ => trivial
  obtain ⟨-, -, rfl⟩ := ho s' hs'
  refine h.isolates [] (.refl _ _) (by simp) (by simp) (by simp)
    (fun r hr _ _ => List.mem_append_left _ hr) ?_ rfl rfl rfl fun _ => rfl
  exact List.filter_congr fun x _ => by simp [Move.taken?, eq_comm]

theorem ends_moveToSlot (h : s.Partitioned next) (S : Signature) (id hole : NodeId) :
    Ends (s.moveToSlot S id hole)
      (fun o => ∀ s', o = some s' → s.Isolates (.command (.moveToSlot id hole)) s')
      fun _ => True := by
  refine (s.ends_fills S id hole).imp (fun o ho s' hs' => ?_) fun _ _ => trivial
  obtain ⟨n, m, p, slot, root, rfl, rfl, hmem, hn, hm, -, -, hparent, -, hroot, hboard, -, rfl⟩ :=
    ho s' hs'
  have hself := h.rootOf_self (Kept.mem_roots_iff.2 (by tauto) : n.id ∈ s.roots)
  refine h.isolates [root, n.id] ?_ (fun r hr => ?_) (by simp) (by simp)
    (fun r hr hnot _ => List.mem_filter.2 ⟨hr, ?_⟩) ?_ rfl rfl rfl fun _ => rfl
  · have hin : ∀ {x y : NodeId}, y ∈ [root, n.id] → s.nodes.RootOf x y →
        ∀ r, s.nodes.RootOf x r → r ∈ [root, n.id] := fun hy hx r hr => hr.unique hx ▸ hy
    exact Forest.KeepsBut.insert (.insert (.erase (.refl _ _) (hin (by simp) hroot))
      (hin (by simp) (hroot.of_parent hm hparent))) (hin (by simp) hself)
  · rcases List.mem_cons.1 hr with rfl | hr
    · exact .inl ⟨hboard, m.id, by simp [Move.named], hroot⟩
    · obtain rfl := List.mem_singleton.1 hr
      exact hmem.imp (fun hb => ⟨hb, n.id, by simp [Move.named], hself⟩) fun ht => ⟨ht, rfl⟩
  · have hrn : r ≠ n.id := fun e => hnot (e ▸ List.mem_cons_self)
    exact decide_eq_true hrn
  · exact List.filter_congr fun x _ => by simp [Move.taken?, eq_comm]

/-! ### Moving a definition -/

/-- A definition that is moved touches its tree and that of the definition it replaces. -/
theorem isolates_moveToDefs (h : s.Partitioned next) {c : NodeId} (hid : id ∈ s.board)
    (hc : s.nodes.get? c = none)
    (hnodes : s.nodes.KeepsBut s'.nodes (id :: ((s.replaced? id).map Node.id).toList))
    (hboard : s'.board = s.board.filter (· ≠ id))
    (hdefs : s'.defs = match (s.replaced? id).map Node.id with
      | some old => s.defs.map fun d => if d = old then c else d
      | none => s.defs ++ [c])
    (hrest : s'.toolbox = s.toolbox ∧ s'.goal = s.goal ∧ s'.level = s.level ∧ s'.mode = s.mode) :
    s.Isolates (.command (.moveToDefs id)) s' := by
  obtain ⟨htoolbox, hgoal, hlevel, hmode⟩ := hrest
  have hold : ∀ old, (s.replaced? id).map Node.id = some old → old ∈ s.defs := by
    intro old ho
    obtain ⟨d, hd, rfl⟩ := Option.map_eq_some_iff.1 ho
    obtain ⟨name, -, hname⟩ := Option.bind_eq_some_iff.1 hd
    exact (mem_defs_of_definition? hname).1
  have hnot : ∀ r, r ≠ id → (s.replaced? id).map Node.id ≠ some r →
      r ∉ id :: ((s.replaced? id).map Node.id).toList := by
    intro r hne hr hmem
    rcases List.mem_cons.1 hmem with rfl | hmem
    · exact hne rfl
    · exact hr (Option.mem_toList.1 hmem)
  have hother : ∀ r, r ∉ s.board → r ∉ s.defs → s.nodes.KeepsTree s'.nodes r := fun r hb hd =>
    hnodes r (hnot r (fun e => hb (e ▸ hid)) fun e => hd (hold r e))
  constructor
  case level => exact hlevel
  case mode => exact fun _ => hmode
  case goal => exact hgoal
  case goals =>
    exact fun r hr => hother r (fun hb => (h.board r hb).2.2 hr) fun hd => h.defs r hd hr
  case defs => exact fun hne => absurd rfl (hne id)
  case redefined =>
    rintro _ ⟨⟩
    exact ⟨c, hc, hdefs⟩
  case definitions =>
    intro r hr hne
    refine ⟨?_, hnodes r (hnot r (fun e => (h.board id hid).2.1 (e ▸ hr)) hne)⟩
    rw [hdefs]
    split
    · next old ho =>
      have hro : r ≠ old := fun e => hne (e ▸ ho)
      exact (mem_map_replace (hold old ho)).2 (.inr ⟨hr, hro⟩)
    · exact List.mem_append_left _ hr
  case toolbox => simp [htoolbox, Move.taken?]
  case tools =>
    exact fun r hr _ => hother r (fun hb => (h.board r hb).1 hr) (h.toolbox r hr).1
  case board =>
    intro r hr hnamed _
    have hne : r ≠ id := fun e => hnamed id (List.mem_singleton_self _)
      (e ▸ h.rootOf_self (Kept.mem_roots_of_board hr))
    exact ⟨hboard ▸ List.mem_filter.2 ⟨hr, decide_eq_true hne⟩,
      hnodes r (hnot r hne fun e => (h.board r hr).2.1 (hold r e))⟩
  case cleanup => exact nofun

theorem meets_moveToDefs (h : s.Partitioned next) (S : Signature) (id : NodeId) :
    (s.moveToDefs S id).Meets next
      (fun o _ => ∀ s', o = some s' → s.Isolates (.command (.moveToDefs id)) s') fun _ => True := by
  refine (s.meets_redefining S id next).imp (fun o _ _ ho s' hs' => ?_) fun _ _ => trivial
  obtain ⟨n, t, u, F, added, rfl, -, -, hu, -, hn, -, hboard, hdropped, -, rfl⟩ := ho s' hs'
  have hfresh : ∀ y ∈ u.ids, s.nodes.get? y = none := fun y hy => h.get?_eq_none (hu.le y hy)
  have hreplaced : s.replaced? n.id = n.name?.bind s.definition? := by rw [replaced?, hn]; rfl
  rw [← hreplaced] at hdropped
  have hdrops : n.id :: ((s.replaced? n.id).map Node.id).toList ⊆ s.roots := by
    refine List.cons_subset.2 ⟨Kept.mem_roots_of_board hboard, fun old ho => ?_⟩
    obtain ⟨d, hd, rfl⟩ := Option.map_eq_some_iff.1 (Option.mem_toList.1 ho)
    obtain ⟨name, -, hname⟩ := Option.bind_eq_some_iff.1 hd
    exact Kept.mem_roots_iff.2 (.inr (.inr (.inl (mem_defs_of_definition? hname).1)))
  obtain ⟨ids, rfl, hids⟩ := h.exists_of_uprootAll hdrops hdropped
  refine h.isolates_moveToDefs hboard (hfresh _ u.id_mem_ids) ?_ rfl ?_ ⟨rfl, rfl, rfl, rfl⟩
  · refine ((Forest.KeepsBut.refl _ _).insertAll hfresh).eraseAll fun x hx r hr => ?_
    obtain ⟨r', hr', hroot⟩ := (hids x).1 hx
    exact hr.unique hroot ▸ hr'
  · rw [hreplaced]
    cases n.name?.bind s.definition? <;> rfl

/-! ### Clearing away, and the end of a level -/

theorem find_isVoid (h : s.Partitioned next) {r : NodeId} (hr : r ∈ s.board) :
    (do return decide ((← s.nodes.find r).kind = Kind.void) : Except Fault Bool) =
      .ok (s.isVoid r) := by
  obtain ⟨n, hn, -⟩ := h.isRoot (Kept.mem_roots_of_board hr)
  rw [Forest.find_eq_ok_iff.2 hn, isVoid, hn]
  rfl

theorem ends_cleanup (h : s.Partitioned next) :
    Ends s.cleanup (fun o => ∀ s', o = some s' → s.Isolates (.command .cleanup) s')
      fun _ => True := by
  refine s.ends_clears.imp (fun o ho s' hs' => ?_) fun _ _ => trivial
  obtain ⟨used, F, hfound, -, hdropped, rfl⟩ := ho s' hs'
  rw [filterM_eq_ok fun r hr => h.find_isVoid hr] at hfound
  obtain rfl := Except.ok.inj hfound
  have hmem : ∀ r, r ∈ s.board.filter s.isVoid ↔ r ∈ s.board ∧ s.isVoid r = true := fun r =>
    List.mem_filter
  obtain ⟨ids, rfl, hids⟩ := h.exists_of_uprootAll (fun r hr =>
    Kept.mem_roots_of_board ((hmem r).1 hr).1) hdropped
  have hboard : s.board.filter (· ∉ s.board.filter s.isVoid) = s.board.filter (!s.isVoid ·) :=
    List.filter_congr fun r hr => by simp [hmem, hr]
  have hnodes : s.nodes.KeepsBut (s.nodes.eraseAll ids) (s.board.filter s.isVoid) :=
    (Forest.KeepsBut.refl _ _).eraseAll fun x hx r hr => by
      obtain ⟨r', hr', hroot⟩ := (hids x).1 hx
      exact hr.unique hroot ▸ hr'
  have hother : ∀ r, r ∉ s.board → s.nodes.KeepsTree (s.nodes.eraseAll ids) r := fun r hr =>
    hnodes r fun hmem' => hr ((hmem r).1 hmem').1
  constructor
  case level => rfl
  case mode => exact fun _ => rfl
  case goal => rfl
  case goals => exact fun r hr => hother r fun hb => (h.board r hb).2.2 hr
  case defs => exact fun _ => rfl
  case redefined => exact nofun
  case definitions => exact fun r hr _ => ⟨hr, hother r fun hb => (h.board r hb).2.1 hr⟩
  case toolbox => simp [Move.taken?, settled]
  case tools => exact fun r hr _ => hother r fun hb => (h.board r hb).1 hr
  case board =>
    intro r hr _ hkeep
    have hnot := hkeep rfl
    refine ⟨?_, hnodes r fun hmem' => ?_⟩
    · show r ∈ s.board.filter (· ∉ s.board.filter s.isVoid)
      rw [hboard]
      exact List.mem_filter.2 ⟨hr, by simp [hnot]⟩
    · rw [((hmem r).1 hmem').2] at hnot
      cases hnot
  case cleanup =>
    refine fun _ => ⟨hboard, fun r hr hv x hx => ?_⟩
    show (s.nodes.eraseAll ids).get? x = none
    rw [Forest.get?_eraseAll, if_pos ((hids x).2 ⟨r, (hmem r).2 ⟨hr, hv⟩, hx⟩)]

theorem ends_detectCompletion (h : s.Partitioned next) (S : Signature) :
    Ends (s.detectCompletion S)
      (fun o => ∀ s', o = some s' → s.Isolates (.command .detectCompletion) s')
      fun _ => True := by
  refine (s.ends_detectCompletion S).imp (fun o ho s' hs' => ?_) fun _ _ => trivial
  obtain ⟨-, mode, -, rfl⟩ := ho s' hs'
  exact h.isolates [] (.refl _ _) (by simp) (by simp) (by simp) (fun r hr _ _ => hr)
    (by simp [Move.taken?, settled]) rfl rfl rfl fun hne => absurd rfl hne

end Partitioned

end State

/-! ### Moves -/

namespace Game

/-- A move that gives a new state changes the trees it names something in, and leaves alone all
others: goals, definitions, and the rest of the board and of the toolbox. -/
theorem isolates_change (g : Game) {s : Snapshot State} {next next' : NodeId}
    (hs : s.state.Partitioned next) {m : Move} (hm : m.Follows g s next) {s' : State}
    (hrun : (g.dynamics.change s m).runFrom next = (.ok (some s'), next')) :
    s.state.Isolates m s' := by
  cases m with
  | commit p =>
    obtain ⟨lo, hi, hlt, hbegin, hhi⟩ := hm
    obtain ⟨hbase, -, hbegin⟩ := of_begin hbegin
    change (liftM (g.commit s p) : Supply Failure _).runFrom next = _ at hrun
    rw [commit, hbase, if_pos rfl, Supply.runFrom_liftM] at hrun
    rcases hcomplete : (s.state.complete g.signature p.work).runFrom next with ⟨e | o, mid⟩ <;>
      rw [hcomplete] at hrun <;> cases hrun
    exact hs.isolates_commit hlt hbegin hhi hcomplete
  | command c =>
    cases c with
    | execute x => exact hs.isolates_step hrun
    | detach x => exact ((hs.meets_detach x).of_ok hrun).2 s' rfl
    | moveToBoard x =>
      exact ((Meets.of_ends (hs.ends_moveToBoard x)).of_ok hrun).2 s' rfl
    | moveToDefs x => exact ((hs.meets_moveToDefs g.signature x).of_ok hrun).2 s' rfl
    | moveToSlot x hole =>
      exact ((Meets.of_ends (hs.ends_moveToSlot g.signature x hole)).of_ok hrun).2 s' rfl
    | cleanup =>
      exact ((Meets.liftFault (Q := fun o _ => ∀ s', o = some s' → s.state.Isolates _ s')
        (E := fun _ => True) (fun o ho => hs.ends_cleanup.of_ok ho) fun _ _ => trivial).of_ok hrun).2
        s' rfl
    | detectCompletion =>
      exact ((Meets.liftFault (Q := fun o _ => ∀ s', o = some s' → s.state.Isolates _ s')
        (E := fun _ => True) (fun o ho => (hs.ends_detectCompletion g.signature).of_ok ho)
        fun _ _ => trivial).of_ok hrun).2 s' rfl
    | raiseError why => cases hrun
    | startLevel _ => cases hrun
    | undo => cases hrun
    | redo => cases hrun
    | clearError => cases hrun

/-- A game whose level has something in each area. -/
def quartered : Game where
  levels := ⟨[{
    board := [.not (.boolean true), .number 2]
    toolbox := [.number 3]
    defs := [.define "k" (.number 1)]
    goal := [.boolean false] }]⟩

theorem distinct_quartered : quartered.levels.Distinct := by
  simp [LevelFile.Distinct, quartered, Level.terms, Term.not, Term.boolean, Term.number,
    Term.define, Term.withSlot, Term.withField, Term.ofTag, Term.parts, Term.tag, Terms.set,
    Term.Distinct, Terms.Distinct, Kind.tag, or_imp, forall_and]

/-- A step that has been begun on the board is put in place, and all else stays. -/
theorem isolates_change_quartered : ∃ session step s', quartered.start 0 = .ok session ∧
    (quartered.begin session.timeline.present 1).runFrom 8 = (.ok step, 9) ∧
    (quartered.dynamics.change session.timeline.present (.commit step)).runFrom 9 =
      (.ok (some s'), 9) ∧ s'.board = [8, 3] ∧ session.present.Isolates (.commit step) s' := by
  cases h : quartered.start 0 with
  | error fault =>
    have hstart : (quartered.start 0).toOption.isSome = true := by decide +kernel
    rw [h] at hstart
    cases hstart
  | ok session =>
    have hnext : (quartered.start 0).toOption.map Session.next = some 8 := by decide +kernel
    have hboard : (quartered.start 0).toOption.bind (fun session =>
        let begun := (quartered.begin session.timeline.present 1).runFrom 8
        begun.1.toOption.bind fun step =>
          let changed := (quartered.dynamics.change session.timeline.present
            (.commit step)).runFrom 9
          changed.1.toOption.bind fun o => o.map fun s' => (begun.2, changed.2, s'.board)) =
        some (9, 9, [8, 3]) := by
      decide +kernel
    rw [h] at hnext hboard
    have hnext : session.next = 8 := Option.some.inj hnext
    simp only [Except.toOption, Option.bind_some] at hboard
    rcases hstep : (quartered.begin session.timeline.present 1).runFrom 8 with ⟨_ | step, mid⟩ <;>
      rw [hstep] at hboard
    · cases hboard
    simp only [Option.bind_some] at hboard
    rcases hrun : (quartered.dynamics.change session.timeline.present (.commit step)).runFrom 9 with
      ⟨_ | _ | s', next⟩ <;> rw [hrun] at hboard
    · cases hboard
    · cases hboard
    simp only [Option.bind_some, Option.map_some, Option.some.injEq, Prod.mk.injEq] at hboard
    obtain ⟨rfl, rfl, hboard⟩ := hboard
    have hkept : session.present.Kept 8 := hnext ▸
      (Session.kept_of_start Signature.tagsReferences_standard distinct_quartered h).states.present
    obtain ⟨-, htarget, -⟩ := of_begin hstep
    have hfollows : (Move.commit step).Follows quartered session.timeline.present 9 :=
      ⟨8, 9, hkept.lt, htarget ▸ hstep, Nat.le_refl 9⟩
    exact ⟨session, step, s', rfl, hstep, hrun, hboard,
      isolates_change quartered (hkept.mono (Nat.le_succ 8)).partitioned hfollows hrun⟩

end Game

end TermForest
