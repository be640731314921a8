import TermForest.Game
import TermForest.Proofs.Forest.Hung
import TermForest.Proofs.Rule.Extend

/-!
# What moves come to

For each move of a game: where it gives a new state, what it has found in the old one, and what the new
one is. Whatever is kept by all states that moves lead to follows from this, with no second look at how
the moves are carried out.
-/

namespace TermForest

open Supply (Meets)

/-- A part that only reads gives what it reads. -/
theorem Ends.read_bind {α β : Type} {y : Except Fault α} {f : α → Except Failure β} {Q : β → Prop}
    (h : ∀ a, y = .ok a → Ends (f a) Q fun _ => True) :
    Ends ((liftM y : Except Failure α) >>= f) Q fun _ => True := by
  cases y with
  | ok a => exact h a rfl
  | error e => trivial

namespace State

/-- Roots that are dropped one after the other leave nothing of what the old forest lists under them. -/
theorem exists_of_uprootAll {used : List NodeId} {F G H : Forest}
    (hok : used.foldlM (fun nodes root => uproot nodes F root) G = .ok H) :
    ∃ gone : List NodeId, H = G.eraseAll gone ∧
      ∀ x, x ∈ gone ↔ ∃ r ∈ used, ∃ ids, F.idsUnder r = .ok ids ∧ x ∈ ids := by
  induction used generalizing G with
  | nil =>
    cases hok
    exact ⟨[], rfl, by simp⟩
  | cons r used ih =>
    rw [List.foldlM_cons] at hok
    obtain ⟨K, hK, hok⟩ := bind_eq_ok_iff.1 hok
    obtain ⟨ids, hids, hK⟩ := bind_eq_ok_iff.1 hK
    cases hK
    obtain ⟨gone, rfl, hgone⟩ := ih hok
    exact ⟨ids ++ gone, List.foldl_append.symm, fun x => by simp [hids, hgone]⟩

/-- The child `n` is taken out of the slot of `p`, which is left with a hole. -/
structure Detaches (s : State) (n p : Node) (slot : String) (root hole : NodeId) (s' : State) :
    Prop where
  child : s.nodes.get? n.id = some n
  holder : s.nodes.get? p.id = some p
  parent : n.parent = some p.id
  parentSlot : n.parentSlot = some slot
  inside : s.nodes.RootOf n.id root
  board : root ∈ s.board
  eq : s' = { s with
    nodes := ((s.nodes.insert (Node.heldBy { id := hole, kind := .hole } p.id slot)).insert
      (p.withSlot slot hole)).insert n.detached
    board := s.board ++ [n.id]
    added := [hole]
    removed := [] }

/-- The root `n` is put into the hole `m`, which a slot of `p` holds. -/
structure Fills (s : State) (n m p : Node) (slot : String) (root : NodeId) (s' : State) : Prop where
  place : n.id ∈ s.board ∨ n.id ∈ s.toolbox
  node : s.nodes.get? n.id = some n
  hole : s.nodes.get? m.id = some m
  kind : m.kind = .hole
  holder : s.nodes.get? p.id = some p
  parent : m.parent = some p.id
  parentSlot : m.parentSlot = some slot
  inside : s.nodes.RootOf m.id root
  board : root ∈ s.board
  ne : root ≠ n.id
  eq : s' = { s with
    nodes := ((s.nodes.erase m.id).insert (p.withSlot slot n.id)).insert (n.heldBy p.id slot)
    board := s.board.filter (· ≠ n.id)
    toolbox := s.toolbox.filter (· ≠ n.id)
    added := []
    removed := [m.id] }

/-- The definition `n` is dropped together with the one that its name leads to, and `u` comes in. -/
structure Redefining (s : State) (n : Node) (u : Plant) (F : Forest) (added : List NodeId)
    (s' : State) : Prop where
  node : s.nodes.get? n.id = some n
  kind : n.kind = .define
  board : n.id ∈ s.board
  dropped : (n.id :: ((n.name?.bind s.definition?).map Node.id).toList).foldlM
    (fun nodes root => uproot nodes s.nodes root) (s.nodes.insertAll u.nodes) = .ok F
  listed : F.idsUnder u.id = .ok added
  eq : s' = { s with
    nodes := F
    board := s.board.filter (· ≠ n.id)
    defs := match n.name?.bind s.definition? with
      | some old => s.defs.map fun d => if d = old.id then u.id else d
      | none => s.defs ++ [u.id]
    added
    removed := [] }

/-- The roots `used` are dropped from the board, and what the last step changed is forgotten. -/
structure Clears (s : State) (used : List NodeId) (F : Forest) (s' : State) : Prop where
  found : s.board.filterM (fun root => return (← s.nodes.find root).kind = .void) =
    (.ok used : Except Fault _)
  due : ¬(used = [] ∧ s.added = [] ∧ s.removed = [])
  dropped : used.foldlM (fun nodes root => uproot nodes s.nodes root) s.nodes = .ok F
  eq : s' = { s.settled with nodes := F, board := s.board.filter (· ∉ used) }

variable (s : State) (S : Signature)

theorem meets_detaches (id next : NodeId) :
    (s.detach id).Meets next
      (fun o next' => ∀ s', o = some s' → next' = next + 1 ∧
        ∃ n p slot root, n.id = id ∧ s.Detaches n p slot root next s')
      fun _ => True := by
  unfold State.detach
  refine .readFault_bind fun n hn => .readFault_bind fun root hroot => .guard (fun _ => trivial)
    fun hboard => ?_
  rw [Forest.find_eq_ok_iff] at hn
  obtain rfl := Forest.id_of_get? hn
  split
  · next q slot hparent hslot =>
    refine .take_bind (.readFault_bind fun p hp => .pure ?_)
    rintro _ ⟨⟩
    rw [Forest.find_eq_ok_iff] at hp
    obtain rfl := Forest.id_of_get? hp
    exact ⟨rfl, n, p, slot, root, rfl, hn, hp, hparent, hslot, Forest.rootOf_of_rootOf_eq hroot,
      not_not.1 hboard, rfl⟩
  · exact .pure (by rintro _ ⟨⟩)

theorem ends_moveToBoard (id : NodeId) :
    Ends (s.moveToBoard id) (fun o => ∀ s', o = some s' → id ∉ s.board ∧ id ∈ s.toolbox ∧
        s' = { s.settled with
          toolbox := s.toolbox.filter (· ≠ id)
          board := s.board ++ [id] })
      fun _ => True := by
  unfold State.moveToBoard
  split
  · exact .pure (by rintro _ ⟨⟩)
  · next hboard =>
    refine .guard (fun _ => trivial) fun htoolbox => .pure ?_
    rintro _ ⟨⟩
    exact ⟨hboard, not_not.1 htoolbox, rfl⟩

theorem ends_fills (id hole : NodeId) :
    Ends (s.moveToSlot S id hole)
      (fun o => ∀ s', o = some s' → ∃ n m p slot root, n.id = id ∧ m.id = hole ∧
        s.Fills n m p slot root s')
      fun _ => True := by
  unfold State.moveToSlot
  refine .guard (fun _ => trivial) fun hid => .read_bind fun m hm => .read_bind fun root hroot =>
    .guard (fun _ => trivial) fun hboard => ?_
  rw [Forest.find_eq_ok_iff] at hm
  obtain rfl := Forest.id_of_get? hm
  by_cases hk : m.kind = .hole
  case neg =>
    rw [if_pos hk]
    exact .read_bind fun _ _ => trivial
  rw [if_neg (not_not.2 hk)]
  split
  · exact .pure (by rintro _ ⟨⟩)
  · next hne =>
    split
    · next q slot hparent hslot =>
      refine .read_bind fun p hp => .read_bind fun n hn => .pure ?_
      rintro _ ⟨⟩
      rw [Forest.find_eq_ok_iff] at hp hn
      obtain rfl := Forest.id_of_get? hp
      obtain rfl := Forest.id_of_get? hn
      exact ⟨n, m, p, slot, root, rfl, rfl, by tauto, hn, hm, hk, hp, hparent, hslot,
        Forest.rootOf_of_rootOf_eq hroot, not_not.1 hboard, hne, rfl⟩
    · trivial

theorem meets_redefining (id next : NodeId) :
    (s.moveToDefs S id).Meets next
      (fun o next' => ∀ s', o = some s' → ∃ n t u F added, n.id = id ∧ t.id = id ∧
        s.nodes.Holds t ∧ t.CloneOf true next next' u ∧ u.Free ∧ s.Redefining n u F added s')
      fun _ => True := by
  unfold State.moveToDefs
  refine .guard (fun _ => trivial) fun hboard => .readFault_bind fun n hn => ?_
  rw [Forest.find_eq_ok_iff] at hn
  obtain rfl := Forest.id_of_get? hn
  by_cases hk : n.kind = .define
  case neg =>
    rw [if_pos hk]
    exact .readFault_bind fun _ _ => .throw_bind trivial
  rw [if_neg (not_not.2 hk)]
  refine Meets.bind (.liftSupply ((s.nodes.meets_copy n.id true next).imp (fun _ _ _ hc => hc)
    fun _ _ => trivial)) ?_
  rintro ⟨_, below, G⟩ next' - ⟨t, u, hid, ht, -, rfl, -, hG, hu, hfree⟩
  obtain rfl : G = _ := hG
  refine .readFault_bind fun B hB => ?_
  cases hold : n.name?.bind s.definition? with
  | none =>
    dsimp only
    rw [pure_bind]
    refine .readFault_bind fun added hadded => .pure ?_
    rintro _ ⟨⟩
    refine ⟨n, t, u, B, added, rfl, hid, ht, hu, hfree, hn, hk, not_not.1 hboard, ?_, hadded,
      hold ▸ rfl⟩
    rw [hold]
    exact bind_eq_ok_iff.2 ⟨B, hB, rfl⟩
  | some old =>
    refine .readFault_bind fun C hC => ?_
    dsimp only
    rw [pure_bind]
    refine .readFault_bind fun added hadded => .pure ?_
    rintro _ ⟨⟩
    refine ⟨n, t, u, C, added, rfl, hid, ht, hu, hfree, hn, hk, not_not.1 hboard, ?_, hadded,
      hold ▸ rfl⟩
    rw [hold]
    exact bind_eq_ok_iff.2 ⟨B, hB, bind_eq_ok_iff.2 ⟨C, hC, rfl⟩⟩

theorem ends_clears :
    Ends s.cleanup (fun o => ∀ s', o = some s' → ∃ used F, s.Clears used F s') fun _ => True := by
  unfold State.cleanup
  refine (Ends.of_forall_ok fun used hused => hused).bind fun used hused => ?_
  split
  · exact .pure (by rintro _ ⟨⟩)
  · next hsome =>
    refine (Ends.of_forall_ok fun F hF => hF).bind fun F hF => .pure ?_
    rintro _ ⟨⟩
    exact ⟨used, F, hused, hsome, hF, rfl⟩

/-- A level that is being played is won or lost. -/
theorem ends_detectCompletion :
    Ends (s.detectCompletion S)
      (fun o => ∀ s', o = some s' → s.mode = .gameplay ∧ ∃ mode ≠ .gameplay,
        s' = { s.settled with mode })
      fun _ => True := by
  unfold State.detectCompletion
  split
  · exact .pure (by rintro _ ⟨⟩)
  next hplayed =>
  rw [not_not] at hplayed
  refine (Ends.of_forall_ok (Q := fun _ => True) fun _ _ => trivial).bind fun solved _ => ?_
  split
  · exact .pure fun s' hs' => ⟨hplayed, .victory, by decide, (Option.some.inj hs').symm⟩
  refine (Ends.of_forall_ok (Q := fun _ => True) fun _ _ => trivial).bind fun stuck _ => ?_
  split
  · exact .pure fun s' hs' => ⟨hplayed, .defeat, by decide, (Option.some.inj hs').symm⟩
  · exact .pure (by rintro _ ⟨⟩)

end State

end TermForest
