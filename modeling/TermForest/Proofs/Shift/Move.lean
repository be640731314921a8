import TermForest.Proofs.Shift.Step

/-!
# Moves on shifted ids

Moving terms about, clearing the board, and finding out whether a level has ended go on a shifted state
as they go on the state itself.
-/

namespace TermForest

open Shift (reads checks takes tries)

variable {k : Nat}

namespace State

variable (s : State) (S : Signature) (id hole : NodeId)

/-! ### Moves -/

theorem detach_shift :
    (tries k).rel (Image (Option.map (State.shift k))) (s.detach id)
      ((s.shift k).detach (id + k)) := by
  refine (tries k).rel_bind (Shift.tries_read (s.nodes.find_shift id)) ?_
  rintro n _ rfl
  refine (tries k).rel_bind (Shift.tries_read (s.nodes.rootOf_shift id)) ?_
  rintro root _ rfl
  refine (tries k).rel_unless (not_congr mem_map_shift.symm)
    (Shift.tries_throw (.rejected (.notOnBoard id))) ?_
  rw [Node.parent_shift, Node.parentSlot_shift]
  cases n.parent with
  | none => exact (tries k).rel_pure rfl
  | some parent =>
    cases n.parentSlot with
    | none => exact (tries k).rel_pure rfl
    | some slot =>
      refine (tries k).rel_bind Shift.shifts_take ?_
      rintro hole _ rfl
      refine (tries k).rel_bind (Shift.tries_read (s.nodes.find_shift parent)) ?_
      rintro p _ rfl
      refine (tries k).rel_pure (congrArg some ?_)
      dsimp only [State.shift]
      rw [Forest.shift_insert, Forest.shift_insert, Forest.shift_insert, Node.shift_withSlot,
        List.map_append]
      rfl

theorem moveToBoard_shift :
    (checks k).rel (Image (Option.map (State.shift k))) (s.moveToBoard id)
      ((s.shift k).moveToBoard (id + k)) := by
  refine (checks k).rel_ite mem_map_shift.symm (fun _ _ => (checks k).rel_pure rfl) fun _ _ => ?_
  refine (checks k).rel_unless (not_congr mem_map_shift.symm)
    (Shift.checks_refuse (.notOnBoard id)) ((checks k).rel_pure (congrArg some ?_))
  dsimp only [State.shift]
  rw [List.map_append, ← filter_ne_shift]
  rfl

theorem uproot_shift (nodes base : Forest) :
    (reads k).rel (Image (Forest.shift k)) (uproot nodes base id)
      (uproot (nodes.shift k) (base.shift k) (id + k)) := by
  refine (reads k).rel_bind (base.idsUnder_shift id) ?_
  rintro ids _ rfl
  exact (reads k).rel_pure (nodes.shift_eraseAll ids).symm

theorem bind_definition?_shift (n : Node) :
    (n.shift k).name?.bind (s.shift k).definition? =
      (n.name?.bind s.definition?).map (Node.shift k) := by
  rw [Node.name?_shift]
  cases n.name? with
  | none => rfl
  | some name => exact s.definition?_shift name

/-- The end of the move of a definition: the state with the root of the copy among the definitions. -/
def placed (s : State) (id root : NodeId) (nodes : Forest) (defs : List NodeId) :
    Supply Failure (Option State) := do
  let added ← nodes.idsUnder root
  return some { s with nodes, board := s.board.filter (· ≠ id), defs, added, removed := [] }

theorem placed_shift (root : NodeId) (F : Forest) (defs : List NodeId) :
    (tries k).rel (Image (Option.map (State.shift k))) (s.placed id root F defs)
      ((s.shift k).placed (id + k) (root + k) (F.shift k) (defs.map (· + k))) := by
  refine (tries k).rel_bind (Shift.tries_read (F.idsUnder_shift root)) ?_
  rintro added _ rfl
  refine (tries k).rel_pure (congrArg some ?_)
  dsimp only [State.shift]
  rw [← filter_ne_shift]
  rfl

theorem moveToDefs_shift :
    (tries k).rel (Image (Option.map (State.shift k))) (s.moveToDefs S id)
      ((s.shift k).moveToDefs S (id + k)) := by
  refine (tries k).rel_unless (not_congr mem_map_shift.symm)
    (Shift.tries_throw (.rejected (.notOnBoard id))) ?_
  refine (tries k).rel_bind (Shift.tries_read (s.nodes.find_shift id)) ?_
  rintro n _ rfl
  refine (tries k).rel_ite Iff.rfl (fun _ _ => ?_) fun _ _ => ?_
  · refine (tries k).rel_bind (Shift.tries_read (S.coarseType_shift s.nodes id)) ?_
    rintro actual _ rfl
    exact Shift.tries_throw (.rejected (.wrongType id CoarseType.define.name actual.name))
  refine (tries k).rel_bind (Shift.tries_take (Forest.copy_shift id s.nodes true)) ?_
  rintro ⟨root, _, F⟩ ⟨_, _, _⟩ ⟨rfl, rfl⟩
  refine (tries k).rel_bind (Shift.tries_read (uproot_shift id F s.nodes)) ?_
  rintro F _ rfl
  dsimp only
  rw [s.bind_definition?_shift]
  cases n.name?.bind s.definition? with
  | some old =>
    refine (tries k).rel_bind (Shift.tries_read (uproot_shift old.id F s.nodes)) ?_
    rintro F _ rfl
    have hplaced := s.placed_shift id root.id F
      (s.defs.map fun d => if d = old.id then root.id else d) (k := k)
    rw [← map_exchange_shift] at hplaced
    exact hplaced
  | none =>
    have hplaced := s.placed_shift id root.id F (s.defs ++ [root.id]) (k := k)
    rw [List.map_append] at hplaced
    exact hplaced

theorem moveToSlot_shift :
    (checks k).rel (Image (Option.map (State.shift k))) (s.moveToSlot S id hole)
      ((s.shift k).moveToSlot S (id + k) (hole + k)) := by
  have hheld : (id ∉ s.board ∧ id ∉ s.toolbox) ↔
      (id + k ∉ (s.shift k).board ∧ id + k ∉ (s.shift k).toolbox) := by
    rw [board_shift, toolbox_shift, mem_map_shift, mem_map_shift]
  unfold moveToSlot
  refine (checks k).rel_unless hheld (Shift.checks_refuse (.notOnBoard id)) ?_
  refine (checks k).rel_bind (Shift.checks_read (s.nodes.find_shift hole)) ?_
  rintro h _ rfl
  refine (checks k).rel_bind (Shift.checks_read (s.nodes.rootOf_shift hole)) ?_
  rintro root _ rfl
  refine (checks k).rel_unless (not_congr mem_map_shift.symm)
    (Shift.checks_refuse (.notOnBoard hole)) ?_
  refine (checks k).rel_ite Iff.rfl (fun _ _ => ?_) fun _ _ => ?_
  · refine (checks k).rel_bind (Shift.checks_read (S.coarseType_shift s.nodes hole)) ?_
    rintro actual _ rfl
    exact Shift.checks_refuse (.wrongType hole CoarseType.hole.name actual.name)
  refine (checks k).rel_ite (Nat.add_right_cancel_iff).symm (fun _ _ => (checks k).rel_pure rfl)
    fun _ _ => ?_
  rw [Node.parent_shift, Node.parentSlot_shift]
  cases h.parent with
  | none => exact Alike.error (Failure.fatal (.broken (.looseHole hole)))
  | some parent =>
    cases h.parentSlot with
    | none => exact Alike.error (Failure.fatal (.broken (.looseHole hole)))
    | some slot =>
      refine (checks k).rel_bind (Shift.checks_read (s.nodes.find_shift parent)) ?_
      rintro p _ rfl
      refine (checks k).rel_bind (Shift.checks_read (s.nodes.find_shift id)) ?_
      rintro n _ rfl
      refine (checks k).rel_pure (congrArg some ?_)
      dsimp only [State.shift]
      rw [Forest.shift_insert, Forest.shift_insert, Forest.shift_erase, Node.shift_withSlot,
        ← filter_ne_shift, ← filter_ne_shift]
      rfl

theorem cleanup_shift :
    (reads k).rel (Image (Option.map (State.shift k))) s.cleanup (s.shift k).cleanup := by
  have hused : ∀ root ∈ s.board, (reads k).rel Eq
      (do return decide ((← s.nodes.find root).kind = .void))
      (do return decide ((← (s.nodes.shift k).find (root + k)).kind = .void)) := by
    intro root _
    refine (reads k).rel_bind (s.nodes.find_shift root) ?_
    rintro n _ rfl
    exact (reads k).rel_pure rfl
  refine (reads k).rel_bind ((reads k).rel_filterM_map hused) ?_
  rintro used _ rfl
  refine (reads k).rel_ite (by simp [State.shift]) (fun _ _ => (reads k).rel_pure rfl)
    fun _ _ => ?_
  refine (reads k).rel_bind ((reads k).rel_foldlM_map (h := Forest.shift k)
    (fun root _ F => uproot_shift root F s.nodes) s.nodes) ?_
  rintro F _ rfl
  refine (reads k).rel_pure (congrArg some ?_)
  dsimp only [State.shift]
  rw [← filter_notMem_shift]
  rfl

/-! ### The end of a level -/

theorem matching?_shift (F : Forest) (roots : List NodeId) :
    (reads k).rel Eq (matching? F id roots)
      (matching? (F.shift k) (id + k) (roots.map (· + k))) := by
  induction roots with
  | nil => exact .ok rfl
  | cons root roots ih =>
    rw [List.map_cons, matching?, matching?]
    refine (reads k).rel_bind (F.sameShape_shift id root) ?_
    rintro same _ rfl
    refine (reads k).rel_ite Iff.rfl (fun _ _ => (reads k).rel_pure rfl) fun _ _ => ?_
    refine (reads k).rel_bind ih ?_
    rintro position _ rfl
    exact (reads k).rel_pure rfl

theorem takeOut_shift (ids : List NodeId) (position : Nat) :
    takeOut (ids.map (· + k)) position = (takeOut ids position).map (· + k) := by
  unfold takeOut
  rw [List.map_dropLast, List.map_set]
  cases ids with
  | nil => rfl
  | cons x ids =>
    rw [List.map_cons, List.getLastD_cons, List.getLastD_cons, List.getLastD_map (f := (· + k))]

theorem goalsMatch_shift (F : Forest) (goals roots : List NodeId) :
    (reads k).rel Eq (goalsMatch F goals roots)
      (goalsMatch (F.shift k) (goals.map (· + k)) (roots.map (· + k))) := by
  induction goals generalizing roots with
  | nil => exact .ok rfl
  | cons goal goals ih =>
    rw [List.map_cons, goalsMatch, goalsMatch]
    refine (reads k).rel_bind (matching?_shift goal F roots) ?_
    rintro found _ rfl
    cases found with
    | some position =>
      dsimp only
      rw [takeOut_shift]
      exact ih (takeOut roots position)
    | none => exact (reads k).rel_pure rfl

theorem isSolved_shift : (reads k).rel Eq s.isSolved (s.shift k).isSolved := by
  refine (reads k).rel_ite ?_ (fun _ _ => .ok rfl) fun _ _ =>
    goalsMatch_shift s.nodes s.goal s.board
  simp

theorem isStuck_shift : (reads k).rel Eq (s.isStuck S) ((s.shift k).isStuck S) := by
  refine (reads k).rel_ite (by simp) (fun _ _ => (reads k).rel_pure rfl) fun _ _ => ?_
  refine (reads k).rel_allM_map fun root _ => ?_
  refine (reads k).rel_bind (S.isNormal_shift s.nodes root) ?_
  rintro normal _ rfl
  refine (reads k).rel_ite Iff.rfl (fun _ _ => ?_) fun _ _ => (reads k).rel_pure rfl
  refine (reads k).rel_bind (s.nodes.findAll_shift root fun _ => rfl) ?_
  rintro holes _ rfl
  exact (reads k).rel_pure (by simp)

theorem detectCompletion_shift :
    (reads k).rel (Image (Option.map (State.shift k))) (s.detectCompletion S)
      ((s.shift k).detectCompletion S) := by
  refine (reads k).rel_ite Iff.rfl (fun _ _ => (reads k).rel_pure rfl) fun _ _ => ?_
  refine (reads k).rel_bind s.isSolved_shift ?_
  rintro solved _ rfl
  refine (reads k).rel_ite Iff.rfl (fun _ _ => (reads k).rel_pure rfl) fun _ _ => ?_
  refine (reads k).rel_bind (s.isStuck_shift S) ?_
  rintro stuck _ rfl
  exact (reads k).rel_ite Iff.rfl (fun _ _ => (reads k).rel_pure rfl) fun _ _ =>
    (reads k).rel_pure rfl

end State

end TermForest
