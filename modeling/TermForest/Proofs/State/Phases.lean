import TermForest.Proofs.Forest.Hung
import TermForest.Proofs.Rule.Check
import TermForest.Step

/-!
# The parts of a step

A step looks for the node that is ready to be reduced, reduces it, and grafts the result. Each of these
is given here on its own, and a step is put together from them.
-/

namespace TermForest

/-- The node that a step inside a board tree reduces, once it has been found and checked. -/
def State.ready (s : State) (S : Signature) (target : NodeId) : Except Failure (Option Node) := do
  let n ← s.nodes.find target
  let root ← s.nodes.rootOf target
  if root ∉ s.board then refuse (.notOnBoard target)
  else if n.locked then return none
  else
    match ← S.redex s.nodes target with
    | none => return none
    | some redex =>
      let r ← s.nodes.find redex
      S.requireKind r.kind
      S.check s r
      return some r

/-- What an outcome of a rule for a redex leaves to do. -/
def Outcome.plan (redex : NodeId) : Outcome → Plan
  | .replaced w => .ready redex w
  | .deferred e => .deferred redex e
  | .noRule => .nothing

namespace State

/-- The state with another forest, in which a root is held by what holds the redex. -/
def holdInPlace (s : State) (redex : NodeId) (nodes : Forest) (root : NodeId)
    (added removed : List NodeId) : Except Fault State := do
  let r ← s.nodes.find redex
  let root := { ← nodes.find root with parent := r.parent, parentSlot := r.parentSlot }
  let nodes := nodes.insert root
  match r.parent, r.parentSlot with
  | some parent, some slot =>
    let p ← nodes.find parent
    return { s with nodes := nodes.insert (p.withSlot slot root.id), added, removed }
  | some parent, none => throw (.broken (.noParentSlot redex parent))
  | none, _ =>
    let board := s.board.map fun id => if id = redex then root.id else id
    return { s with nodes, board, added, removed }

/-- A graft drops what is not needed and then has the new root held in the place of the redex. -/
theorem graft_eq (s : State) (redex : NodeId) (w : Replacement) :
    s.graft redex w = (do
      let old ← s.nodes.idsUnder redex
      let new ← w.forest.idsUnder w.root
      let kept := Std.ExtTreeSet.ofList new
      let leftOver := w.forest.ids.filter fun id => !s.nodes.has id && id ∉ kept
      let removed := old.filter (· ∉ kept)
      s.holdInPlace redex ((w.forest.eraseAll leftOver).eraseAll removed) w.root
        (new.filter (!s.nodes.has ·)) removed) := rfl

/-- What is ready is the redex below a target on the board, and has passed its check. -/
theorem of_ready {s : State} {S : Signature} {target : NodeId} {r : Node}
    (h : s.ready S target = .ok (some r)) :
    s.nodes.get? r.id = some r ∧ S.redex s.nodes target = .ok (some r.id) ∧
      S.check s r = .ok () ∧ ∃ root ∈ s.board, s.nodes.RootOf target root := by
  simp only [ready, bind_eq_ok_iff, liftM_eq_ok_iff] at h
  obtain ⟨n, -, root, hroot, h⟩ := h
  split at h
  · cases h
  next hboard =>
  split at h
  · cases h
  simp only [bind_eq_ok_iff, liftM_eq_ok_iff] at h
  obtain ⟨o, ho, h⟩ := h
  cases o with
  | none => cases h
  | some redex =>
    simp only [bind_eq_ok_iff, liftM_eq_ok_iff, Forest.find_eq_ok_iff] at h
    obtain ⟨m, hm, _, -, _, hcheck, h⟩ := h
    cases h
    obtain rfl := Forest.id_of_get? hm
    exact ⟨hm, ho, hcheck, root, not_not.1 hboard, Forest.rootOf_of_rootOf_eq hroot⟩

/-- Whether a redex below an unlocked node on the board is ready is up to its check. -/
theorem ready_eq_check {s : State} {S : Signature} {target root : NodeId} {n r : Node}
    (hn : s.nodes.get? target = some n) (hroot : s.nodes.rootOf target = .ok root)
    (hboard : root ∈ s.board) (hlocked : n.locked = false)
    (hredex : S.redex s.nodes target = .ok (some r.id)) (hr : s.nodes.get? r.id = some r)
    (hkind : S.requireKind r.kind = .ok ()) :
    s.ready S target = S.check s r >>= fun _ => .ok (some r) := by
  rw [ready, liftM_eq_ok_iff.2 (Forest.find_eq_ok_iff.2 hn), ok_bind, liftM_eq_ok_iff.2 hroot,
    ok_bind, if_neg (not_not.2 hboard), if_neg (by simp [hlocked]), liftM_eq_ok_iff.2 hredex,
    ok_bind]
  dsimp only
  rw [liftM_eq_ok_iff.2 (Forest.find_eq_ok_iff.2 hr), ok_bind, liftM_eq_ok_iff.2 hkind, ok_bind]
  rfl

/-- A redex below an unlocked node on the board is ready once it has passed its check. -/
theorem ready_of_check {s : State} {S : Signature} {target root : NodeId} {n r : Node}
    (hn : s.nodes.get? target = some n) (hroot : s.nodes.rootOf target = .ok root)
    (hboard : root ∈ s.board) (hlocked : n.locked = false)
    (hredex : S.redex s.nodes target = .ok (some r.id)) (hr : s.nodes.get? r.id = some r)
    (hkind : S.requireKind r.kind = .ok ()) (hcheck : S.check s r = .ok ()) :
    s.ready S target = .ok (some r) := by
  rw [ready_eq_check hn hroot hboard hlocked hredex hr hkind, hcheck]
  rfl

/-- The first phase of a step reduces the node that is ready. -/
theorem begin_eq (s : State) (S : Signature) (most : Int64) (target : NodeId) :
    s.begin S most target = do
      match ← (liftM (s.ready S target) : Supply Failure (Option Node)) with
      | none => return .nothing
      | some r => return (← s.reduce S most r).plan r.id := by
  have hlift : ∀ {α : Type} (a : α), (liftM (Except.ok a : Except Fault α) : Except Failure α) =
      .ok a := fun _ => rfl
  unfold State.begin ready
  cases s.nodes.find target with
  | error e => rfl
  | ok n =>
    cases s.nodes.rootOf target with
    | error e => rfl
    | ok root =>
      simp only [Supply.liftM_fault_ok rfl, pure_bind, hlift, ok_bind]
      by_cases hb : root ∈ s.board
      · simp only [hb, not_true_eq_false, if_false]
        by_cases hl : n.locked = true
        · simp only [hl, if_true]
          rfl
        · simp only [hl, Bool.false_eq_true, if_false]
          cases S.redex s.nodes target with
          | error e => rfl
          | ok o =>
            cases o with
            | none => rfl
            | some redex =>
              simp only [Supply.liftM_fault_ok rfl, pure_bind, hlift, ok_bind]
              cases hr : s.nodes.find redex with
              | error e => rfl
              | ok r =>
                simp only [Supply.liftM_fault_ok rfl, pure_bind, hlift, ok_bind]
                obtain rfl := Forest.id_of_get? (Forest.find_eq_ok_iff.1 hr)
                cases S.requireKind r.kind with
                | error e => rfl
                | ok u =>
                  cases S.check s r with
                  | error e => rfl
                  | ok u =>
                    refine congrArg (s.reduce S most r >>= ·) (funext fun out => ?_)
                    cases out <;> rfl
      · simp only [hb, not_false_eq_true, if_true]
        rfl

/-- A first phase that gives a plan has found what is ready, and plans to reduce nothing else. -/
theorem exists_ready {s : State} {S : Signature} {most : Int64} {target : NodeId} {p : Plan}
    {lo hi : Nat} (h : (s.begin S most target).runFrom lo = (.ok p, hi)) :
    ∃ o, s.ready S target = .ok o ∧ ∀ x, p.redex? = some x → ∃ r, o = some r ∧ r.id = x := by
  rw [begin_eq] at h
  cases hready : s.ready S target with
  | error e =>
    rw [hready] at h
    cases h
  | ok o =>
    refine ⟨o, rfl, fun x hx => ?_⟩
    rw [hready, Supply.liftM_ok rfl, pure_bind] at h
    cases o with
    | none =>
      cases h
      cases hx
    | some r =>
      refine ⟨r, rfl, ?_⟩
      rw [Supply.runFrom_bind] at h
      rcases hreduce : (s.reduce S most r).runFrom lo with ⟨e | out, mid⟩ <;> rw [hreduce] at h
      · cases h
      · cases h
        cases out <;> cases hx <;> rfl

/-- A step that gives a new state has found what is ready. -/
theorem exists_ready_of_step {s s' : State} {S : Signature} {most : Int64} {target : NodeId}
    {lo hi : Nat} (h : (s.step S most target).runFrom lo = (.ok (some s'), hi)) :
    ∃ r, s.ready S target = .ok (some r) := by
  rw [step, begin_eq] at h
  cases hready : s.ready S target with
  | error e =>
    rw [hready] at h
    cases h
  | ok o =>
    cases o with
    | none =>
      rw [hready] at h
      cases h
    | some r => exact ⟨r, rfl⟩

end State

end TermForest
