import TermForest.Proofs.Shift.Reduce
import TermForest.Proofs.State.Phases

/-!
# Steps on shifted ids

Both phases of a step on a shifted state do what they do on the state itself, shifted.
-/

namespace TermForest

open Shift (reads checks takes tries)

variable {k : Nat}

/-- The same plan with all ids raised by `k`. -/
def Plan.shift (k : Nat) : Plan → Plan
  | .ready redex w => .ready (redex + k) (w.shift k)
  | .deferred redex e => .deferred (redex + k) (e.shift k)
  | .nothing => .nothing

theorem Outcome.plan_shift (o : Outcome) (redex : NodeId) :
    (o.shift k).plan (redex + k) = (o.plan redex).shift k := by
  cases o <;> rfl

namespace State

variable (s : State) (S : Signature) (most : Int64) (target redex : NodeId)

/-! ### The first phase -/

theorem ready_shift :
    (checks k).rel (Image (Option.map (Node.shift k))) (s.ready S target)
      ((s.shift k).ready S (target + k)) := by
  refine (checks k).rel_bind (Shift.checks_read (s.nodes.find_shift target)) ?_
  rintro n _ rfl
  refine (checks k).rel_bind (Shift.checks_read (s.nodes.rootOf_shift target)) ?_
  rintro root _ rfl
  refine (checks k).rel_ite (not_congr mem_map_shift.symm)
    (fun _ _ => Shift.checks_refuse (.notOnBoard target)) fun _ _ => ?_
  refine (checks k).rel_ite Iff.rfl (fun _ _ => (checks k).rel_pure rfl) fun _ _ => ?_
  refine (checks k).rel_bind (Shift.checks_read (S.redex_shift s.nodes target)) ?_
  rintro found _ rfl
  cases found with
  | none => exact (checks k).rel_pure rfl
  | some redex =>
    refine (checks k).rel_bind (Shift.checks_read (s.nodes.find_shift redex)) ?_
    rintro r _ rfl
    refine (checks k).rel_bind (Shift.checks_read (S.requireKind_shift r.kind)) fun _ _ _ => ?_
    exact (checks k).rel_bind (S.check_shift s r) fun _ _ _ => (checks k).rel_pure rfl

theorem begin_shift :
    (tries k).rel (Image (Plan.shift k)) (s.begin S most target)
      ((s.shift k).begin S most (target + k)) := by
  rw [begin_eq, begin_eq]
  refine (tries k).rel_bind (Shift.tries_check (s.ready_shift S target)) ?_
  rintro found _ rfl
  cases found with
  | none => exact (tries k).rel_pure rfl
  | some r =>
    refine (tries k).rel_bind (s.reduce_shift r S most) ?_
    rintro o _ rfl
    exact (tries k).rel_pure (o.plan_shift r.id)

/-! ### The second phase -/

theorem holdInPlace_shift (F : Forest) (root : NodeId) (added removed : List NodeId) :
    (reads k).rel (Image (State.shift k)) (s.holdInPlace redex F root added removed)
      ((s.shift k).holdInPlace (redex + k) (F.shift k) (root + k) (added.map (· + k))
        (removed.map (· + k))) := by
  refine (reads k).rel_bind (s.nodes.find_shift redex) ?_
  rintro r _ rfl
  refine (reads k).rel_bind (F.find_shift root) ?_
  rintro n _ rfl
  rw [Node.parent_shift, Node.parentSlot_shift]
  generalize r.parent = parent, r.parentSlot = slot
  have hnodes := F.shift_insert (k := k) { n with parent := parent, parentSlot := slot }
  cases parent with
  | none =>
    refine (reads k).rel_pure ?_
    dsimp only [Image, State.shift]
    rw [hnodes, ← map_exchange_shift]
    rfl
  | some p =>
    cases slot with
    | none => exact Shift.reads_error (.broken (.noParentSlot redex p))
    | some slot =>
      have hfind :=
        (F.insert { n with parent := some p, parentSlot := some slot }).find_shift (k := k) p
      rw [hnodes] at hfind
      refine (reads k).rel_bind hfind ?_
      rintro m _ rfl
      refine (reads k).rel_pure ?_
      dsimp only [Image, State.shift]
      rw [Forest.shift_insert, hnodes, Node.shift_withSlot]
      rfl

theorem graft_shift (w : Replacement) :
    (reads k).rel (Image (State.shift k)) (s.graft redex w)
      ((s.shift k).graft (redex + k) (w.shift k)) := by
  have hkept : ∀ (ids : List NodeId) (x : NodeId),
      x + k ∈ Std.ExtTreeSet.ofList (ids.map (· + k)) ↔ x ∈ Std.ExtTreeSet.ofList ids := by
    intro ids x
    simp only [Std.ExtTreeSet.mem_ofList, List.contains_iff_mem, mem_map_shift]
  rw [graft_eq, graft_eq]
  refine (reads k).rel_bind (s.nodes.idsUnder_shift redex) ?_
  rintro old _ rfl
  refine (reads k).rel_bind (w.forest.idsUnder_shift w.root) ?_
  rintro new _ rfl
  have hremoved : (old.map (· + k)).filter (· ∉ Std.ExtTreeSet.ofList (new.map (· + k))) =
      (old.filter (· ∉ Std.ExtTreeSet.ofList new)).map (· + k) :=
    filter_map_shift (fun x => by simp only [hkept]) old
  have hadded : (new.map (· + k)).filter (!(s.nodes.shift k).has ·) =
      (new.filter (!s.nodes.has ·)).map (· + k) :=
    filter_map_shift (fun x => by rw [Forest.has_shift]) new
  have hleftOver : (w.forest.shift k).ids.filter
      (fun id => !(s.nodes.shift k).has id && id ∉ Std.ExtTreeSet.ofList (new.map (· + k))) =
      (w.forest.ids.filter
        fun id => !s.nodes.has id && id ∉ Std.ExtTreeSet.ofList new).map (· + k) := by
    rw [Forest.ids_shift]
    exact filter_map_shift (fun x => by simp only [hkept, Forest.has_shift]) _
  dsimp only [Replacement.shift, nodes_shift]
  rw [hremoved, hadded, hleftOver, ← Forest.shift_eraseAll, ← Forest.shift_eraseAll]
  exact s.holdInPlace_shift redex _ w.root _ _

theorem complete_shift (work : Plan) :
    (takes k).rel (Image (Option.map (State.shift k))) (s.complete S work)
      ((s.shift k).complete S (work.shift k)) := by
  cases work with
  | nothing => exact (takes k).rel_pure rfl
  | ready redex w =>
    refine (takes k).rel_bind (Shift.takes_read (s.graft_shift redex w)) ?_
    rintro t _ rfl
    exact (takes k).rel_pure rfl
  | deferred redex e =>
    refine (takes k).rel_bind (S.finish_shift s.nodes e) ?_
    rintro w _ rfl
    refine (takes k).rel_bind (Shift.takes_read (s.graft_shift redex w)) ?_
    rintro t _ rfl
    exact (takes k).rel_pure rfl

/-- A step on a shifted state gives what the step on the state gives, shifted. -/
theorem step_shift :
    (tries k).rel (Image (Option.map (State.shift k))) (s.step S most target)
      ((s.shift k).step S most (target + k)) := by
  refine (tries k).rel_bind (s.begin_shift S most target) ?_
  rintro work _ rfl
  exact Shift.tries_take (s.complete_shift S work)

end State

end TermForest
