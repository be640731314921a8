import TermForest.Proofs.Shift.Rule

/-!
# Reduction on shifted ids

A node of a shifted state is reduced to what the node itself is reduced to, shifted. The new nodes take
their ids from a supply that is shifted too.
-/

namespace TermForest

open Shift (takes tries edits)

variable {k : Nat}

/-! ### Outcomes -/

/-- The same replacement with all ids raised by `k`. -/
def Replacement.shift (k : Nat) (w : Replacement) : Replacement :=
  ⟨w.forest.shift k, w.root + k⟩

/-- The same outcome with all ids raised by `k`. -/
def Outcome.shift (k : Nat) : Outcome → Outcome
  | .replaced w => .replaced (w.shift k)
  | .deferred e => .deferred (e.shift k)
  | .noRule => .noRule

theorem Editing.replacement_shift {edit edit' : Editing NodeId}
    (h : (edits k).rel (Image (· + k)) edit edit') (F : Forest) :
    (takes k).rel (Image (Replacement.shift k)) (edit.replacement F)
      (edit'.replacement (F.shift k)) := by
  refine (takes k).rel_bind (h F _ rfl) ?_
  rintro ⟨root, G⟩ ⟨_, _⟩ ⟨rfl, rfl⟩
  exact (takes k).rel_pure rfl

/-- Two deferred calls of the same builtin end alike. -/
theorem Signature.finish_shift (S : Signature) (F : Forest) (e : Effect) :
    (takes k).rel (Image (Replacement.shift k)) (S.finish F e)
      (S.finish (F.shift k) (e.shift k)) := by
  unfold finish
  rw [Effect.builtin_shift]
  cases S.builtin? e.builtin.name with
  | none => exact Shift.takes_throw (.unregistered e.builtin.name)
  | some p =>
    exact (takes k).rel_ite Iff.rfl
      (fun _ _ => Editing.replacement_shift (Builtin.repeated_shift e) F) fun _ _ =>
        Shift.takes_throw (.broken (.noSecondPhase e.builtin.name))

namespace State

variable (s : State) (n : Node)

theorem shift_replaceBy : (s.replaceBy n).shift k = (s.shift k).replaceBy (n.shift k) := by
  show Outcome.replaced ⟨(s.nodes.insert n).shift k, n.id + k⟩ = _
  rw [Forest.shift_insert]
  rfl

theorem replaceByEdit_shift {edit edit' : Editing NodeId}
    (h : (edits k).rel (Image (· + k)) edit edit') :
    (takes k).rel (Image (Outcome.shift k)) (s.replaceByEdit edit)
      ((s.shift k).replaceByEdit edit') := by
  refine (takes k).rel_bind (Editing.replacement_shift h s.nodes) ?_
  rintro w _ rfl
  exact (takes k).rel_pure rfl

/-- A new node in the place of the reduced one. -/
theorem replaceByNew_shift {ε : Type} {f : ε → ε} {make : NodeId → Node}
    (hmake : ∀ id, make (id + k) = (make id).shift k) :
    (Relator.shifts k f).rel (Image (Outcome.shift k))
      (do return s.replaceBy (make (← Supply.take)))
      (do return (s.shift k).replaceBy (make (← Supply.take))) := by
  refine (Relator.shifts k f).rel_bind Shift.shifts_take ?_
  rintro id _ rfl
  rw [hmake]
  exact (Relator.shifts k f).rel_pure (s.shift_replaceBy (make id)).symm

/-! ### Kinds of nodes -/

theorem reduceApply_shift :
    (takes k).rel (Image (Outcome.shift k)) (s.reduceApply n)
      ((s.shift k).reduceApply (n.shift k)) := by
  refine (takes k).rel_bind (Shift.takes_read (n.needSlot_shift "callee")) ?_
  rintro callee _ rfl
  refine (takes k).rel_bind (Shift.takes_read (n.needSlot_shift "argument")) ?_
  rintro argument _ rfl
  refine (takes k).rel_bind (Shift.takes_read (s.nodes.find_shift callee)) ?_
  rintro f _ rfl
  rw [Node.kind_shift]
  split
  · exact s.replaceByEdit_shift (Editing.applyLambda_shift argument f)
  · exact s.replaceByEdit_shift (Editing.supplyArgument_shift argument f)
  · exact (takes k).rel_pure rfl

theorem calculate_shift (op : Operator) (l r : Node) :
    (tries k).rel (Image (Outcome.shift k)) (reduceBinop.calculate s n op l r)
      (reduceBinop.calculate (s.shift k) (n.shift k) op (l.shift k) (r.shift k)) := by
  refine (tries k).rel_bind (Shift.tries_read (l.needInt_shift "value")) ?_
  rintro a _ rfl
  refine (tries k).rel_bind (Shift.tries_read (r.needInt_shift "value")) ?_
  rintro b _ rfl
  split
  · exact s.replaceByNew_shift fun _ => rfl
  · exact s.replaceByNew_shift fun _ => rfl
  · split
    · exact s.replaceByNew_shift fun _ => rfl
    · exact Shift.tries_throw (.rejected (.builtin n.id "arithmetic overflow"))

theorem reduceBinop_shift :
    (tries k).rel (Image (Outcome.shift k)) (s.reduceBinop n)
      ((s.shift k).reduceBinop (n.shift k)) := by
  refine (tries k).rel_bind (Shift.tries_read (n.needText_shift "op")) ?_
  rintro op _ rfl
  refine (tries k).rel_bind (Shift.tries_read (n.needSlot_shift "left")) ?_
  rintro left _ rfl
  refine (tries k).rel_bind (Shift.tries_read (n.needSlot_shift "right")) ?_
  rintro right _ rfl
  refine (tries k).rel_bind (Shift.tries_read (s.nodes.find_shift left)) ?_
  rintro l _ rfl
  refine (tries k).rel_bind (Shift.tries_read (s.nodes.find_shift right)) ?_
  rintro r _ rfl
  have hsame := Shift.tries_read (s.nodes.sameShape_shift left right (k := k))
  split
  · refine (tries k).rel_bind hsame ?_
    rintro same _ rfl
    exact s.replaceByNew_shift fun _ => rfl
  · refine (tries k).rel_bind hsame ?_
    rintro same _ rfl
    exact s.replaceByNew_shift fun _ => rfl
  · refine (tries k).rel_ite Iff.rfl (fun _ _ => ?_) fun _ _ => s.calculate_shift n .add l r
    refine (tries k).rel_bind (Shift.tries_read (l.needText_shift "value")) ?_
    rintro first _ rfl
    refine (tries k).rel_bind (Shift.tries_read (r.needText_shift "value")) ?_
    rintro last _ rfl
    exact s.replaceByNew_shift fun _ => rfl
  · exact s.calculate_shift n _ l r
  · exact Shift.tries_throw (.fatal (.malformed (.strangeOperator op n.id)))

theorem reduceConditional_shift :
    (takes k).rel (Image (Outcome.shift k)) (s.reduceConditional n)
      ((s.shift k).reduceConditional (n.shift k)) := by
  refine (takes k).rel_bind (Shift.takes_read (n.needSlot_shift "condition")) ?_
  rintro c _ rfl
  refine (takes k).rel_bind (Shift.takes_read (s.nodes.find_shift c)) ?_
  rintro condition _ rfl
  refine (takes k).rel_bind (Shift.takes_read (condition.needBool_shift "value")) ?_
  rintro value _ rfl
  refine (takes k).rel_bind (Shift.takes_read (n.needSlot_shift _)) ?_
  rintro branch _ rfl
  exact s.replaceByEdit_shift (Editing.copyOf_shift branch)

theorem reduceNot_shift :
    (takes k).rel (Image (Outcome.shift k)) (s.reduceNot n)
      ((s.shift k).reduceNot (n.shift k)) := by
  refine (takes k).rel_bind (Shift.takes_read (n.needSlot_shift "value")) ?_
  rintro c _ rfl
  refine (takes k).rel_bind (Shift.takes_read (s.nodes.find_shift c)) ?_
  rintro operand _ rfl
  refine (takes k).rel_bind (Shift.takes_read (operand.needBool_shift "value")) ?_
  rintro value _ rfl
  exact s.replaceByNew_shift fun _ => rfl

theorem reduceMember_shift :
    (takes k).rel (Image (Outcome.shift k)) (s.reduceMember n)
      ((s.shift k).reduceMember (n.shift k)) := by
  refine (takes k).rel_bind (Shift.takes_read (n.needSlot_shift "array")) ?_
  rintro c _ rfl
  refine (takes k).rel_bind (Shift.takes_read (s.nodes.find_shift c)) ?_
  rintro array _ rfl
  refine (takes k).rel_bind (Shift.takes_read (n.needSlot_shift "index")) ?_
  rintro index _ rfl
  refine (takes k).rel_bind (Shift.takes_read (s.nodes.number_shift index)) ?_
  rintro position _ rfl
  refine (takes k).rel_bind (Shift.takes_read (array.needSlot_shift _)) ?_
  rintro element _ rfl
  exact s.replaceByEdit_shift (Editing.copyOf_shift element)

/-! ### References -/

theorem builtin_apply_shift (b : Builtin) (most : Int64) (arguments : List NodeId) :
    (tries k).rel (Image (Outcome.shift k)) (b.apply most s n arguments)
      (b.apply most (s.shift k) (n.shift k) (arguments.map (· + k))) := by
  have hargument := fun position =>
    Shift.tries_read (n.argument_shift arguments position (k := k))
  cases b with
  | eat => exact s.replaceByNew_shift fun _ => rfl
  | «repeat» =>
    refine (tries k).rel_bind (hargument 0) ?_
    rintro count _ rfl
    refine (tries k).rel_bind (Shift.tries_read (s.nodes.number_shift count)) ?_
    rintro times _ rfl
    exact (tries k).rel_unless Iff.rfl (Shift.tries_throw (.rejected (.builtin count _)))
      ((tries k).rel_pure rfl)
  | length =>
    refine (tries k).rel_bind (hargument 0) ?_
    rintro c _ rfl
    refine (tries k).rel_bind (Shift.tries_read (s.nodes.find_shift c)) ?_
    rintro array _ rfl
    refine (tries k).rel_bind (Shift.tries_read (array.needInt_shift "length")) ?_
    rintro length _ rfl
    exact s.replaceByNew_shift fun _ => rfl
  | concat =>
    refine (tries k).rel_bind (hargument 0) ?_
    rintro left _ rfl
    refine (tries k).rel_bind (Shift.tries_read (s.nodes.find_shift left)) ?_
    rintro l _ rfl
    refine (tries k).rel_bind (hargument 1) ?_
    rintro right _ rfl
    refine (tries k).rel_bind (Shift.tries_read (s.nodes.find_shift right)) ?_
    rintro r _ rfl
    rw [Node.slots_shift, Node.slots_shift, Slots.children_map, Slots.children_map,
      ← List.map_append]
    exact Shift.tries_take (s.replaceByEdit_shift (Builtin.joined_shift _))

theorem reduceReference_shift (S : Signature) (most : Int64) :
    (tries k).rel (Image (Outcome.shift k)) (s.reduceReference S most n)
      ((s.shift k).reduceReference S most (n.shift k)) := by
  refine (tries k).rel_bind (Shift.tries_read (n.needText_shift "name")) ?_
  rintro name _ rfl
  rw [Node.slots_shift, Slots.children_map, s.definition?_shift]
  cases S.builtin? name with
  | some p => exact s.builtin_apply_shift n p.builtin most n.slots.children
  | none =>
    cases s.definition? name with
    | none => exact Shift.tries_throw (.rejected (.unknownName n.id name))
    | some d => exact Shift.tries_take (s.replaceByEdit_shift (unfolding_shift d n.slots.children))

/-- A shifted node is reduced in the shifted state to what the node is reduced to, shifted. -/
theorem reduce_shift (S : Signature) (most : Int64) :
    (tries k).rel (Image (Outcome.shift k)) (s.reduce S most n)
      ((s.shift k).reduce S most (n.shift k)) := by
  unfold reduce
  rw [Node.kind_shift]
  split
  · exact Shift.tries_take (s.reduceApply_shift n)
  · exact s.reduceBinop_shift n
  · exact Shift.tries_take (s.reduceConditional_shift n)
  · exact Shift.tries_take (s.reduceNot_shift n)
  · exact Shift.tries_take (s.reduceMember_shift n)
  · exact s.reduceReference_shift n S most
  all_goals exact (tries k).rel_pure rfl

end State

end TermForest
