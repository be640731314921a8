import TermForest.Proofs.Shift.Edit
import TermForest.Rule.Check
import TermForest.Rule.Reduce

/-!
# Rules on shifted ids

The checks before a reduction refuse a shifted node for the same reason, and a rule makes of it what it
makes of the node itself, shifted.
-/

namespace TermForest

open Shift (reads checks takes tries edits)

variable {k : Nat}

/-! ### Renaming binders -/

namespace Forest

variable (F : Forest)

theorem boundName?_shift (n : Node) : (F.shift k).boundName? (n.shift k) = F.boundName? n := by
  unfold boundName?
  rw [Node.kind_shift, peek_shift]
  cases F.peek n "arg" <;> rfl

theorem shadowing_shift (x : NodeId) (name : String) :
    (reads k).rel (Image (List.map (· + k))) (F.shadowing x name)
      ((F.shift k).shadowing (x + k) name) := by
  refine (reads k).rel_bind (F.findAll_shift x fun n => by rw [F.boundName?_shift n]) ?_
  rintro ns _ rfl
  refine (reads k).rel_pure ?_
  rw [Image, List.map_map, List.map_map]
  rfl

end Forest

namespace Editing

variable (x : NodeId)

theorem editOccurrences_shift (name : String) {edit edit' : Node → Editing Node}
    (hedit : ∀ n : Node, (edits k).rel (Image (Node.shift k)) (edit n) (edit' (n.shift k))) :
    (edits k).rel (Image (· + k)) (editOccurrences x name edit)
      (editOccurrences (x + k) name edit') := by
  refine (edits k).rel_bind (Relator.rel_get _) ?_
  rintro F _ rfl
  refine (edits k).rel_bind (Shift.edits_read (F.shadowing_shift x name)) ?_
  rintro hidden _ rfl
  refine (edits k).rel_bind (Revision.Shifted.run x ⟨fun n => ?_, fun n => ?_⟩) fun _ _ ho =>
    (edits k).rel_pure ho
  · simp [Std.ExtTreeSet.mem_ofList]
  · exact (edits k).rel_ite Iff.rfl (fun _ _ => hedit n) fun _ _ => (edits k).rel_pure rfl

theorem renameLambda_shift (name : String) :
    (edits k).rel (fun _ _ => True) (renameLambda x name) (renameLambda (x + k) name) := by
  refine (edits k).rel_bind (find_shift x) ?_
  rintro n _ rfl
  refine (edits k).rel_bind (Shift.edits_read (n.needSlot_shift "arg")) ?_
  rintro arg _ rfl
  refine (edits k).rel_bind (find_shift arg) ?_
  rintro binder _ rfl
  refine (edits k).rel_bind (Shift.edits_read (binder.needText_shift "name")) ?_
  rintro old _ rfl
  refine (edits k).rel_bind (Shift.edits_read (n.needSlot_shift "body")) ?_
  rintro body _ rfl
  refine (edits k).rel_bind (editOccurrences_shift body old fun m => (edits k).rel_pure rfl)
    fun _ _ _ => ?_
  exact insert_shift (binder.withField "name" (.text name))

theorem freshenBinders_shift (name : String) (free taken : List String) :
    (edits k).rel (fun _ _ => True) (freshenBinders x name free taken)
      (freshenBinders (x + k) name free taken) := by
  refine (edits k).rel_bind (Relator.rel_get _) ?_
  rintro F _ rfl
  refine (edits k).rel_bind (Shift.edits_read (F.variableNames_shift x)) ?_
  rintro names _ rfl
  refine (edits k).rel_bind (Shift.edits_read
    (F.findAll_shift x fun n => by rw [F.boundName?_shift n])) ?_
  rintro lambdas _ rfl
  refine (edits k).rel_bind ((edits k).rel_foldlM_map (h := id) (fun lambda _ taken => ?_) _)
    fun _ _ _ => (edits k).rel_pure trivial
  exact (edits k).rel_bind (renameLambda_shift lambda.id _) fun _ _ _ => (edits k).rel_pure rfl

/-! ### Applications -/

theorem applyLambda_shift (lambda : Node) :
    (edits k).rel (Image (· + k)) (applyLambda lambda x)
      (applyLambda (lambda.shift k) (x + k)) := by
  refine (edits k).rel_bind (Relator.rel_get _) ?_
  rintro F _ rfl
  refine (edits k).rel_bind (Shift.edits_read (lambda.needSlot_shift "arg")) ?_
  rintro arg _ rfl
  refine (edits k).rel_bind (find_shift arg) ?_
  rintro binder _ rfl
  refine (edits k).rel_bind (Shift.edits_read (binder.needText_shift "name")) ?_
  rintro name _ rfl
  refine (edits k).rel_bind (Shift.edits_read (lambda.needSlot_shift "body")) ?_
  rintro slot _ rfl
  refine (edits k).rel_bind (copyOf_shift slot) ?_
  rintro body _ rfl
  refine (edits k).rel_bind (Shift.edits_read (F.freeVariables_shift x)) ?_
  rintro free _ rfl
  have hrest : (edits k).rel (Image (· + k)) (editOccurrences body name fun _ => copy x)
      (editOccurrences (body + k) name fun _ => copy (x + k)) :=
    editOccurrences_shift body name fun _ => copy_shift x false
  refine (edits k).rel_ite Iff.rfl (fun _ _ => ?_) fun _ _ => hrest
  refine (edits k).rel_bind (Shift.edits_read (F.variableNames_shift x)) ?_
  rintro names _ rfl
  exact (edits k).rel_bind (freshenBinders_shift body name free names) fun _ _ _ => hrest

theorem supplyArgument_shift (reference : Node) :
    (edits k).rel (Image (· + k)) (supplyArgument reference x)
      (supplyArgument (reference.shift k) (x + k)) := by
  refine (edits k).rel_bind (copy_shift reference.id false) ?_
  rintro f _ rfl
  refine (edits k).rel_bind (Relator.rel_get _) ?_
  rintro F _ rfl
  rw [F.openParameter?_shift f]
  cases F.openParameter? f with
  | none => exact Relator.rel_lift _ (Shift.takes_throw (.broken (.noOpenParameter reference.id)))
  | some e =>
    refine (edits k).rel_bind (copyOf_shift x) ?_
    rintro bound _ rfl
    refine (edits k).rel_bind (fill_shift bound f e.1) ?_
    rintro filled _ rfl
    exact (edits k).rel_bind (insert_shift filled) fun _ _ _ => (edits k).rel_pure rfl

end Editing

theorem State.unfolding_shift (definition : Node) (arguments : List NodeId) :
    (edits k).rel (Image (· + k)) (State.unfolding definition arguments)
      (State.unfolding (definition.shift k) (arguments.map (· + k))) := by
  refine (edits k).rel_bind (Shift.edits_read (definition.needSlot_shift "body")) ?_
  rintro slot _ rfl
  refine (edits k).rel_bind (Editing.copyOf_shift slot) ?_
  rintro body _ rfl
  refine (edits k).rel_foldlM_map (fun argument _ callee => ?_) body
  refine (edits k).rel_bind (Editing.copyOf_shift argument) ?_
  rintro c _ rfl
  exact Editing.apply_shift c callee

/-! ### Builtins -/

/-- The same effect of a shifted call on shifted arguments. -/
def Effect.shift (k : Nat) (e : Effect) : Effect where
  builtin := e.builtin
  node := e.node + k
  arguments := e.arguments.map (· + k)

@[simp] theorem Effect.builtin_shift (e : Effect) : (e.shift k).builtin = e.builtin := rfl

theorem Node.argument_shift (call : Node) (arguments : List NodeId) (position : Nat) :
    (reads k).rel (Image (· + k)) (call.argument arguments position)
      ((call.shift k).argument (arguments.map (· + k)) position) := by
  unfold Node.argument
  rw [List.getElem?_map]
  cases arguments[position]? with
  | none => exact Shift.reads_error (.malformed (.noArgument call.id position))
  | some c => exact .ok rfl

namespace Builtin

theorem joined_shift (elements : List NodeId) :
    (edits k).rel (Image (· + k)) (joined elements) (joined (elements.map (· + k))) := by
  refine (edits k).rel_bind Shift.edits_newId ?_
  rintro id _ rfl
  rw [List.zipIdx_map, List.length_map]
  refine (edits k).rel_bind ((edits k).rel_mapM_map
    (h := fun e : String × NodeId => (e.1, e.2 + k)) fun e _ => ?_) ?_
  · refine (edits k).rel_bind (Editing.copyOf_shift e.1) ?_
    rintro c _ rfl
    exact (edits k).rel_bind (Editing.attach_shift c id (elementSlot e.2)) fun _ _ _ =>
      (edits k).rel_pure rfl
  · rintro es _ rfl
    rw [← Slots.map_ofList (f := (· + k))]
    exact (edits k).rel_bind (Editing.insert_shift (Node.withField
      { id, kind := .array, slots := .ofList es } "length" (.int (Int64.ofNat elements.length))))
      fun _ _ _ => (edits k).rel_pure rfl

theorem applyTimes_shift (function : NodeId) (times : Nat) (body : NodeId) :
    (edits k).rel (Image (· + k)) (applyTimes function times body)
      (applyTimes (function + k) times (body + k)) := by
  induction times generalizing body with
  | zero => exact (edits k).rel_pure rfl
  | succ times ih =>
    refine (edits k).rel_bind (Editing.copyOf_shift function) ?_
    rintro f _ rfl
    refine (edits k).rel_bind (Editing.apply_shift body f) ?_
    rintro body _ rfl
    exact ih body

theorem repeated_shift (e : Effect) :
    (edits k).rel (Image (· + k)) (repeated e) (repeated (e.shift k)) := by
  refine (edits k).rel_bind (Editing.find_shift e.node) ?_
  rintro call _ rfl
  refine (edits k).rel_bind (Relator.rel_get _) ?_
  rintro F _ rfl
  refine (edits k).rel_bind (Shift.edits_read (call.argument_shift e.arguments 0)) ?_
  rintro count _ rfl
  refine (edits k).rel_bind (Shift.edits_read (F.number_shift count)) ?_
  rintro times _ rfl
  refine (edits k).rel_bind (Shift.edits_read (call.argument_shift e.arguments 1)) ?_
  rintro function _ rfl
  refine (edits k).rel_bind (Relator.rel_get _) ?_
  rintro G _ rfl
  refine (edits k).rel_bind (Shift.edits_read (G.variableNames_shift function)) ?_
  rintro names _ rfl
  refine (edits k).rel_bind Shift.edits_newId ?_
  rintro binder _ rfl
  refine (edits k).rel_bind Shift.edits_newId ?_
  rintro body _ rfl
  refine (edits k).rel_bind (Editing.insert_shift (Node.withField { id := binder, kind := .binder }
    "name" (.text (nameOutside names)))) fun _ _ _ => ?_
  refine (edits k).rel_bind (Editing.insert_shift (Node.withField { id := body, kind := .var }
    "name" (.text (nameOutside names)))) fun _ _ _ => ?_
  refine (edits k).rel_bind (applyTimes_shift function _ body) ?_
  rintro applied _ rfl
  refine (edits k).rel_bind Shift.edits_newId ?_
  rintro id _ rfl
  refine (edits k).rel_bind (Editing.fill_shift binder { id, kind := .lambda } "arg") ?_
  rintro lambda _ rfl
  refine (edits k).rel_bind (Editing.fill_shift applied lambda "body") ?_
  rintro lambda _ rfl
  exact (edits k).rel_bind (Editing.insert_shift lambda) fun _ _ _ => (edits k).rel_pure rfl

end Builtin

/-! ### Checks -/

section checks

variable (S : Signature) (F : Forest) (s : State) (x : NodeId) (n : Node)

namespace Signature

theorem requireOneOf_shift (permitted : List CoarseType) (expected : String) :
    (checks k).rel Eq (S.requireOneOf F x permitted expected)
      (S.requireOneOf (F.shift k) (x + k) permitted expected) := by
  refine (checks k).rel_bind (Shift.checks_read (S.coarseType_shift F x)) ?_
  rintro actual _ rfl
  refine (checks k).rel_ite Iff.rfl (fun _ _ => Shift.checks_refuse (.emptyHole x)) fun _ _ => ?_
  exact (checks k).rel_ite Iff.rfl (fun _ _ => (checks k).rel_pure rfl) fun _ _ =>
    Shift.checks_refuse (.wrongType x expected actual.name)

theorem requireType_shift (permitted : CoarseType) :
    (checks k).rel Eq (S.requireType F x permitted) (S.requireType (F.shift k) (x + k) permitted) :=
  S.requireOneOf_shift F x [permitted] permitted.name

/-- A slot that has to hold a term of some type. -/
theorem requireSlot_shift (slot : String) (permitted : CoarseType) :
    (checks k).rel Eq (do S.requireType F (← n.needSlot slot) permitted)
      (do S.requireType (F.shift k) (← (n.shift k).needSlot slot) permitted) := by
  refine (checks k).rel_bind (Shift.checks_read (n.needSlot_shift slot)) ?_
  rintro c _ rfl
  exact S.requireType_shift F c permitted

/-- A term that has to have the type of another one. -/
theorem requireSame_shift (y : NodeId) :
    (checks k).rel Eq (do S.requireType F y (← S.coarseType F x))
      (do let t ← S.coarseType (F.shift k) (x + k); S.requireType (F.shift k) (y + k) t) := by
  refine (checks k).rel_bind (Shift.checks_read (S.coarseType_shift F x)) ?_
  rintro t _ rfl
  exact S.requireType_shift F y t

end Signature

theorem Builtin.check_shift (b : Builtin) (call : Node) (arguments : List NodeId) :
    (checks k).rel Eq (b.check S F call arguments)
      (b.check S (F.shift k) (call.shift k) (arguments.map (· + k))) := by
  have hargument := fun position =>
    Shift.checks_read (call.argument_shift arguments position (k := k))
  cases b with
  | eat => exact (checks k).rel_pure rfl
  | «repeat» =>
    refine (checks k).rel_bind (hargument 0) ?_
    rintro count _ rfl
    refine (checks k).rel_bind (hargument 1) ?_
    rintro function _ rfl
    exact (checks k).rel_bind (S.requireType_shift F count .number) fun _ _ _ =>
      S.requireType_shift F function .lambda
  | length =>
    refine (checks k).rel_bind (hargument 0) ?_
    rintro array _ rfl
    exact S.requireType_shift F array .array
  | concat =>
    refine (checks k).rel_bind (hargument 0) ?_
    rintro left _ rfl
    refine (checks k).rel_bind (S.requireType_shift F left .array) fun _ _ _ => ?_
    refine (checks k).rel_bind (hargument 1) ?_
    rintro right _ rfl
    exact S.requireType_shift F right .array

namespace State

theorem calledBy_shift (sought : String) (references : List Node) :
    (reads k).rel Eq (calledBy sought references)
      (calledBy sought (references.map (Node.shift k))) := by
  induction references with
  | nil => exact .ok rfl
  | cons reference references ih =>
    rw [List.map_cons, calledBy, calledBy]
    refine (reads k).rel_bind (reference.needText_shift "name") ?_
    rintro name _ rfl
    refine (reads k).rel_ite Iff.rfl (fun _ _ => (reads k).rel_pure rfl) fun _ _ => ?_
    exact (reads k).rel_bind ih fun _ _ ho => (reads k).rel_pure (ho ▸ rfl)

theorem callsFrom_shift (sought : String) (visited stack : List String) :
    (reads k).rel Eq (s.callsFrom sought visited stack)
      ((s.shift k).callsFrom sought visited stack) := by
  fun_induction s.callsFrom sought visited stack with
  | case1 visited =>
    rw [callsFrom]
    exact .ok rfl
  | case2 visited current stack hcurrent ih =>
    rw [callsFrom, if_pos hcurrent]
    exact ih
  | case3 visited current stack hcurrent hd ih =>
    rw [callsFrom, if_neg hcurrent]
    split
    · exact ih
    · next d hd' =>
      rw [definition?_shift, hd] at hd'
      cases hd'
  | case4 visited current stack hcurrent d hd ih =>
    rw [callsFrom, if_neg hcurrent]
    split
    · next hd' =>
      rw [definition?_shift, hd] at hd'
      cases hd'
    · next d' hd' =>
      rw [definition?_shift, hd] at hd'
      obtain rfl := Option.some.inj hd'
      refine (reads k).rel_bind (s.nodes.findAll_shift d.id fun _ => rfl) ?_
      rintro references _ rfl
      refine (reads k).rel_bind (calledBy_shift sought references) ?_
      rintro names _ rfl
      cases names with
      | none => exact (reads k).rel_pure rfl
      | some names => exact ih names

end State

namespace Signature

theorem checkApply_shift :
    (checks k).rel Eq (S.checkApply s n) (S.checkApply (s.shift k) (n.shift k)) := by
  refine (checks k).rel_bind (Shift.checks_read (n.needSlot_shift "callee")) ?_
  rintro callee _ rfl
  refine (checks k).rel_bind (Shift.checks_read (s.nodes.find_shift callee)) ?_
  rintro f _ rfl
  rw [Node.kind_shift]
  split
  · exact Shift.checks_refuse (.emptyHole callee)
  · refine (checks k).rel_bind (Shift.checks_read (f.needSlot_shift "arg")) ?_
    rintro arg _ rfl
    refine (checks k).rel_bind (Shift.checks_read (s.nodes.find_shift arg)) ?_
    rintro binder _ rfl
    rw [Node.kind_shift]
    split
    · exact (checks k).rel_pure rfl
    · exact Shift.checks_refuse (.emptyHole arg)
    · exact Shift.checks_refuse (.wrongType arg Kind.binder.tag binder.kind.tag)
  · refine (checks k).rel_bind (Shift.checks_read (f.needText_shift "name")) ?_
    rintro name _ rfl
    rw [State.definition?_shift, Option.isNone_map]
    refine (checks k).rel_unless Iff.rfl (Shift.checks_refuse (.unknownName callee name)) ?_
    refine (checks k).rel_ite ?_ (fun _ _ => Shift.checks_refuse (.fullyBound callee)) fun _ _ =>
      (checks k).rel_pure rfl
    rw [State.nodes_shift, s.nodes.openParameter?_shift f, Option.isNone_map]
  · refine (checks k).rel_bind (Shift.checks_read (S.coarseType_shift s.nodes callee)) ?_
    rintro actual _ rfl
    exact Shift.checks_refuse (.wrongType callee CoarseType.lambda.name actual.name)

theorem checkBinop_shift :
    (checks k).rel Eq (S.checkBinop s n) (S.checkBinop (s.shift k) (n.shift k)) := by
  refine (checks k).rel_bind (Shift.checks_read (n.needText_shift "op")) ?_
  rintro op _ rfl
  refine (checks k).rel_bind (Shift.checks_read (n.needSlot_shift "left")) ?_
  rintro left _ rfl
  refine (checks k).rel_bind (Shift.checks_read (n.needSlot_shift "right")) ?_
  rintro right _ rfl
  split
  · exact (checks k).rel_bind (S.requireOneOf_shift s.nodes left _ _) fun _ _ _ =>
      S.requireSame_shift s.nodes left right
  · exact (checks k).rel_bind (S.requireOneOf_shift s.nodes left _ _) fun _ _ _ =>
      S.requireSame_shift s.nodes left right
  · exact (checks k).rel_bind (S.requireOneOf_shift s.nodes left _ _) fun _ _ _ =>
      S.requireSame_shift s.nodes left right
  · refine (checks k).rel_bind (S.requireType_shift s.nodes left .number) fun _ _ _ => ?_
    refine (checks k).rel_bind (S.requireType_shift s.nodes right .number) fun _ _ _ => ?_
    refine (checks k).rel_ite Iff.rfl (fun _ _ => ?_) fun _ _ => (checks k).rel_pure rfl
    refine (checks k).rel_bind (Shift.checks_read (s.nodes.number_shift right)) ?_
    rintro divisor _ rfl
    exact (checks k).rel_ite Iff.rfl
      (fun _ _ => Shift.checks_refuse (.builtin right "division by zero")) fun _ _ =>
        (checks k).rel_pure rfl
  · exact Alike.error (Failure.fatal (.malformed (.strangeOperator op n.id)))

theorem checkMember_shift :
    (checks k).rel Eq (S.checkMember s n) (S.checkMember (s.shift k) (n.shift k)) := by
  refine (checks k).rel_bind (Shift.checks_read (n.needSlot_shift "array")) ?_
  rintro array _ rfl
  refine (checks k).rel_bind (Shift.checks_read (n.needSlot_shift "index")) ?_
  rintro index _ rfl
  refine (checks k).rel_bind (S.requireType_shift s.nodes array .array) fun _ _ _ => ?_
  refine (checks k).rel_bind (S.requireType_shift s.nodes index .number) fun _ _ _ => ?_
  refine (checks k).rel_bind (Shift.checks_read (s.nodes.number_shift index)) ?_
  rintro position _ rfl
  refine (checks k).rel_bind (Shift.checks_read (s.nodes.find_shift array)) ?_
  rintro elements _ rfl
  refine (checks k).rel_bind (Shift.checks_read (elements.needInt_shift "length")) ?_
  rintro length _ rfl
  exact (checks k).rel_ite Iff.rfl (fun _ _ => Shift.checks_refuse (.builtin index _)) fun _ _ =>
    (checks k).rel_pure rfl

theorem checkReference_shift :
    (checks k).rel Eq (S.checkReference s n) (S.checkReference (s.shift k) (n.shift k)) := by
  refine (checks k).rel_bind (Shift.checks_read (n.needText_shift "name")) ?_
  rintro name _ rfl
  cases S.builtin? name with
  | some p =>
    refine (checks k).rel_unless Iff.rfl (Shift.checks_refuse (.parameterCount n.id _ _)) ?_
    rw [State.nodes_shift, s.nodes.openParameter?_shift n]
    cases s.nodes.openParameter? n with
    | some e => exact Shift.checks_refuse (.emptyHole e.2)
    | none =>
      rw [Node.slots_shift, Slots.children_map]
      exact p.builtin.check_shift S s.nodes n n.slots.children
  | none =>
    rw [State.definition?_shift, Option.isNone_map]
    refine (checks k).rel_unless Iff.rfl (Shift.checks_refuse (.unknownName n.id name)) ?_
    refine (checks k).rel_bind (Shift.checks_read (s.callsFrom_shift name [] [name])) ?_
    rintro circular _ rfl
    refine (checks k).rel_unless Iff.rfl (Shift.checks_refuse (.circularCall n.id name)) ?_
    rw [State.nodes_shift, s.nodes.openParameter?_shift n]
    cases s.nodes.openParameter? n with
    | some e => exact Shift.checks_refuse (.emptyHole e.2)
    | none => exact (checks k).rel_pure rfl

/-- A shifted node is refused in the shifted state for the same reason, or passes as the node does. -/
theorem check_shift : (checks k).rel Eq (S.check s n) (S.check (s.shift k) (n.shift k)) := by
  unfold check
  rw [Node.kind_shift]
  split
  · exact Shift.checks_refuse (.emptyHole n.id)
  · refine (checks k).rel_bind (Shift.checks_read (n.needText_shift "name")) ?_
    rintro name _ rfl
    exact Shift.checks_refuse (.unknownName n.id name)
  · exact S.checkApply_shift s n
  · exact S.checkBinop_shift s n
  · exact S.requireSlot_shift s.nodes n "condition" .boolean
  · exact S.requireSlot_shift s.nodes n "value" .boolean
  · exact S.checkMember_shift s n
  · exact S.checkReference_shift s n
  all_goals exact (checks k).rel_pure rfl

end Signature

end checks

end TermForest
