import TermForest.Proofs.Mirror.Edit
import TermForest.Rule.Reduce

/-!
# Mirrored rules

What a rule makes of a node goes together with what it makes of the node in a mirrored forest: the
replacements reflect each other, a deferred effect is the same, and so is a refusal.
-/

namespace TermForest

namespace Mirror

variable {M : Mirror} {F F' : Forest} {x y p q : NodeId} {n n' : Node}

/-! ### Renaming binders -/

theorem Reflects.boundName? (h : M.Reflects F F') (hn : M.Nodes n n') :
    F'.boundName? n' = F.boundName? n := by
  unfold Forest.boundName?
  rw [hn.1, Node.kind_mapIds, h.peek hn.2]
  cases F.peek n "arg" <;> rfl

theorem Reflects.shadowing (h : M.Reflects F F') (hx : M.Ids x y) (name : String) :
    Agree M.strict (List.Forall₂ M.Ids) (F.shadowing x name) (F'.shadowing y name) :=
  (h.findAll hx fun n n' hn => by rw [h.boundName? hn]).bind fun _ _ hns =>
    .ok (List.forall₂_map_left_iff.2 (List.forall₂_map_right_iff.2 (hns.imp fun _ _ => Nodes.ids)))

theorem edits_editOccurrences (hx : M.Ids x y) (name : String) {edit edit' : Node → Editing Node}
    (hedit : ∀ n n', M.Nodes n n' → M.edits.rel M.Nodes (edit n) (edit' n')) :
    M.edits.rel M.Ids (Editing.editOccurrences x name edit)
      (Editing.editOccurrences y name edit') := by
  refine M.edits.rel_bind (Relator.rel_get _) fun F F' hF => ?_
  refine M.edits.rel_bind (edits_lift (hF.shadowing hx name)) fun hidden hidden' hh => ?_
  obtain ⟨rfl, -⟩ := eq_map_of_forall₂ hh
  refine M.edits.rel_bind (Revisions.run ⟨fun n n' hn => ?_, fun n n' hn => ?_⟩ hx)
    fun _ _ ho => M.edits.rel_pure ho
  · simp [hn.1, Std.ExtTreeSet.mem_ofList, List.mem_map, image_injective.eq_iff]
  · refine M.edits.rel_ite (by rw [hn.1]; rfl) (fun _ _ => hedit n n' hn) fun _ _ =>
      M.edits.rel_pure hn

theorem edits_renameLambda (hx : M.Ids x y) (name : String) :
    M.edits.rel (fun _ _ => True) (Editing.renameLambda x name) (Editing.renameLambda y name) := by
  refine M.edits.rel_bind (edits_find hx) fun n n' hn => ?_
  refine M.edits.rel_bind (edits_lift (hn.needSlot "arg")) fun _ _ harg => ?_
  refine M.edits.rel_bind (edits_find harg) fun binder binder' hbinder => ?_
  refine M.edits.rel_bind (edits_lift (hbinder.needText "name")) ?_
  rintro old _ rfl
  refine M.edits.rel_bind (edits_lift (hn.needSlot "body")) fun _ _ hbody => ?_
  refine M.edits.rel_bind (edits_editOccurrences hbody old fun m m' hm =>
    M.edits.rel_pure (hm.withField "name" (.text name))) fun _ _ _ => ?_
  exact edits_insert (hbinder.withField "name" (.text name))

theorem edits_freshenBinders (hx : M.Ids x y) (name : String) (free taken : List String) :
    M.edits.rel (fun _ _ => True) (Editing.freshenBinders x name free taken)
      (Editing.freshenBinders y name free taken) := by
  refine M.edits.rel_bind (Relator.rel_get _) fun F F' hF => ?_
  refine M.edits.rel_bind (edits_lift (hF.variableNames hx)) ?_
  rintro names _ rfl
  refine M.edits.rel_bind (edits_lift (hF.findAll hx fun n n' hn => by rw [hF.boundName? hn]))
    fun lambdas lambdas' hl => ?_
  refine M.edits.rel_bind (M.edits.rel_foldlM (Q := Eq) (hl.imp fun m m' hm => ?_) rfl)
    fun _ _ _ => M.edits.rel_pure trivial
  rintro taken _ rfl
  exact M.edits.rel_bind (edits_renameLambda hm.ids _) fun _ _ _ => M.edits.rel_pure rfl

/-! ### Applications -/

theorem edits_applyLambda (hn : M.Nodes n n') (hx : M.Ids x y) :
    M.edits.rel M.Ids (Editing.applyLambda n x) (Editing.applyLambda n' y) := by
  refine M.edits.rel_bind (Relator.rel_get _) fun F F' hF => ?_
  refine M.edits.rel_bind (edits_lift (hn.needSlot "arg")) fun _ _ harg => ?_
  refine M.edits.rel_bind (edits_find harg) fun binder binder' hbinder => ?_
  refine M.edits.rel_bind (edits_lift (hbinder.needText "name")) ?_
  rintro name _ rfl
  refine M.edits.rel_bind (edits_lift (hn.needSlot "body")) fun _ _ hslot => ?_
  refine M.edits.rel_bind (edits_copyOf hslot) fun body body' hbody => ?_
  refine M.edits.rel_bind (edits_lift (hF.freeVariables hx)) ?_
  rintro free _ rfl
  have hrest : M.edits.rel M.Ids
      (Editing.editOccurrences body name fun _ => Editing.copy x)
      (Editing.editOccurrences body' name fun _ => Editing.copy y) :=
    edits_editOccurrences hbody name fun _ _ _ => edits_copy hx false
  refine M.edits.rel_ite Iff.rfl (fun _ _ => ?_) fun _ _ => hrest
  refine M.edits.rel_bind (edits_lift (hF.variableNames hx)) ?_
  rintro names _ rfl
  exact M.edits.rel_bind (edits_freshenBinders hbody name free names) fun _ _ _ => hrest

theorem edits_supplyArgument (hn : M.Nodes n n') (hx : M.Ids x y) :
    M.edits.rel M.Ids (Editing.supplyArgument n x) (Editing.supplyArgument n' y) := by
  refine M.edits.rel_bind (edits_copy hn.ids false) fun f f' hf => ?_
  refine M.edits.rel_bind (Relator.rel_get _) fun F F' hF => ?_
  rw [hf.1, hF.openParameter? hf.2, ← hf.1]
  cases F.openParameter? f with
  | none => exact fun _ _ _ _ => .fatal nofun nofun
  | some e =>
    refine M.edits.rel_bind (edits_copyOf hx) fun _ _ hbound => ?_
    refine M.edits.rel_bind (edits_fill hf e.1 hbound) fun _ _ hfilled => ?_
    exact M.edits.rel_bind (edits_insert hfilled) fun _ _ _ => M.edits.rel_pure hf.ids

theorem edits_unfolding (hn : M.Nodes n n') {xs ys : List NodeId} (hxs : List.Forall₂ M.Ids xs ys) :
    M.edits.rel M.Ids (State.unfolding n xs) (State.unfolding n' ys) := by
  refine M.edits.rel_bind (edits_lift (hn.needSlot "body")) fun _ _ hslot => ?_
  refine M.edits.rel_bind (edits_copyOf hslot) fun _ _ hbody => ?_
  refine M.edits.rel_foldlM (hxs.imp fun _ _ hx _ _ hc => ?_) hbody
  exact M.edits.rel_bind (edits_copyOf hx) fun _ _ ha => edits_apply hc ha

/-! ### Builtins -/

theorem edits_joined {xs ys : List NodeId} (hxs : List.Forall₂ M.Ids xs ys) :
    M.edits.rel M.Ids (Builtin.joined xs) (Builtin.joined ys) := by
  refine M.edits.rel_bind edits_newId fun id id' hid => ?_
  obtain ⟨rfl, hseen⟩ := eq_map_of_forall₂ hxs
  refine M.edits.rel_bind (M.edits.rel_mapM
    (Q := fun e e' => e' = (e.1, M.image e.2) ∧ M.seen e.2) ?_) fun es es' hes => ?_
  · rw [List.zipIdx_map, List.forall₂_map_right_iff, List.forall₂_same]
    rintro ⟨x, position⟩ hx
    have hx := hseen x (List.fst_mem_of_mem_zipIdx hx)
    refine M.edits.rel_bind (edits_copyOf ⟨rfl, hx⟩) fun c c' hc => ?_
    refine M.edits.rel_bind (edits_attach hc hid (elementSlot position)) fun _ _ _ => ?_
    exact M.edits.rel_pure ⟨by rw [hc.1]; rfl, hc.2⟩
  · obtain ⟨rfl, hslots⟩ := eq_map_of_forall₂ hes
    have harray : M.Nodes { id, kind := .array, slots := .ofList es }
        { id := id', kind := .array, slots := .ofList (es.map fun e => (e.1, M.image e.2)) } := by
      rw [hid.1, ← Slots.map_ofList]
      exact ⟨rfl, hid.2, Slots.forall_children_ofList hslots⟩
    rw [List.length_map]
    refine M.edits.rel_bind (edits_insert (harray.withField ..)) fun _ _ _ => ?_
    exact M.edits.rel_pure hid

theorem edits_applyTimes (hx : M.Ids x y) (times : Nat) (hp : M.Ids p q) :
    M.edits.rel M.Ids (Builtin.applyTimes x times p) (Builtin.applyTimes y times q) := by
  induction times generalizing p q with
  | zero => exact M.edits.rel_pure hp
  | succ times ih =>
    refine M.edits.rel_bind (edits_copyOf hx) fun _ _ hf => ?_
    exact M.edits.rel_bind (edits_apply hf hp) fun _ _ => ih

theorem Reflects.number (h : M.Reflects F F') (hx : M.Ids x y) :
    Agree M.strict Eq (F.number x) (F'.number y) :=
  (h.find hx).bind fun _ _ hn => hn.needInt "value"

/-- An argument that is its own image. -/
theorem agree_argument (call call' : Node) {arguments : List NodeId}
    (h : ∀ c ∈ arguments, M.Ids c c) (position : Nat) :
    Agree M.strict (fun c c' => c' = c ∧ M.Ids c c) (call.argument arguments position)
      (call'.argument arguments position) := by
  unfold Node.argument
  cases hc : arguments[position]? with
  | none => exact .fatal nofun nofun
  | some c => exact .ok ⟨rfl, h c (List.mem_of_getElem? hc)⟩

theorem edits_repeated {e : Effect} (hnode : M.Ids e.node e.node)
    (hargs : ∀ c ∈ e.arguments, M.Ids c c) :
    M.edits.rel M.Ids (Builtin.repeated e) (Builtin.repeated e) := by
  refine M.edits.rel_bind (edits_find hnode) fun call call' hcall => ?_
  refine M.edits.rel_bind (Relator.rel_get _) fun F F' hF => ?_
  refine M.edits.rel_bind (edits_lift (agree_argument call call' hargs 0)) ?_
  rintro count _ ⟨rfl, hcount⟩
  refine M.edits.rel_bind (edits_lift (hF.number hcount)) ?_
  rintro times _ rfl
  refine M.edits.rel_bind (edits_lift (agree_argument call call' hargs 1)) ?_
  rintro function _ ⟨rfl, hfunction⟩
  refine M.edits.rel_bind (Relator.rel_get _) fun G G' hG => ?_
  refine M.edits.rel_bind (edits_lift (hG.variableNames hfunction)) ?_
  rintro names _ rfl
  refine M.edits.rel_bind edits_newId fun _ _ hbinder => ?_
  refine M.edits.rel_bind edits_newId fun _ _ hvar => ?_
  have hname := fun k {x y} (hx : M.Ids x y) =>
    (hx.leaf k).withField "name" (.text (nameOutside names))
  refine M.edits.rel_bind (edits_insert (hname .binder hbinder)) fun _ _ _ => ?_
  refine M.edits.rel_bind (edits_insert (hname .var hvar)) fun _ _ _ => ?_
  refine M.edits.rel_bind (edits_applyTimes hfunction _ hvar) fun _ _ hbody => ?_
  refine M.edits.rel_bind edits_newId fun _ _ hid => ?_
  refine M.edits.rel_bind (edits_fill (hid.leaf .lambda) "arg" hbinder) fun _ _ hl => ?_
  refine M.edits.rel_bind (edits_fill hl "body" hbody) fun _ _ hl => ?_
  exact M.edits.rel_bind (edits_insert hl) fun _ _ _ => M.edits.rel_pure hl.ids

/-! ### Outcomes -/

/-- Replacements that reflect each other. -/
def Replacements (M : Mirror) (w w' : Replacement) : Prop :=
  M.Reflects w.forest w'.forest ∧ M.Ids w.root w'.root

/-- Outcomes of a rule that go together. -/
inductive Outcomes (M : Mirror) : Outcome → Outcome → Prop where
  | replaced {w w' : Replacement} (h : M.Replacements w w') :
    M.Outcomes (.replaced w) (.replaced w')
  | deferred {e : Effect} (node : M.Ids e.node e.node) (arguments : ∀ c ∈ e.arguments, M.Ids c c) :
    M.Outcomes (.deferred e) (.deferred e)
  | noRule : M.Outcomes .noRule .noRule

theorem takes_replacement (h : M.Reflects F F') {edit edit' : Editing NodeId}
    (hedit : M.edits.rel M.Ids edit edit') :
    (M.takes Fault).rel M.Replacements (edit.replacement F) (edit'.replacement F') :=
  (M.takes Fault).rel_bind (hedit F F' h) fun _ _ ho => (M.takes Fault).rel_pure ⟨ho.2, ho.1⟩

/-- Two deferred calls of the same builtin end alike. -/
theorem takes_finish (h : M.Reflects F F') (S : Signature) {e : Effect}
    (hnode : M.Ids e.node e.node) (hargs : ∀ c ∈ e.arguments, M.Ids c c) :
    (M.takes Fault).rel M.Replacements (S.finish F e) (S.finish F' e) := by
  unfold Signature.finish
  cases S.builtin? e.builtin.name with
  | none => exact fun _ => .fatal nofun nofun
  | some b =>
    refine (M.takes Fault).rel_ite Iff.rfl (fun _ _ => ?_) fun _ _ => fun _ => .fatal nofun nofun
    exact takes_replacement h (edits_repeated hnode hargs)

/-- Two states with mirrored nodes and the same definitions, which are their own images. -/
structure States (M : Mirror) (s s' : State) : Prop where
  nodes : M.Reflects s.nodes s'.nodes
  definition? : ∀ name, s'.definition? name = s.definition? name
  defined : ∀ name d, s.definition? name = some d → M.Nodes d d

namespace States

variable {s s' : State}

theorem replaceBy (h : M.States s s') (hn : M.Nodes n n') :
    M.Outcomes (s.replaceBy n) (s'.replaceBy n') :=
  .replaced ⟨h.nodes.insert hn, hn.ids⟩

theorem replaceByEdit (h : M.States s s') {edit edit' : Editing NodeId}
    (hedit : M.edits.rel M.Ids edit edit') :
    (M.takes Fault).rel M.Outcomes (s.replaceByEdit edit) (s'.replaceByEdit edit') :=
  (M.takes Fault).rel_bind (takes_replacement h.nodes hedit) fun _ _ hw =>
    (M.takes Fault).rel_pure (.replaced hw)

/-- A new node without children in the place of the reduced one. -/
theorem takes_replaceBy {ε : Type} [Faulty ε] (h : M.States s s') {make : NodeId → Node}
    (hmake : ∀ x y, M.Ids x y → M.Nodes (make x) (make y)) :
    (M.takes ε).rel M.Outcomes (do return s.replaceBy (make (← Supply.take)))
      (do return s'.replaceBy (make (← Supply.take))) :=
  (M.takes ε).rel_bind takes_take fun _ _ hid =>
    (M.takes ε).rel_pure (h.replaceBy (hmake _ _ hid))

theorem reduceApply (h : M.States s s') (hn : M.Nodes n n') :
    (M.takes Fault).rel M.Outcomes (s.reduceApply n) (s'.reduceApply n') := by
  refine (M.takes Fault).rel_bind (Relator.takes_lift (hn.needSlot "callee")) fun _ _ hcallee => ?_
  refine (M.takes Fault).rel_bind (Relator.takes_lift (hn.needSlot "argument")) fun _ _ harg => ?_
  refine (M.takes Fault).rel_bind (Relator.takes_lift (h.nodes.find hcallee)) fun f f' hf => ?_
  rw [hf.1, Node.kind_mapIds, ← hf.1]
  split
  · exact h.replaceByEdit (edits_applyLambda hf harg)
  · exact h.replaceByEdit (edits_supplyArgument hf harg)
  · exact (M.takes Fault).rel_pure .noRule

theorem calculate (h : M.States s s') (n : Node) (op : Operator) {l l' r r' : Node}
    (hl : M.Nodes l l') (hr : M.Nodes r r') :
    (M.takes Failure).rel M.Outcomes (State.reduceBinop.calculate s n op l r)
      (State.reduceBinop.calculate s' n op l' r') := by
  refine (M.takes Failure).rel_bind (takes_read (hl.needInt "value")) ?_
  rintro a _ rfl
  refine (M.takes Failure).rel_bind (takes_read (hr.needInt "value")) ?_
  rintro b _ rfl
  split
  · exact h.takes_replaceBy fun _ _ hid => (hid.leaf .boolean).withField ..
  · exact h.takes_replaceBy fun _ _ hid => (hid.leaf .boolean).withField ..
  · split
    · exact h.takes_replaceBy fun _ _ hid => (hid.leaf .number).withField ..
    · exact Relator.takes_refuse _

theorem reduceBinop (h : M.States s s') (hn : M.Nodes n n) :
    (M.takes Failure).rel M.Outcomes (s.reduceBinop n) (s'.reduceBinop n) := by
  refine (M.takes Failure).rel_bind (takes_read (hn.needText "op")) ?_
  rintro op _ rfl
  refine (M.takes Failure).rel_bind (takes_read (hn.needSlot "left"))
    fun left left' hleft => ?_
  refine (M.takes Failure).rel_bind (takes_read (hn.needSlot "right"))
    fun right right' hright => ?_
  refine (M.takes Failure).rel_bind (takes_read (h.nodes.find hleft))
    fun l l' hl => ?_
  refine (M.takes Failure).rel_bind (takes_read (h.nodes.find hright))
    fun r r' hr => ?_
  have hsame := takes_read (h.nodes.sameShape hleft hright)
  split
  · refine (M.takes Failure).rel_bind hsame ?_
    rintro same _ rfl
    exact h.takes_replaceBy fun _ _ hid => (hid.leaf .boolean).withField ..
  · refine (M.takes Failure).rel_bind hsame ?_
    rintro same _ rfl
    exact h.takes_replaceBy fun _ _ hid => (hid.leaf .boolean).withField ..
  · refine (M.takes Failure).rel_ite (by rw [hl.1]; rfl) (fun _ _ => ?_) fun _ _ =>
      h.calculate n .add hl hr
    refine (M.takes Failure).rel_bind (takes_read (hl.needText "value")) ?_
    rintro first _ rfl
    refine (M.takes Failure).rel_bind (takes_read (hr.needText "value")) ?_
    rintro last _ rfl
    exact h.takes_replaceBy fun _ _ hid => (hid.leaf .string).withField ..
  · exact h.calculate n _ hl hr
  · exact fun _ => .fatal ⟨_, rfl, nofun⟩ ⟨_, rfl, nofun⟩

theorem reduceConditional (h : M.States s s') (hn : M.Nodes n n') :
    (M.takes Fault).rel M.Outcomes (s.reduceConditional n) (s'.reduceConditional n') := by
  refine (M.takes Fault).rel_bind (Relator.takes_lift (hn.needSlot "condition")) fun _ _ hc => ?_
  refine (M.takes Fault).rel_bind (Relator.takes_lift (h.nodes.find hc)) fun _ _ hc => ?_
  refine (M.takes Fault).rel_bind (Relator.takes_lift (hc.needBool "value")) ?_
  rintro value _ rfl
  refine (M.takes Fault).rel_bind (Relator.takes_lift (hn.needSlot _)) fun _ _ hbranch => ?_
  exact h.replaceByEdit (edits_copyOf hbranch)

theorem reduceNot (h : M.States s s') (hn : M.Nodes n n') :
    (M.takes Fault).rel M.Outcomes (s.reduceNot n) (s'.reduceNot n') := by
  refine (M.takes Fault).rel_bind (Relator.takes_lift (hn.needSlot "value")) fun _ _ hc => ?_
  refine (M.takes Fault).rel_bind (Relator.takes_lift (h.nodes.find hc)) fun _ _ hc => ?_
  refine (M.takes Fault).rel_bind (Relator.takes_lift (hc.needBool "value")) ?_
  rintro value _ rfl
  exact h.takes_replaceBy fun _ _ hid => (hid.leaf .boolean).withField ..

theorem reduceMember (h : M.States s s') (hn : M.Nodes n n') :
    (M.takes Fault).rel M.Outcomes (s.reduceMember n) (s'.reduceMember n') := by
  refine (M.takes Fault).rel_bind (Relator.takes_lift (hn.needSlot "array")) fun _ _ hc => ?_
  refine (M.takes Fault).rel_bind (Relator.takes_lift (h.nodes.find hc)) fun _ _ harray => ?_
  refine (M.takes Fault).rel_bind (Relator.takes_lift (hn.needSlot "index")) fun _ _ hindex => ?_
  refine (M.takes Fault).rel_bind (Relator.takes_lift (h.nodes.number hindex)) ?_
  rintro position _ rfl
  refine (M.takes Fault).rel_bind (Relator.takes_lift (harray.needSlot _)) fun _ _ helement => ?_
  exact h.replaceByEdit (edits_copyOf helement)

/-- A builtin whose arguments are their own images. -/
theorem builtin_apply (h : M.States s s') (b : Builtin) (most : Int64) {call : Node}
    (hcall : M.Nodes call call) {arguments : List NodeId} (hargs : ∀ c ∈ arguments, M.Ids c c) :
    (M.takes Failure).rel M.Outcomes (b.apply most s call arguments)
      (b.apply most s' call arguments) := by
  have hargument := fun i => takes_read (agree_argument call call hargs i)
  cases b with
  | eat => exact h.takes_replaceBy fun _ _ hid => hid.leaf .void
  | «repeat» =>
    refine (M.takes Failure).rel_bind (hargument 0) ?_
    rintro count _ ⟨rfl, hcount⟩
    refine (M.takes Failure).rel_bind (takes_read (h.nodes.number hcount)) ?_
    rintro times _ rfl
    refine (M.takes Failure).rel_ite Iff.rfl (fun _ _ => Relator.takes_refuse _) fun _ _ => ?_
    exact (M.takes Failure).rel_pure (.deferred hcall.ids hargs)
  | length =>
    refine (M.takes Failure).rel_bind (hargument 0) ?_
    rintro array _ ⟨rfl, harray⟩
    refine (M.takes Failure).rel_bind (takes_read (h.nodes.find harray))
      fun _ _ hn => ?_
    refine (M.takes Failure).rel_bind (takes_read (hn.needInt "length")) ?_
    rintro length _ rfl
    exact h.takes_replaceBy fun _ _ hid => (hid.leaf .number).withField ..
  | concat =>
    refine (M.takes Failure).rel_bind (hargument 0) ?_
    rintro left _ ⟨rfl, hleft⟩
    refine (M.takes Failure).rel_bind (takes_read (h.nodes.find hleft))
      fun _ _ hl => ?_
    refine (M.takes Failure).rel_bind (hargument 1) ?_
    rintro right _ ⟨rfl, hright⟩
    refine (M.takes Failure).rel_bind (takes_read (h.nodes.find hright))
      fun _ _ hr => ?_
    exact Relator.takes_liftSupply
      (h.replaceByEdit (edits_joined (List.rel_append hl.children hr.children)))

theorem reduceReference (h : M.States s s') (S : Signature) (most : Int64) (hn : M.Nodes n n) :
    (M.takes Failure).rel M.Outcomes (s.reduceReference S most n)
      (s'.reduceReference S most n) := by
  refine (M.takes Failure).rel_bind (takes_read (hn.needText "name")) ?_
  rintro name _ rfl
  cases S.builtin? name with
  | some b => exact h.builtin_apply b.builtin most hn (List.forall₂_same.1 hn.children)
  | none =>
    rw [h.definition? name]
    cases hd : s.definition? name with
    | none => exact Relator.takes_refuse _
    | some d =>
      exact Relator.takes_liftSupply
        (h.replaceByEdit (edits_unfolding (h.defined name d hd) hn.children))

/-- A node that is its own image is reduced alike. -/
theorem reduce (h : M.States s s') (S : Signature) (most : Int64) (hn : M.Nodes n n) :
    (M.takes Failure).rel M.Outcomes (s.reduce S most n) (s'.reduce S most n) := by
  unfold State.reduce
  split
  · exact Relator.takes_liftSupply (h.reduceApply hn)
  · exact h.reduceBinop hn
  · exact Relator.takes_liftSupply (h.reduceConditional hn)
  · exact Relator.takes_liftSupply (h.reduceNot hn)
  · exact Relator.takes_liftSupply (h.reduceMember hn)
  · exact h.reduceReference S most hn
  all_goals exact (M.takes Failure).rel_pure .noRule

end States

end Mirror

end TermForest
