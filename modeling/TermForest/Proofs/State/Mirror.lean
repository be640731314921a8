import TermForest.Proofs.Mirror.Rule
import TermForest.Proofs.State.Hung

/-!
# Mirrored steps

The first phases of a step on mirrored states leave mirrored work to do, and grafts of mirrored
replacements on mirrored states give mirrored states.
-/

namespace TermForest

namespace Mirror

variable {M : Mirror} {F F' : Forest} {x y : NodeId}

/-! ### Plans -/

/-- Plans for one redex that go together. -/
inductive Plans (M : Mirror) : Plan → Plan → Prop where
  | ready {redex : NodeId} {w w' : Replacement} (hredex : M.Ids redex redex)
    (h : M.Replacements w w') : M.Plans (.ready redex w) (.ready redex w')
  | deferred {redex : NodeId} {e : Effect} (hredex : M.Ids redex redex)
    (node : M.Ids e.node e.node) (arguments : ∀ c ∈ e.arguments, M.Ids c c) :
    M.Plans (.deferred redex e) (.deferred redex e)
  | nothing : M.Plans .nothing .nothing

theorem Outcomes.plan {o o' : Outcome} (h : M.Outcomes o o') {redex : NodeId}
    (hredex : M.Ids redex redex) : M.Plans (o.plan redex) (o'.plan redex) := by
  cases h with
  | replaced h => exact .ready hredex h
  | deferred hnode hargs => exact .deferred hredex hnode hargs
  | noRule => exact .nothing

theorem States.begin {s s' : State} (h : M.States s s') (S : Signature) (most : Int64)
    {target : NodeId} {o : Option Node} (hs : s.ready S target = .ok o)
    (hs' : s'.ready S target = .ok o) (ho : ∀ r, o = some r → M.Nodes r r) :
    (M.takes Failure).rel M.Plans (s.begin S most target) (s'.begin S most target) := by
  rw [State.begin_eq, State.begin_eq, Supply.liftM_ok hs, Supply.liftM_ok hs', pure_bind, pure_bind]
  cases o with
  | none => exact (M.takes Failure).rel_pure .nothing
  | some r =>
    exact (M.takes Failure).rel_bind (h.reduce S most (ho r rfl)) fun _ _ hout =>
      (M.takes Failure).rel_pure (Outcomes.plan hout (ho r rfl).ids)

/-! ### Grafts -/

theorem Reflects.idsUnder (h : M.Reflects F F') (hx : M.Ids x y) :
    Agree M.strict (List.Forall₂ M.Ids) (F.idsUnder x) (F'.idsUnder y) :=
  (h.findAll hx fun _ _ _ => rfl).bind fun _ _ hns =>
    .ok (List.forall₂_map_left_iff.2 (List.forall₂_map_right_iff.2 (hns.imp fun _ _ => Nodes.ids)))

theorem Reflects.has (h : M.Reflects F F') (hx : M.seen x) : F'.has (M.image x) = F.has x := by
  rw [Forest.has_eq_isSome, Forest.has_eq_isSome, h.get? x hx, Option.isSome_map]

theorem Reflects.eraseAll (h : M.Reflects F F') {ids ids' : List NodeId}
    (hids : ∀ x, M.seen x → (M.image x ∈ ids' ↔ x ∈ ids)) :
    M.Reflects (F.eraseAll ids) (F'.eraseAll ids') where
  get? x hx := by
    rw [Forest.get?_eraseAll, Forest.get?_eraseAll]
    by_cases hmem : x ∈ ids
    · rw [if_pos hmem, if_pos ((hids x hx).2 hmem), Option.map_none]
    · rw [if_neg hmem, if_neg (mt (hids x hx).1 hmem), h.get? x hx]
  closed x n hx hn := by
    rw [Forest.get?_eraseAll] at hn
    split at hn
    · cases hn
    · exact h.closed x n hx hn
  onto hs y n hn := by
    rw [Forest.get?_eraseAll] at hn
    split at hn
    · cases hn
    · exact h.onto hs y n hn

/-- Two states that go together, but for what the last step added and removed. -/
structure Matches (M : Mirror) (s s' : State) : Prop where
  nodes : M.Reflects s.nodes s'.nodes
  board : s'.board = s.board.map M.image
  toolbox : s'.toolbox = s.toolbox.map M.image
  defs : s'.defs = s.defs.map M.image
  goal : s'.goal = s.goal.map M.image
  level : s'.level = s.level
  mode : s'.mode = s.mode

/-- Two states that go together in all they hold. -/
structure MatchesAll (M : Mirror) (s s' : State) : Prop extends M.Matches s s' where
  added : s'.added = s.added.map M.image
  removed : s'.removed = s.removed.map M.image

theorem Matches.holdInPlace {s s' : State} (h : M.Matches s s') (hs : M.strict)
    (hF : M.Reflects F F') (redex : NodeId) (hx : M.Ids x y) (added removed : List NodeId) :
    Agree M.strict M.MatchesAll (s.holdInPlace redex F x added removed)
      (s'.holdInPlace (M.image redex) F' y (added.map M.image) (removed.map M.image)) := by
  unfold State.holdInPlace
  refine (h.nodes.find ⟨rfl, M.seen_of_strict hs redex⟩).bind fun r r' hr => ?_
  refine (hF.find hx).bind fun n n' hn => ?_
  have hroot : M.Nodes { n with parent := r.parent, parentSlot := r.parentSlot }
      { n' with parent := r'.parent, parentSlot := r'.parentSlot } := by
    rw [hn.1, hr.1]
    exact ⟨rfl, hn.2.id, hn.2.children⟩
  have hnodes := hF.insert hroot
  rw [hr.1] at hnodes hroot ⊢
  cases hparent : r.parent with
  | none =>
    rw [Node.parent_mapIds, hparent] at hnodes ⊢
    refine .ok ⟨⟨hnodes, ?_, h.toolbox, h.defs, h.goal, h.level, h.mode⟩, rfl, rfl⟩
    show s'.board.map _ = (s.board.map _).map _
    rw [h.board, List.map_map, List.map_map]
    refine List.map_congr_left fun id _ => ?_
    simp only [Function.comp, image_injective.eq_iff, hn.1]
    split <;> rfl
  | some p =>
    cases hslot : r.parentSlot with
    | none =>
      rw [Node.parent_mapIds, Node.parentSlot_mapIds, hparent, hslot]
      exact .fatal nofun nofun
    | some slot =>
      rw [Node.parent_mapIds, Node.parentSlot_mapIds, hparent, hslot] at hnodes ⊢
      refine (hnodes.find ⟨rfl, M.seen_of_strict hs p⟩).bind fun m m' hm => ?_
      exact .ok ⟨⟨hnodes.insert (hm.withSlot slot hn.ids), h.board, h.toolbox, h.defs, h.goal,
        h.level, h.mode⟩, rfl, rfl⟩

/-- Replacements that reflect each other are grafted alike on states that go together. -/
theorem Matches.graft {s s' : State} (h : M.Matches s s') (hs : M.strict) {w w' : Replacement}
    (hw : M.Replacements w w') (redex : NodeId) :
    Agree M.strict M.MatchesAll (s.graft redex w) (s'.graft (M.image redex) w') := by
  have hmem : ∀ (ids : List NodeId) x, M.image x ∈ ids.map M.image ↔ x ∈ ids :=
    fun _ _ => List.mem_map_of_injective image_injective
  have hkept : ∀ (ids : List NodeId) x,
      M.image x ∈ Std.ExtTreeSet.ofList (ids.map M.image) ↔ x ∈ Std.ExtTreeSet.ofList ids := by
    intro ids x
    simp only [Std.ExtTreeSet.mem_ofList, List.contains_iff_mem, hmem]
  rw [State.graft_eq, State.graft_eq]
  refine (h.nodes.idsUnder ⟨rfl, M.seen_of_strict hs redex⟩).bind fun old old' hold => ?_
  refine (hw.1.idsUnder hw.2).bind fun new new' hnew => ?_
  obtain ⟨rfl, -⟩ := eq_map_of_forall₂ hold
  obtain ⟨rfl, -⟩ := eq_map_of_forall₂ hnew
  have hremoved : (old.map M.image).filter (· ∉ Std.ExtTreeSet.ofList (new.map M.image)) =
      (old.filter (· ∉ Std.ExtTreeSet.ofList new)).map M.image := by
    rw [List.filter_map]
    refine congrArg _ (List.filter_congr fun x _ => ?_)
    simp only [Function.comp, hkept]
  have hadded : (new.map M.image).filter (!s'.nodes.has ·) =
      (new.filter (!s.nodes.has ·)).map M.image := by
    rw [List.filter_map]
    refine congrArg _ (List.filter_congr fun x _ => ?_)
    simp only [Function.comp, h.nodes.has (M.seen_of_strict hs x)]
  dsimp only
  rw [hremoved, hadded]
  refine h.holdInPlace hs ((hw.1.eraseAll fun x _ => ?_).eraseAll fun x _ => hmem _ x) redex hw.2 _ _
  have hx := M.seen_of_strict hs x
  simp only [List.mem_filter, Forest.mem_ids_iff, h.nodes.has hx, hkept, hw.1.get? x hx,
    Option.map_eq_some_iff]
  grind

/-- Replacements that are ready are put in place alike, whenever that is done. -/
theorem Matches.complete_ready {s s' : State} (h : M.Matches s s') (hs : M.strict) (S : Signature)
    {w w' : Replacement} (hw : M.Replacements w w') (redex : NodeId) (next next' : NodeId) :
    Agree M.strict (fun o o' => Option.Rel M.MatchesAll o.1 o'.1)
      ((s.complete S (.ready redex w)).outcome next)
      ((s'.complete S (.ready (M.image redex) w')).outcome next') := by
  rw [State.complete, State.complete, Supply.outcome_bind, Supply.outcome_bind, Supply.outcome_lift,
    Supply.outcome_lift]
  exact Agree.bind (P := fun o o' => M.MatchesAll o.1 o'.1)
    ((h.graft hs hw redex).map fun _ _ ht => ht) fun _ _ ht => .ok (.some ht)

/-- A deferred effect is completed alike from different next ids. -/
theorem Matches.complete_deferred {s s' : State} (h : M.Matches s s') (hs : M.strict) (S : Signature)
    {e : Effect} (hnode : M.Ids e.node e.node) (hargs : ∀ c ∈ e.arguments, M.Ids c c)
    (redex : NodeId) :
    (M.takes Fault).rel (Option.Rel M.MatchesAll) (s.complete S (.deferred redex e))
      (s'.complete S (.deferred (M.image redex) e)) := by
  refine (M.takes Fault).rel_bind (takes_finish h.nodes S hnode hargs) fun w w' hw => ?_
  exact (M.takes Fault).rel_bind (Relator.takes_lift (h.graft hs hw redex)) fun _ _ ht =>
    (M.takes Fault).rel_pure (.some ht)

end Mirror

end TermForest
