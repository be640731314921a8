import TermForest.Proofs.Level.Describe
import TermForest.Proofs.Shift.Edit

/-!
# Levels on shifted ids

A level is loaded from a shifted supply of ids into the state that it is loaded into otherwise, shifted.
The terms of a level name no ids that count, so loading fails for the same reasons.
-/

namespace TermForest

open Shift (reads takes edits)

variable {k : Nat}

/-! ### Tags and fields -/

theorem Signature.kindOfTag_shift (S : Signature) (tag : String) :
    (reads k).rel Eq (S.kindOfTag tag) (S.kindOfTag tag) := by
  unfold kindOfTag
  cases Kind.ofTag? tag with
  | some kind =>
    exact (reads k).rel_bind (S.requireKind_shift kind) fun _ _ _ => (reads k).rel_pure rfl
  | none =>
    cases S.aliases.find? (·.tag = tag) with
    | some a =>
      exact (reads k).rel_bind (S.requireKind_shift a.kind) fun _ _ _ => (reads k).rel_pure rfl
    | none => exact Shift.reads_error (.unknownTag tag)

theorem Node.checkFields_shift (n : Node) :
    (reads k).rel Eq n.checkFields (n.shift k).checkFields := by
  show (reads k).rel Eq n.checkFields n.checkFields
  unfold checkFields
  dsimp only
  split
  · exact Shift.reads_error (.malformed (.absentField n.kind _))
  split
  · exact Shift.reads_error (.malformed (.misshapenField n.kind _))
  have hlength : (reads k).rel Eq
      (if n.kind = .array ∧ !(n.int? "length").any (0 ≤ ·) then
        throw (.malformed .negativeLength) else pure () : Except Fault Unit)
      (if n.kind = .array ∧ !(n.int? "length").any (0 ≤ ·) then
        throw (.malformed .negativeLength) else pure ()) :=
    (reads k).rel_ite Iff.rfl (fun _ _ => Shift.reads_error (.malformed .negativeLength))
      fun _ _ => (reads k).rel_pure rfl
  split
  · split
    · exact Shift.reads_error (.malformed (.unknownOperator _))
    · exact hlength
  · exact hlength

theorem Signature.declaredSlots_shift (S : Signature) (n : Node) :
    (reads k).rel Eq (S.declaredSlots n) (S.declaredSlots (n.shift k)) :=
  (reads k).rel_bind (S.requireKind_shift n.kind) fun _ _ _ => (reads k).rel_pure rfl

/-! ### Terms -/

theorem loadHole_shift : (edits k).rel (Image (· + k)) loadHole loadHole := by
  refine (edits k).rel_bind Shift.edits_newId ?_
  rintro id _ rfl
  exact (edits k).rel_bind (Editing.insert_shift { id, kind := .hole }) fun _ _ _ =>
    (edits k).rel_pure rfl

theorem Term.load_shift (S : Signature) (t : Term) :
    (edits k).rel (Image (· + k)) (t.load S) (t.load S) := by
  induction t using Term.induct with
  | step id? tag own parts ih =>
  have hslot : ∀ slot, (edits k).rel (Image (· + k))
      ((Std.ExtTreeMap.ofList (parts.loaders S)).getD slot loadHole)
      ((Std.ExtTreeMap.ofList (parts.loaders S)).getD slot loadHole) := by
    intro slot
    rcases parts.getD_loaders S slot with ⟨t, ht, hload⟩ | ⟨-, hload⟩
    · rw [hload]
      exact ih slot t ht
    · rw [hload]
      exact loadHole_shift
  rw [load]
  refine (edits k).rel_bind (Shift.edits_read (S.kindOfTag_shift tag)) ?_
  rintro ⟨kind, implied⟩ _ rfl
  refine (edits k).rel_bind Shift.edits_newId ?_
  rintro id _ rfl
  let n : Node := { id, kind, fields := Node.loadedFields kind implied own }
  refine (edits k).rel_bind (Shift.edits_read n.checkFields_shift) fun _ _ _ => ?_
  refine (edits k).rel_bind (Shift.edits_read (S.declaredSlots_shift n)) ?_
  rintro slots _ rfl
  dsimp only
  split
  · next slot _ =>
    exact Relator.rel_lift _ (Shift.takes_throw (.malformed (.extraSlot kind slot)))
  · refine (edits k).rel_bind ((edits k).rel_mapM_same
      (h := fun e : String × NodeId => (e.1, e.2 + k)) fun slot _ => ?_) ?_
    · refine (edits k).rel_bind (hslot slot) ?_
      rintro child _ rfl
      exact (edits k).rel_bind (Editing.attach_shift child id slot) fun _ _ _ =>
        (edits k).rel_pure rfl
    · rintro entries _ rfl
      rw [← Slots.map_ofList (f := (· + k))]
      exact (edits k).rel_bind (Editing.insert_shift { n with slots := .ofList entries })
        fun _ _ _ => (edits k).rel_pure rfl

/-! ### Levels -/

theorem lockDefinition_shift (root : NodeId) :
    (edits k).rel (fun _ _ => True) (lockDefinition root) (lockDefinition (root + k)) := by
  refine (edits k).rel_bind (Editing.find_shift root) ?_
  rintro n _ rfl
  refine (edits k).rel_unless Iff.rfl
    (Relator.rel_lift _ (Shift.takes_throw (.malformed (.notDefinition n.kind)))) ?_
  refine (edits k).rel_bind (Relator.rel_get _) ?_
  rintro F _ rfl
  refine (edits k).rel_bind (Shift.edits_read (F.idsUnder_shift root)) ?_
  rintro ids _ rfl
  refine (edits k).rel_bind ((edits k).rel_forIn_map fun id _ => ?_) fun _ _ _ =>
    (edits k).rel_pure trivial
  refine (edits k).rel_bind (Editing.find_shift id) ?_
  rintro n _ rfl
  exact (edits k).rel_bind (Editing.insert_shift { n with locked := true }) fun _ _ _ =>
    (edits k).rel_pure rfl

theorem Level.build_shift (l : Level) (S : Signature) (index : Nat) :
    (edits k).rel (Image (State.shift k)) (l.build S index) (l.build S index) := by
  have hterms : ∀ ts : List Term, (edits k).rel (Image (List.map (· + k)))
      (ts.mapM (Term.load S)) (ts.mapM (Term.load S)) := fun ts =>
    (edits k).rel_mapM_same fun t _ => t.load_shift S
  refine (edits k).rel_bind (hterms l.board) ?_
  rintro board _ rfl
  refine (edits k).rel_bind (hterms l.toolbox) ?_
  rintro toolbox _ rfl
  refine (edits k).rel_bind (hterms l.goal) ?_
  rintro goal _ rfl
  refine (edits k).rel_bind (hterms l.defs) ?_
  rintro defs _ rfl
  refine (edits k).rel_bind ((edits k).rel_forM_map fun root _ => lockDefinition_shift root)
    fun _ _ _ => ?_
  refine (edits k).rel_bind (Relator.rel_get _) ?_
  rintro F _ rfl
  exact (edits k).rel_pure rfl

/-- A level starts, from a shifted supply of ids, in the shifted state. -/
theorem LevelFile.load_shift (L : LevelFile) (S : Signature) (index : Nat) :
    (takes k).rel (Image (State.shift k)) (L.load S index) (L.load S index) := by
  unfold LevelFile.load
  cases L.levels[index]? with
  | none => exact Shift.takes_throw (.unknownLevel index)
  | some l =>
    refine (takes k).rel_bind (l.build_shift S index ∅ ∅ Forest.shift_empty.symm) ?_
    rintro ⟨s, F⟩ ⟨_, _⟩ ⟨rfl, -⟩
    exact (takes k).rel_pure rfl

end TermForest
