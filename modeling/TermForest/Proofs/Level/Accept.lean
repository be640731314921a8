import TermForest.Proofs.Level.Valid

/-!
# What the loader accepts

A valid term always loads. The nodes that hold it come before what is below them, so that also the
tree of a definition is finite and can be locked, even if a reference in it names a parameter twice.
-/

namespace TermForest

open Supply (Meets)

/-! ### Descending forests -/

namespace Forest

variable {F G : Forest} {next : Nat} {n : Node}

/-- Every node comes before its children. -/
def Descends (F : Forest) : Prop :=
  ∀ (x : Nat) n, F.get? x = some n → ∀ c : Nat, c ∈ n.slots.children → x < c

theorem descends_empty : (∅ : Forest).Descends := fun x n hx => by simp at hx

theorem Descends.insert (h : F.Descends) (hn : ∀ c : Nat, c ∈ n.slots.children → n.id < c) :
    (F.insert n).Descends := by
  intro x m hx
  rw [get?_insert] at hx
  split at hx
  · next e =>
    cases hx
    exact e ▸ hn
  · exact h x m hx

theorem Descends.heldBy (h : F.Descends) (hn : F.get? n.id = some n) (parent : NodeId)
    (slot : String) : (F.insert (n.heldBy parent slot)).Descends :=
  h.insert (h n.id n hn)

/-- Below a node of a descending forest hangs a finite tree. -/
theorem Descends.exists_plant (h : F.Descends) (hF : F.Hung next) {x : Nat}
    (hn : F.get? x = some n) : ∃ t : Plant, t.id = x ∧ F.Holds t := by
  -- ids grow on the way down, so the way has at most as many nodes as there are ids left
  have hdeep : ∀ (depth x : Nat) (n : Node), F.get? x = some n → next ≤ x + depth →
      ∃ t : Plant, t.id = x ∧ F.Holds t ∧ (F.unfold depth x).Shows t := by
    intro depth
    induction depth with
    | zero =>
      intro x n hn hle
      exact absurd (hF.lt x n hn) (Nat.not_lt.2 hle)
    | succ depth ih =>
      intro x n hn hle
      refine exists_shows depth hn fun c hc => ?_
      obtain ⟨m, hm, -⟩ := hF.exists_child hn hc
      have hlt := h x n hn c hc
      exact ih c m hm (by lia)
  obtain ⟨t, hid, ht, -⟩ := hdeep next x n hn (by omega)
  exact ⟨t, hid, ht⟩

theorem Locks.descends {ids : List NodeId} (h : F.Locks G ids) (hF : F.Descends) : G.Descends := by
  intro x m hm
  obtain ⟨n, hn, rfl⟩ := h.of_get? hm
  exact hF x n hn

theorem Locks.hung {ids : List NodeId} (h : F.Locks G ids) (hF : F.Hung next) : G.Hung next where
  lt x m hm := by
    obtain ⟨n, hn, -⟩ := h.of_get? hm
    exact hF.lt x n hn
  parent_lt x m hm := by
    obtain ⟨n, hn, rfl⟩ := h.of_get? hm
    exact hF.parent_lt x n hn
  held x m slot c hm hc := by
    obtain ⟨n, hn, rfl⟩ := h.of_get? hm
    obtain ⟨k, hk, hp, hs⟩ := hF.held x n slot c hn hc
    refine ⟨_, h.get?_of_get? hk, ?_, ?_⟩
    · split <;> exact hp
    · split <;> exact hs

end Forest

/-! ### Terms -/

namespace Editing

variable {G : Forest} {next : Nat}

/-- An edit that adds a root of some kind to a descending forest, and fails at most when `P` does not
hold. -/
def Accepts (x : Editing NodeId) (P : Prop) (K : Kind → Prop) : Prop :=
  ∀ F next, F.Hung next → F.Descends →
    (x.run F).Meets next
      (fun r next' => F.AddsRoot r.2 next next' r.1 ∧ r.2.Descends ∧
        ∃ n, r.2.get? r.1 = some n ∧ K n.kind)
      fun _ => ¬P

theorem accepts_loadHole (P : Prop) : loadHole.Accepts P fun _ => True := by
  intro F next hF hd
  simp only [loadHole, StateT.run_bind, run_newId, bind_assoc, pure_bind, run_insert]
  refine .take_bind (.pure ⟨⟨?_, Nat.le_refl _, _, Forest.get?_insert_self .., rfl⟩, ?_,
    _, Forest.get?_insert_self .., trivial⟩)
  · exact ((Forest.Extends.refl hF).mono (Nat.le_succ next)).insert_leaf (Nat.le_refl _)
      (hF.get?_eq_none (Nat.le_refl _)) (Nat.lt_succ_self _) rfl rfl
      (Forest.admits_of_not_literal (by decide : ¬Kind.hole.IsLiteral))
  · exact hd.insert (List.forall_mem_nil _)

/-- The slots of a node are filled with roots that come after it. -/
theorem descends_loadSlots {holder : Nat} {build : String → Editing NodeId} {P : String → Prop}
    (h : ∀ slot, (build slot).Accepts (P slot) fun _ => True) (slots : List String) (hG : G.Hung next)
    (hd : G.Descends) (hholder : holder < next) :
    ((slots.mapM fun slot => do
        let child ← build slot
        attach child holder slot
        return (slot, child) : Editing (List (String × NodeId))).run G).Meets next
      (fun r _ => r.2.Descends ∧ ∀ e ∈ r.1, next ≤ e.2)
      fun _ => ∃ slot ∈ slots, ¬P slot := by
  induction slots generalizing G next with
  | nil => exact .pure ⟨hd, nofun⟩
  | cons slot slots ih =>
    rw [List.mapM_cons, StateT.run_bind, StateT.run_bind, bind_assoc]
    refine Meets.bind ((h slot G next hG hd).imp (fun _ _ _ h => h)
      fun _ hf => ⟨slot, List.mem_cons_self, hf⟩) ?_
    rintro ⟨child, H⟩ mid hmid ⟨⟨hH, hle, n, hn, hp⟩, hdH, -⟩
    obtain rfl := Forest.id_of_get? hn
    have hmid' := Nat.lt_of_lt_of_le hholder hmid
    have hI := hH.hung.heldBy slot hn hmid' (.inl hp)
    rw [StateT.run_bind, run_attach hn, pure_bind, StateT.run_pure, pure_bind, StateT.run_bind]
    refine Meets.bind ((ih hI (hdH.heldBy hn holder slot) hmid').imp (fun _ _ _ h => h)
      fun _ ⟨s, hs, hf⟩ => ⟨s, List.mem_cons_of_mem _ hs, hf⟩) ?_
    rintro ⟨entries, J⟩ next' - ⟨hdJ, hnew⟩
    exact .pure ⟨hdJ, List.forall_mem_cons.2 ⟨hle, fun e he => Nat.le_trans hmid (hnew e he)⟩⟩

end Editing

namespace Term

variable {S : Signature} {id? : Option NodeId} {tag : String} {own : Fields} {parts : Terms}
  {k : Kind} {implied : List (String × Datum)}

theorem checkFields_seed {id : NodeId} :
    (seed id k implied own).checkFields = .ok () ↔ k.Declares (value? k implied own) := by
  rw [Node.checkFields_eq_ok_iff]
  have hfields : (seed id k implied own).field? = value? k implied own :=
    funext (Node.getElem?_loadedFields k implied own)
  rw [hfields]
  rfl

theorem find?_extra_eq_none_iff :
    parts.names.find? (· ∉ Std.ExtTreeSet.ofList (seed 0 k implied own).declaredSlots) = none ↔
      ∀ slot ∈ parts.names, slot ∈ slotNames k implied own := by
  rw [List.find?_eq_none]
  simp [slotNames]

/-- A tag names one kind. -/
theorem Valid.inv (h : (Term.mk id? tag own parts).Valid S) (hk : S.kindOfTag tag = .ok (k, implied)) :
    k.Declares (value? k implied own) ∧ (∀ slot ∈ parts.names, slot ∈ slotNames k implied own) ∧
      ∀ slot t, parts.get? slot = some t → t.Valid S := by
  cases h with
  | mk names declares known parts_valid =>
    cases hk.symm.trans (Signature.kindOfTag_eq_ok_iff.2 names)
    exact ⟨declares, known, parts_valid⟩

/-- A term that loads is valid. -/
theorem Valid.of_succeeds {t : Term} (h : (t.load S).Succeeds) : t.Valid S := by
  induction t using Term.induct with
  | step id? tag own parts ih =>
  obtain ⟨k, implied, hk, hcheck, -, hextra, hslots⟩ := of_succeeds_load h
  have hknown := find?_extra_eq_none_iff.1 hextra
  refine .mk (Signature.kindOfTag_eq_ok_iff.1 hk) (checkFields_seed.1 hcheck) hknown
    fun slot t ht => ih slot t ht ?_
  have hslot := hslots slot (hknown slot (Terms.mem_names_of_get? ht))
  rcases parts.getD_loaders S slot with ⟨t', ht', hload⟩ | ⟨hnone, -⟩
  · cases ht.symm.trans ht'
    exact hload ▸ hslot
  · cases ht.symm.trans hnone

/-- A valid term loads. -/
theorem accepts_load (S : Signature) (t : Term) :
    (t.load S).Accepts (t.Valid S) fun k => ∃ implied, S.kindOfTag t.tag = .ok (k, implied) := by
  induction t using Term.induct with
  | step id? tag own parts ih =>
  intro F next hF hd
  have hroot := (Term.mk id? tag own parts).roots_load S F next hF
  suffices hdescends : (((Term.mk id? tag own parts).load S).run F).Meets next
      (fun r _ => r.2.Descends ∧ ∃ n, r.2.get? r.1 = some n ∧
        ∃ implied, S.kindOfTag tag = .ok (n.kind, implied))
      fun _ => ¬(Term.mk id? tag own parts).Valid S from
    (hroot.and hdescends).imp (fun _ _ _ h => ⟨h.1.1, h.2⟩) fun _ h => h.2
  have hbuild : ∀ slot, ((Std.ExtTreeMap.ofList (parts.loaders S)).getD slot loadHole).Accepts
      (∀ t, parts.get? slot = some t → t.Valid S) fun _ => True := by
    intro slot F next hF hd
    rcases parts.getD_loaders S slot with ⟨t, ht, hload⟩ | ⟨hnone, hload⟩
    · rw [hload]
      refine (ih slot t ht F next hF hd).imp (fun _ _ _ h => ?_) fun _ hf h => hf (h t ht)
      obtain ⟨hadds, hdescends, n, hn, -⟩ := h
      exact ⟨hadds, hdescends, n, hn, trivial⟩
    · rw [hload]
      exact Editing.accepts_loadHole _ F next hF hd
  have hvalid := @Valid.inv S id? tag own parts
  have hnames : (Term.mk id? tag own parts).Valid S → ∃ k implied, S.kindOfTag tag = .ok (k, implied) ∧
      S.requireKind k = .ok () := by
    rintro ⟨hk, -, -, -⟩
    exact ⟨_, _, Signature.kindOfTag_eq_ok_iff.2 hk, Signature.requireKind_eq_ok_iff.2 (by
      cases hk <;> assumption)⟩
  generalize (Term.mk id? tag own parts).Valid S = valid at hvalid hnames ⊢
  rw [load]
  refine Editing.meets_liftM_bind (fun _ he h => ?_) ?_
  · obtain ⟨k, implied, hk, -⟩ := hnames h
    cases he.symm.trans hk
  rintro ⟨k, implied⟩ hk
  rw [StateT.run_bind, Editing.run_newId, bind_assoc]
  refine .take_bind ?_
  rw [pure_bind]
  refine Editing.meets_liftM_bind (fun _ he h => ?_) fun _ hcheck => ?_
  · cases he.symm.trans (checkFields_seed.2 (hvalid h hk).1)
  refine Editing.meets_liftM_bind (fun _ he h => ?_) fun slots hslots => ?_
  · obtain ⟨k', implied', hk', hrequire⟩ := hnames h
    cases hk.symm.trans hk'
    rw [Signature.declaredSlots, hrequire] at he
    cases he
  obtain ⟨⟨⟩, -, hslots⟩ := bind_eq_ok_iff.1 hslots
  cases hslots
  dsimp only
  split
  · next slot hextra =>
    refine .throw fun h => ?_
    cases hextra.symm.trans (find?_extra_eq_none_iff.2 (hvalid h hk).2.1)
  next hextra =>
  rw [StateT.run_bind]
  refine Meets.bind ((Editing.descends_loadSlots hbuild _ (hF.mono (Nat.le_succ next)) hd
    (Nat.lt_succ_self next)).imp (fun _ _ _ h => h) ?_) ?_
  · rintro _ ⟨slot, -, hf⟩ h
    exact hf ((hvalid h hk).2.2 slot)
  rintro ⟨entries, G⟩ next' - ⟨hdG, hnew⟩
  rw [StateT.run_bind, Editing.run_insert, pure_bind]
  refine .pure ⟨hdG.insert fun c hc => ?_, _, Forest.get?_insert_self .., implied, hk⟩
  obtain ⟨slot, hc⟩ := Slots.mem_children_iff.1 hc
  exact hnew _ (Slots.entries_ofList_subset entries (Slots.get?_eq_some_iff.1 hc))

/-- An id of a forest has a node of the kind for which the tag of a term stands. -/
def RootIn (S : Signature) (F : Forest) (t : Term) (id : NodeId) : Prop :=
  ∃ n implied, F.get? id = some n ∧ S.kindOfTag t.tag = .ok (n.kind, implied)

/-- Valid terms load one after the other. -/
theorem accepts_loadAll (S : Signature) (ts : List Term) {F : Forest} {next : Nat}
    (hF : F.Hung next) (hd : F.Descends) :
    ((ts.mapM (load S)).run F).Meets next
      (fun r next' => F.Extends r.2 next next' ∧ r.2.Descends ∧ List.Forall₂ (RootIn S r.2) ts r.1)
      fun _ => ∃ t ∈ ts, ¬t.Valid S := by
  induction ts generalizing F next with
  | nil => exact .pure ⟨.refl hF, hd, .nil⟩
  | cons t ts ih =>
    rw [List.mapM_cons, StateT.run_bind]
    refine Meets.bind ((accepts_load S t F next hF hd).imp (fun _ _ _ h => h)
      fun _ hf => ⟨t, List.mem_cons_self, hf⟩) ?_
    rintro ⟨id, G⟩ mid hmid ⟨⟨hG, -, -⟩, hdG, n, hn, implied, hk⟩
    rw [StateT.run_bind]
    refine Meets.bind ((ih hG.hung hdG).imp (fun _ _ _ h => h)
      fun _ ⟨t', ht', hf⟩ => ⟨t', List.mem_cons_of_mem _ ht', hf⟩) ?_
    rintro ⟨ids, H⟩ next' - ⟨hH, hdH, hroots⟩
    refine .pure ⟨⟨fun x hx => ?_, hH.hung, fun hF => hH.plain (hG.plain hF)⟩, hdH, .cons ⟨n, implied, ?_, hk⟩ hroots⟩
    · exact (hH.below x (Nat.lt_of_lt_of_le hx hmid)).trans (hG.below x hx)
    · exact (hH.below id (hG.hung.lt id n hn)).trans hn

end Term

/-! ### Definitions -/

/-- A `define` node of a descending forest can be locked with all that is below it. -/
theorem exists_run_lockDefinition_of_descends {F : Forest} {next : Nat} {x : NodeId} {n : Node}
    (hF : F.Hung next) (hd : F.Descends) (hn : F.get? x = some n) (hk : n.kind = .define) :
    ∃ G ids, (lockDefinition x).run F = pure ((), G) ∧ F.Locks G ids := by
  obtain ⟨t, rfl, ht⟩ := hd.exists_plant hF hn
  obtain ⟨G, hrun, hG⟩ := Editing.exists_run_lockAll fun y => ht.exists_get?
  refine ⟨G, t.ids, ?_, hG⟩
  rw [lockDefinition, StateT.run_bind, Editing.run_find hn, pure_bind]
  dsimp only
  have hids : (F, F).1.idsUnder t.id = .ok t.ids := ht.idsUnder (hF.nodup_ids ht)
  rw [if_neg (by simpa using hk), StateT.run_bind, StateT.run_get, pure_bind,
    StateT.run_bind, Editing.run_liftM_ok hids, pure_bind, StateT.run_bind, hrun, pure_bind]
  rfl

/-- Loaded terms are locked as definitions exactly if all of them are. -/
theorem meets_lockDefinitions_of_descends {S : Signature} {F : Forest} {next : Nat} {ts : List Term}
    {ids : List NodeId} (hF : F.Hung next) (hd : F.Descends)
    (hroots : List.Forall₂ (Term.RootIn S F) ts ids) :
    ((ids.forM lockDefinition).run F).Meets next (fun _ _ => ∀ t ∈ ts, t.Defines S)
      fun _ => ∃ t ∈ ts, ¬t.Defines S := by
  induction ts generalizing F ids with
  | nil =>
    cases hroots
    exact .pure nofun
  | cons t ts ih =>
    obtain ⟨id, ids, ⟨n, implied, hn, hk⟩, hrest, rfl⟩ := List.forall₂_cons_left_iff.1 hroots
    rw [List.forM_eq_forM, List.forM_cons, StateT.run_bind, ← List.forM_eq_forM]
    by_cases hdefine : n.kind = .define
    · obtain ⟨G, locked, hrun, hG⟩ := exists_run_lockDefinition_of_descends hF hd hn hdefine
      rw [hrun, pure_bind]
      refine (ih (hG.hung hF) (hG.descends hd) (hrest.imp fun t id hroot => ?_)).imp ?_ ?_
      · obtain ⟨m, implied, hm, hk⟩ := hroot
        refine ⟨_, implied, hG.get?_of_get? hm, ?_⟩
        split <;> exact hk
      · intro _ _ _ hdefines
        exact List.forall_mem_cons.2 ⟨⟨implied, hdefine ▸ hk⟩, hdefines⟩
      · rintro _ ⟨t, ht, hf⟩
        exact ⟨t, List.mem_cons_of_mem _ ht, hf⟩
    · rw [lockDefinition, StateT.run_bind, Editing.run_find hn, pure_bind]
      dsimp only
      rw [if_pos hdefine]
      refine .throw ⟨t, List.mem_cons_self, ?_⟩
      rintro ⟨implied', hk'⟩
      have hkinds := hk.symm.trans hk'
      simp only [Except.ok.injEq, Prod.mk.injEq] at hkinds
      exact hdefine hkinds.1

/-! ### Levels -/

namespace Level

variable {S : Signature} {l : Level}

theorem Valid.defines (h : l.Valid S) {t : Term} (ht : t ∈ l.defs) : t.Defines S := by
  obtain ⟨implied, hk⟩ := h.defs t ht
  exact ⟨implied, Signature.kindOfTag_eq_ok_iff.2 hk⟩

/-- A valid level is built, and the definitions of a level that is built are definitions. -/
theorem meets_build_of_valid (S : Signature) (l : Level) (index next : Nat) :
    ((l.build S index).run ∅).Meets next (fun _ _ => ∀ t ∈ l.defs, t.Defines S)
      fun _ => ¬l.Valid S := by
  have hload : ∀ {ts : List Term}, (∀ t ∈ ts, t ∈ l.terms) → ∀ {F : Forest} {next : Nat},
      F.Hung next → F.Descends → ((ts.mapM (Term.load S)).run F).Meets next
        (fun r next' => r.2.Hung next' ∧ r.2.Descends ∧ List.Forall₂ (Term.RootIn S r.2) ts r.1)
        fun _ => ¬l.Valid S :=
    fun hts _ _ hF hd => (Term.accepts_loadAll S _ hF hd).imp (fun _ _ _ h => ⟨h.1.hung, h.2⟩) <| by
      rintro _ ⟨t, ht, hf⟩ h
      exact hf (h.terms t (hts t ht))
  have hempty : (∅ : Forest).Hung next := by
    refine ⟨fun x n hx => ?_, fun x n hx => ?_, fun x n _ _ hx => ?_⟩ <;> simp at hx
  rw [build, StateT.run_bind]
  refine (hload (fun t ht => mem_terms.2 (.inl ht)) hempty Forest.descends_empty).bind ?_
  rintro ⟨board, F⟩ n₁ - ⟨hF, hdF, -⟩
  rw [StateT.run_bind]
  refine (hload (fun t ht => mem_terms.2 (.inr (.inl ht))) hF hdF).bind ?_
  rintro ⟨toolbox, G⟩ n₂ - ⟨hG, hdG, -⟩
  rw [StateT.run_bind]
  refine (hload (fun t ht => mem_terms.2 (.inr (.inr (.inl ht)))) hG hdG).bind ?_
  rintro ⟨goal, H⟩ n₃ - ⟨hH, hdH, -⟩
  rw [StateT.run_bind]
  refine (hload (fun t ht => mem_terms.2 (.inr (.inr (.inr ht)))) hH hdH).bind ?_
  rintro ⟨defs, I⟩ n₄ - ⟨hI, hdI, hroots⟩
  rw [StateT.run_bind]
  have hfaults : ∀ e : Fault, (∃ t ∈ l.defs, ¬t.Defines S) → ¬l.Valid S := by
    rintro _ ⟨t, ht, hf⟩ h
    exact hf (h.defines ht)
  refine Meets.bind ((meets_lockDefinitions_of_descends hI hdI hroots).imp (fun _ _ _ h => h)
    hfaults) ?_
  rintro ⟨_, J⟩ next' - hdefines
  exact .pure hdefines

/-- A level can be loaded exactly if it is valid, whichever ids it takes. -/
theorem exists_load_iff_valid (S : Signature) (l : Level) (index next : Nat) :
    (∃ s next', (l.load S index).runFrom next = (.ok s, next')) ↔ l.Valid S := by
  have hbuild := meets_build_of_valid S l index next
  simp only [load_eq, Supply.runFrom_bind]
  rcases hrun : ((l.build S index).run ∅).runFrom next with ⟨fault | ⟨s, F⟩, next'⟩
  · refine iff_of_false (by simp) ?_
    exact (hbuild.of_error hrun).2
  · refine iff_of_true ⟨s, next', rfl⟩ ⟨fun t ht => ?_, fun t ht => ?_⟩
    · exact .of_succeeds (succeeds_terms ⟨_, _, _, _, hrun⟩ t ht)
    · obtain ⟨implied, hk⟩ := (hbuild.of_ok hrun).2 t ht
      exact ⟨implied, Signature.kindOfTag_eq_ok_iff.1 hk⟩

end Level

end TermForest
