import TermForest.Proofs.Forest.Lock
import TermForest.Proofs.Forest.Replace
import TermForest.Proofs.Level.Describe
import TermForest.Proofs.State.Kept

/-!
# Loaded levels

Loading a term adds one plant of new nodes, of the shape that the term describes. Whether a term loads
depends on neither the forest nor the next id, and the state that a level starts in is kept and holds
the trees of all its terms, as long as no reference names a parameter twice.
-/

namespace TermForest

open Supply (Meets)

/-! ### Additions -/

/-- A forest has a node for each id from `lo` up to but not including `hi`, and no others. -/
def Forest.Spans (F : Forest) (lo hi : Nat) : Prop :=
  ∀ x : Nat, (∃ n, F.get? x = some n) ↔ lo ≤ x ∧ x < hi

theorem Forest.spans_empty (lo : Nat) : (∅ : Forest).Spans lo lo := fun x => by
  constructor
  · rintro ⟨n, hn⟩
    simp at hn
  · omega

/-- `G` is `F` with one more plant, which is grown from all ids between `lo` and `hi` and has no
parent. -/
structure Forest.Adds (F G : Forest) (lo hi : Nat) (u : Plant) : Prop where
  held : G.Holds u
  grown : u.Grown lo hi
  full : ∀ x : Nat, lo ≤ x → x < hi → x ∈ u.ids
  free : u.Free
  same : ∀ x, x ∉ u.ids → G.get? x = F.get? x

theorem Forest.Adds.eq_insertAll {F G : Forest} {lo hi : Nat} {u : Plant} (h : F.Adds G lo hi u) :
    G = F.insertAll u.nodes := by
  refine Forest.ext fun x => ?_
  by_cases hx : x ∈ u.ids
  · obtain ⟨n, hn, rfl⟩ := Plant.mem_ids_iff_nodes.1 hx
    rw [h.held.get?_of_mem_nodes hn,
      get?_insertAll_of_mem (by simpa using h.grown.nodup) hn]
  · rw [h.same x hx, get?_insertAll_of_notMem (by simpa using hx)]

theorem Forest.Adds.spans {F G : Forest} {lo mid hi : Nat} {u : Plant} (h : F.Adds G mid hi u)
    (hF : F.Spans lo mid) (hlo : lo ≤ mid) (hhi : mid ≤ hi) : G.Spans lo hi := by
  intro x
  by_cases hx : x ∈ u.ids
  · obtain ⟨n, hn, rfl⟩ := Plant.mem_ids_iff_nodes.1 hx
    have hle := h.grown.le _ hx
    have hlt := h.grown.lt _ hx
    exact iff_of_true ⟨n, h.held.get?_of_mem_nodes hn⟩ ⟨Nat.le_trans hlo hle, hlt⟩
  · rw [h.same x hx, hF x]
    have hout : ¬(mid ≤ x ∧ x < hi) := fun hx' => hx (h.full x hx'.1 hx'.2)
    omega

/-- A new node above plants that have been added and point at it adds one plant. -/
theorem Forest.adds_insert {F G : Forest} {next next' : Nat} {n : Node} {us : List Plant}
    (hid : n.id = next) (hlt : next < next') (hc : n.Carries us)
    (hus : ∀ u ∈ us, G.Holds u ∧ u.Grown (next + 1) next') (hn : (us.flatMap Plant.ids).Nodup)
    (hfull : ∀ x : Nat, next + 1 ≤ x → x < next' → x ∈ us.flatMap Plant.ids)
    (hsame : ∀ x, x ∉ us.flatMap Plant.ids → G.get? x = F.get? x) (hf : n.Formed next')
    (hl : n.locked = false) (hp : n.parent = none) (hps : n.parentSlot = none) :
    F.Adds (G.insert n) next next' (.mk n us) := by
  subst hid
  have hout : n.id ∉ us.flatMap Plant.ids := by
    intro hx
    obtain ⟨u, hu, hx⟩ := List.mem_flatMap.1 hx
    exact Nat.not_succ_le_self n.id ((hus u hu).2.le n.id hx)
  refine ⟨Forest.holds_insert hc.children (fun u hu => (hus u hu).1) hout, ?_, ?_, ⟨hp, hps⟩, ?_⟩
  · exact .of_parts (fun u hu => (hus u hu).2.mono (Nat.le_succ _) (Nat.le_refl _)) hn hout
      (Nat.le_refl _) hlt hc hf hl
  · intro x hle hlt
    rw [Plant.ids_mk, List.mem_append, List.mem_singleton]
    rcases Nat.eq_or_lt_of_le hle with rfl | hlt'
    · exact .inr rfl
    · exact .inl (hfull x hlt' hlt)
  · intro x hx
    rw [Plant.ids_mk, List.mem_append, List.mem_singleton, not_or] at hx
    rw [Forest.get?_insert, if_neg (Ne.symm hx.2), hsame x hx.1]

namespace Editing

variable {α β : Type}

/-! ### Edits that succeed -/

/-- An edit gives a result on some forest, from some next id. -/
def Succeeds (x : Editing α) : Prop :=
  ∃ F next r next', (x.run F).runFrom next = (.ok r, next')

theorem Succeeds.of_bind {x : Editing α} {f : α → Editing β} (h : (x >>= f).Succeeds) :
    x.Succeeds ∧ ∃ a, (f a).Succeeds := by
  obtain ⟨F, next, r, next', h⟩ := h
  rw [StateT.run_bind, Supply.runFrom_bind] at h
  rcases hx : (x.run F).runFrom next with ⟨_ | ⟨a, G⟩, mid⟩
  · rw [hx] at h
    cases h
  · rw [hx] at h
    exact ⟨⟨F, next, _, _, hx⟩, a, G, mid, r, next', h⟩

theorem Succeeds.of_liftM {y : Except Fault α} (h : (liftM y : Editing α).Succeeds) :
    ∃ a, y = .ok a := by
  cases y with
  | ok a => exact ⟨a, rfl⟩
  | error fault =>
    obtain ⟨F, next, r, next', h⟩ := h
    cases h

theorem Succeeds.of_liftM_bind {y : Except Fault α} {f : α → Editing β}
    (h : ((liftM y : Editing α) >>= f).Succeeds) : ∃ a, y = .ok a ∧ (f a).Succeeds := by
  obtain ⟨hy, -⟩ := h.of_bind
  obtain ⟨a, rfl⟩ := hy.of_liftM
  exact ⟨a, rfl, h⟩

theorem not_succeeds_throw {fault : Fault} : ¬(throw fault : Editing α).Succeeds := by
  rintro ⟨F, next, r, next', h⟩
  cases h

theorem Succeeds.of_mapM {f : α → Editing β} {as : List α} (h : (as.mapM f).Succeeds) :
    ∀ a ∈ as, (f a).Succeeds := by
  induction as with
  | nil => nofun
  | cons a as ih =>
    rw [List.mapM_cons] at h
    obtain ⟨hf, b, h⟩ := h.of_bind
    exact List.forall_mem_cons.2 ⟨hf, ih h.of_bind.1⟩

/-- An edit that adds a plant of some shape, or never gives a result. -/
def Builds (x : Editing NodeId) (P : Shape → Prop) : Prop :=
  ∀ F next, (x.run F).Meets next
    (fun r next' => ∃ u : Plant, r.1 = u.id ∧ F.Adds r.2 next next' u ∧ P u.shape)
    fun _ => ¬x.Succeeds

theorem builds_loadHole : loadHole.Builds (· = .hole) := by
  intro F next
  simp only [loadHole, StateT.run_bind, run_newId, bind_assoc, pure_bind, run_insert]
  refine .take_bind (.pure ⟨.mk { id := next, kind := .hole } [], rfl, ?_, rfl⟩)
  exact Forest.adds_insert rfl (Nat.lt_succ_self _) .nil nofun .nil (by omega) (fun _ _ => rfl)
    (Node.formed_of_slots rfl rfl) rfl rfl rfl

/-! ### Slots -/

/-- Plants that are built one after the other, each pointed at its slot. -/
theorem meets_loadSlots (holder : NodeId) {build : String → Editing NodeId}
    {P : String → Shape → Prop} (h : ∀ slot, (build slot).Builds (P slot)) (slots : List String)
    (G : Forest) (next : Nat) :
    ((slots.mapM fun slot => do
        let child ← build slot
        attach child holder slot
        return (slot, child) : Editing (List (String × NodeId))).run G).Meets next
      (fun r next' => ∃ us : List Plant, r.1.map Prod.fst = slots ∧
        List.Forall₂ (fun e u => u.id = e.2 ∧ u.root.parent = some holder ∧
          u.root.parentSlot = some e.1) r.1 us ∧
        List.Forall₂ P slots (us.map Plant.shape) ∧
        (∀ u ∈ us, r.2.Holds u ∧ u.Grown next next') ∧ (us.flatMap Plant.ids).Nodup ∧
        (∀ x : Nat, next ≤ x → x < next' → x ∈ us.flatMap Plant.ids) ∧
        ∀ x, x ∉ us.flatMap Plant.ids → r.2.get? x = G.get? x)
      fun _ => ∃ slot ∈ slots, ¬(build slot).Succeeds := by
  induction slots generalizing G next with
  | nil => exact .pure ⟨[], rfl, .nil, .nil, nofun, .nil, by omega, fun _ _ => rfl⟩
  | cons slot slots ih =>
    rw [List.mapM_cons, StateT.run_bind, StateT.run_bind, bind_assoc]
    refine Meets.bind ((h slot G next).imp (fun _ _ _ hu => hu)
      fun _ hf => ⟨slot, List.mem_cons_self, hf⟩) ?_
    rintro ⟨_, H⟩ mid hmid ⟨u, rfl, hu, hshape⟩
    rw [StateT.run_bind, run_attach hu.held.get?_id, pure_bind, StateT.run_pure, pure_bind,
      StateT.run_bind]
    refine Meets.bind ((ih _ mid).imp
      (fun _ _ _ hus => hus) fun _ ⟨s, hs, hf⟩ => ⟨s, List.mem_cons_of_mem _ hs, hf⟩) ?_
    rintro ⟨entries, I⟩ next' hnext ⟨us, hnames, hlinks, hshapes, hus, hnodup, hfull, hsame⟩
    have hdisjoint : ∀ x ∈ u.ids, x ∉ us.flatMap Plant.ids := by
      intro x hx hx'
      obtain ⟨v, hv, hx'⟩ := List.mem_flatMap.1 hx'
      have hlt := hu.grown.lt x hx
      have hle := (hus v hv).2.le x hx'
      lia
    have hheld := (hu.held.heldBy hu.grown.nodup holder slot).congr fun x hx =>
      hsame x (hdisjoint x (by simpa using hx))
    refine .pure ⟨u.heldBy holder slot :: us, ?_, .cons ⟨rfl, rfl, rfl⟩ hlinks, ?_, ?_, ?_, ?_, ?_⟩
    · rw [List.map_cons, hnames]
    · rw [List.map_cons, Plant.shape_heldBy]
      exact .cons hshape hshapes
    · refine List.forall_mem_cons.2
        ⟨⟨hheld, (hu.grown.heldBy _ _).mono (Nat.le_refl _) hnext⟩, fun v hv => ?_⟩
      exact ⟨(hus v hv).1, (hus v hv).2.mono hmid (Nat.le_refl _)⟩
    · rw [List.flatMap_cons, Plant.ids_heldBy]
      exact List.nodup_append.2
        ⟨hu.grown.nodup, hnodup, fun a ha b hb e => hdisjoint a ha (e ▸ hb)⟩
    · intro x hle hlt
      rw [List.flatMap_cons, Plant.ids_heldBy, List.mem_append]
      by_cases hx : x < mid
      · exact .inl (hu.full x hle hx)
      · exact .inr (hfull x (Nat.not_lt.1 hx) hlt)
    · intro x hx
      rw [List.flatMap_cons, Plant.ids_heldBy, List.mem_append, not_or] at hx
      have hne : (u.root.heldBy holder slot).id ≠ x := fun e => hx.1 (e ▸ u.id_mem_ids)
      rw [hsame x hx.2, Forest.get?_insert, if_neg hne, hu.same x hx.1]

end Editing

/-! ### Terms -/

namespace Term

variable {S : Signature} {id? : Option NodeId} {tag : String} {own : Fields} {parts : Terms}

/-- The node of a term before its slots are filled. -/
def seed (id : NodeId) (k : Kind) (implied : List (String × Datum)) (own : Fields) : Node :=
  { id, kind := k, fields := Node.loadedFields k implied own }

/-- A term describes its node with the shapes that fill the slots. -/
theorem describes_seed {k : Kind} {implied : List (String × Datum)} {id : NodeId}
    {shapes : List Shape} (hk : S.kindOfTag tag = .ok (k, implied))
    (hn : (seed id k implied own).declaredSlots.Nodup)
    (hknown : ∀ slot ∈ parts.names, slot ∈ (seed id k implied own).declaredSlots)
    (hshapes : List.Forall₂ (parts.Fills S) (seed id k implied own).declaredSlots shapes) :
    (Term.mk id? tag own parts).Describes S
      (.mk k (seed id k implied own).fields (seed id k implied own).declaredSlots shapes) := by
  rw [← Node.slots_eq_declaredSlots hn] at hknown hshapes ⊢
  obtain ⟨hlength, hzip⟩ := List.forall₂_iff_zip.1 hshapes
  exact .mk hk (Node.getElem?_loadedFields k implied own) hknown hlength
    (fun slot shape t hmem => (hzip hmem).1 t) fun slot shape hmem => (hzip hmem).2

/-- A term that loads has a tag and fields that pass the checks and only terms that load, all of them
in declared slots. -/
theorem of_succeeds_load (h : ((Term.mk id? tag own parts).load S).Succeeds) :
    ∃ k implied, S.kindOfTag tag = .ok (k, implied) ∧
      (seed 0 k implied own).checkFields = .ok () ∧ S.requireKind k = .ok () ∧
      parts.names.find?
        (· ∉ Std.ExtTreeSet.ofList (seed 0 k implied own).declaredSlots) = none ∧
      ∀ slot ∈ (seed 0 k implied own).declaredSlots,
        ((Std.ExtTreeMap.ofList (parts.loaders S)).getD slot loadHole).Succeeds := by
  rw [load] at h
  obtain ⟨⟨k, implied⟩, hk, h⟩ := h.of_liftM_bind
  obtain ⟨-, id, h⟩ := h.of_bind
  obtain ⟨⟨⟩, hcheck, h⟩ := h.of_liftM_bind
  obtain ⟨slots, hslots, h⟩ := h.of_liftM_bind
  obtain ⟨⟨⟩, hrequire, hslots⟩ := bind_eq_ok_iff.1 hslots
  cases hslots
  refine ⟨k, implied, hk, hcheck, hrequire, ?_⟩
  dsimp only at h
  split at h
  · exact absurd h.of_bind.1 Editing.not_succeeds_throw
  · next hextra =>
    refine ⟨Option.eq_none_iff_forall_ne_some.2 hextra, fun slot hslot => ?_⟩
    exact (h.of_bind.1.of_mapM slot hslot).of_bind.1

/-- A slot is filled with the shape of its term, or with a hole. -/
theorem builds_getD_loaders {parts : Terms} {slot : String}
    (h : ∀ t, parts.get? slot = some t → (t.load S).Builds (t.Describes S)) :
    ((Std.ExtTreeMap.ofList (parts.loaders S)).getD slot loadHole).Builds (parts.Fills S slot) := by
  intro F next
  unfold Terms.Fills
  rcases parts.getD_loaders S slot with ⟨t, ht, hload⟩ | ⟨hnone, hload⟩
  · rw [hload, ht]
    refine (h t ht F next).imp (fun _ _ _ ⟨u, hid, hu, hshape⟩ => ?_) fun _ => id
    exact ⟨u, hid, hu, fun _ h => Option.some.inj h ▸ hshape, nofun⟩
  · rw [hload, hnone]
    refine (Editing.builds_loadHole F next).imp (fun _ _ _ ⟨u, hid, hu, hshape⟩ => ?_) fun _ => id
    exact ⟨u, hid, hu, nofun, fun _ => hshape⟩

/-- A term without repeated parameters adds a plant of the shape that it describes. -/
theorem builds_load (hS : S.TagsReferences) (t : Term) (ht : t.NamesOnce) :
    (t.load S).Builds (t.Describes S) := by
  induction t using Term.induct with
  | step id? tag own parts ih =>
  intro F next
  obtain ⟨hparameters, hparts⟩ := ht
  have hbuild : ∀ slot, ((Std.ExtTreeMap.ofList (parts.loaders S)).getD slot loadHole).Builds
      (parts.Fills S slot) :=
    fun slot => builds_getD_loaders fun t ht => ih slot t ht (hparts slot t ht)
  have hload := @of_succeeds_load S id? tag own parts
  generalize ((Term.mk id? tag own parts).load S).Succeeds = loads at hload ⊢
  rw [load]
  refine Editing.meets_liftM_bind (fun _ he h => ?_) ?_
  · obtain ⟨k, implied, hk, -⟩ := hload h
    cases he.symm.trans hk
  rintro ⟨k, implied⟩ hk
  rw [StateT.run_bind, Editing.run_newId, bind_assoc]
  refine .take_bind ?_
  rw [pure_bind]
  refine Editing.meets_liftM_bind (fun _ he h => ?_) fun _ hcheck => ?_
  · obtain ⟨k', implied', hk', hcheck, -⟩ := hload h
    cases hk.symm.trans hk'
    cases he.symm.trans hcheck
  refine Editing.meets_liftM_bind (fun _ he h => ?_) fun slots hslots => ?_
  · obtain ⟨k', implied', hk', -, hrequire, -⟩ := hload h
    cases hk.symm.trans hk'
    rw [Signature.declaredSlots, hrequire] at he
    cases he
  obtain ⟨⟨⟩, -, hslots⟩ := bind_eq_ok_iff.1 hslots
  cases hslots
  dsimp only
  split
  · next slot hextra =>
    refine .throw fun h => ?_
    obtain ⟨k', implied', hk', -, -, hnone, -⟩ := hload h
    cases hk.symm.trans hk'
    cases hextra.symm.trans hnone
  next hextra =>
  rw [StateT.run_bind]
  refine Meets.bind ((Editing.meets_loadSlots next hbuild _ F (next + 1)).imp
    (fun _ _ _ hus => hus) ?_) ?_
  · rintro _ ⟨slot, hslot, hf⟩ h
    obtain ⟨k', implied', hk', -, -, -, hall⟩ := hload h
    cases hk.symm.trans hk'
    exact hf (hall slot hslot)
  rintro ⟨entries, G⟩ next' hnext ⟨us, hnames, hlinks, hshapes, hus, hnodup, hfull, hsame⟩
  rw [StateT.run_bind, Editing.run_insert, pure_bind]
  have hdeclared : (seed next k implied own).declaredSlots.Nodup :=
    Node.nodup_declaredSlots fun hr => hS.nodup_parameters hparameters hk next hr
  have hslots : (Slots.ofList entries).entries = entries :=
    Slots.entries_ofList (hnames ▸ hdeclared)
  have hwell : ({ seed next k implied own with slots := Slots.ofList entries } : Node).WellFormed :=
    Node.wellFormed_of_checkFields hcheck (by rw [Slots.names, hslots]; exact hnames)
  have hcarries : ({ seed next k implied own with slots := Slots.ofList entries } : Node).Carries
      us := by
    unfold Node.Carries
    rw [hslots]
    exact hlinks
  refine .pure ⟨.mk _ us, rfl, Forest.adds_insert rfl hnext hcarries hus hnodup hfull hsame
    (hwell.formed next') rfl rfl rfl, ?_⟩
  rw [Plant.shape_mk, Slots.names, hslots, hnames]
  refine describes_seed hk hdeclared (fun slot hslot => ?_) hshapes
  have hnone := Option.eq_none_iff_forall_ne_some.2 hextra
  simpa [seed] using List.find?_eq_none.1 hnone slot hslot

/-- What a term loads to: a plant of the shape that it describes. -/
def LoadsTo (S : Signature) (F : Forest) (t : Term) (id : NodeId) : Prop :=
  ∃ u : Plant, F.Holds u ∧ u.id = id ∧ t.Describes S u.shape

namespace LoadsTo

variable {F G : Forest} {t : Term} {x : NodeId}

theorem mono (h : t.LoadsTo S F x) (hG : ∀ x n, F.get? x = some n → G.get? x = some n) :
    t.LoadsTo S G x := by
  obtain ⟨u, hu, hid, hshape⟩ := h
  refine ⟨u, hu.congr fun y hy => ?_, hid, hshape⟩
  obtain ⟨n, hn, rfl⟩ := Plant.mem_ids_iff_nodes.1 hy
  rw [hu.get?_of_mem_nodes hn, hG _ _ (hu.get?_of_mem_nodes hn)]

theorem locks {ids : List NodeId} (h : t.LoadsTo S F x) (hG : F.Locks G ids) :
    t.LoadsTo S G x := by
  obtain ⟨u, hu, hid, hshape⟩ := h
  obtain ⟨v, hv, hvid, hvshape⟩ := hG.exists_holds hu
  exact ⟨v, hv, hvid.trans hid, hvshape ▸ hshape⟩

theorem exists_kind (h : t.LoadsTo S F x) :
    ∃ n implied, F.get? x = some n ∧ S.kindOfTag t.tag = .ok (n.kind, implied) := by
  obtain ⟨u, hu, rfl, hshape⟩ := h
  obtain ⟨implied, hk⟩ := hshape.exists_implied
  exact ⟨u.root, implied, hu.get?_id, hk⟩

end LoadsTo

/-- Terms that are loaded one after the other add their trees to a kept forest. -/
theorem meets_loadAll (hS : S.TagsReferences) {ts : List Term} (ht : ∀ t ∈ ts, t.NamesOnce)
    {F : Forest} {roots : List NodeId} {lo next : Nat}
    (hF : F.Kept (Node.Formed next) roots [] next) (hspans : F.Spans lo next) (hlo : lo ≤ next)
    (hpos : 1 ≤ lo) :
    ((ts.mapM (load S)).run F).Meets next
      (fun r next' => r.2.Kept (Node.Formed next') (roots ++ r.1) [] next' ∧ r.2.Spans lo next' ∧
        (∀ x n, F.get? x = some n → r.2.get? x = some n) ∧
        List.Forall₂ (LoadsTo S r.2) ts r.1)
      fun _ => ∃ t ∈ ts, ¬(t.load S).Succeeds := by
  induction ts generalizing F roots next with
  | nil => exact .pure ⟨by simpa using hF, hspans, fun _ _ => id, .nil⟩
  | cons t ts ih =>
    rw [List.forall_mem_cons] at ht
    rw [List.mapM_cons, StateT.run_bind]
    refine Meets.bind ((builds_load hS t ht.1 F next).imp (fun _ _ _ hu => hu)
      fun _ hf => ⟨t, List.mem_cons_self, hf⟩) ?_
    rintro ⟨_, G⟩ mid hmid ⟨u, rfl, hu, hshape⟩
    have hsp := hu.spans hspans hlo hmid
    obtain rfl := hu.eq_insertAll
    have hA := hF.insertGrown hu.grown hu.free hmid (Nat.le_trans hpos hlo)
    have hperm := List.perm_append_singleton u.id roots
    have hG : (F.insertAll u.nodes).Kept (Node.Formed mid) (roots ++ [u.id]) [] mid :=
      hA.relist (hperm.nodup_iff.2 hA.nodup) (fun _ => hperm.mem_iff) fun _ => Iff.rfl
    rw [StateT.run_bind]
    refine Meets.bind ((ih ht.2 hG hsp (Nat.le_trans hlo hmid)).imp (fun _ _ _ hus => hus)
      fun _ ⟨t', ht', hf⟩ => ⟨t', List.mem_cons_of_mem _ ht', hf⟩) ?_
    rintro ⟨ids, H⟩ next' hnext ⟨hH, hspH, hsame, hloads⟩
    refine .pure ⟨by simpa using hH, hspH, fun x n hx => hsame x n ?_, .cons ?_ hloads⟩
    · exact Forest.get?_insertAll_of_get? (hF.get?_of_grown hu.grown) hx
    · exact LoadsTo.mono ⟨u, hu.held, rfl, hshape⟩ hsame

end Term

/-! ### Definitions -/

/-- Locking nodes that are there, one after the other. -/
theorem Editing.exists_run_lockAll {ids : List NodeId} {F : Forest}
    (h : ∀ x ∈ ids, ∃ n, F.get? x = some n) :
    ∃ G, (forIn ids PUnit.unit fun id _ => do
        let n ← find id
        insert { n with locked := true }
        return ForInStep.yield PUnit.unit : Editing PUnit).run F = pure (PUnit.unit, G) ∧
      F.Locks G ids := by
  induction ids generalizing F with
  | nil => exact ⟨F, rfl, .refl F⟩
  | cons x ids ih =>
    obtain ⟨n, hn⟩ := h x List.mem_cons_self
    obtain ⟨G, hrun, hG⟩ := ih (F := F.insert { n with locked := true }) fun y hy => by
      rw [Forest.get?_insert]
      split
      · exact ⟨_, rfl⟩
      · exact h y (List.mem_cons_of_mem _ hy)
    refine ⟨G, ?_, hG.cons hn⟩
    rw [List.forIn_cons, StateT.run_bind, StateT.run_bind, run_find hn, pure_bind,
      StateT.run_bind, run_insert, pure_bind, StateT.run_pure, pure_bind]
    exact hrun

/-- A definition that is loaded is locked with all that is below it. -/
theorem exists_run_lockDefinition {F : Forest} {roots defs : List NodeId} {next : Nat} {r : NodeId}
    {n : Node} (h : F.Kept (Node.Formed next) roots defs next) (hr : r ∈ roots)
    (hn : F.get? r = some n) (hk : n.kind = .define) :
    ∃ G, (lockDefinition r).run F = pure ((), G) ∧
      G.Kept (Node.Formed next) roots (defs ++ [r]) next ∧ ∃ ids, F.Locks G ids := by
  obtain ⟨t, rfl, ht, -, hnodup, hids, -⟩ := h.exists_plant hn
  obtain rfl := Forest.id_of_get? hn
  have hthere : ∀ x ∈ t.ids, ∃ n, F.get? x = some n := fun x hx => by
    obtain ⟨j, hj⟩ := (hids x).1 hx
    exact hj.exists_start
  obtain ⟨G, hrun, hG⟩ := Editing.exists_run_lockAll hthere
  refine ⟨G, ?_, h.lock hG hr hn hk hids, t.ids, hG⟩
  rw [lockDefinition, StateT.run_bind, Editing.run_find hn, pure_bind]
  dsimp only
  have hids : (F, F).1.idsUnder t.root.id = .ok t.ids := ht.idsUnder hnodup
  rw [if_neg (by simpa using hk), StateT.run_bind, StateT.run_get, pure_bind,
    StateT.run_bind, Editing.run_liftM_ok hids, pure_bind, StateT.run_bind, hrun, pure_bind]
  rfl

/-- A term whose tag stands for `define` nodes. -/
def Term.Defines (S : Signature) (t : Term) : Prop :=
  ∃ implied, S.kindOfTag t.tag = .ok (.define, implied)

/-- Loaded terms are locked as definitions if all of them are. -/
theorem meets_lockDefinitions {S : Signature} {F : Forest} {roots defs : List NodeId} {next : Nat}
    {ts : List Term} {ids : List NodeId} (h : F.Kept (Node.Formed next) roots defs next)
    (hids : ids ⊆ roots) (hload : List.Forall₂ (Term.LoadsTo S F) ts ids) :
    ((ids.forM lockDefinition).run F).Meets next
      (fun r next' => next' = next ∧ r.2.Kept (Node.Formed next) roots (defs ++ ids) next ∧
        (∃ locked, F.Locks r.2 locked) ∧ ∀ t ∈ ts, t.Defines S)
      fun _ => ∃ t ∈ ts, ¬t.Defines S := by
  induction ts generalizing F defs ids with
  | nil =>
    cases hload
    exact .pure ⟨rfl, by simpa using h, ⟨[], .refl F⟩, nofun⟩
  | cons t ts ih =>
    obtain ⟨id, ids, ht, hts, rfl⟩ := List.forall₂_cons_left_iff.1 hload
    obtain ⟨n, implied, hn, hk⟩ := ht.exists_kind
    rw [List.cons_subset] at hids
    rw [List.forM_eq_forM, List.forM_cons, StateT.run_bind, ← List.forM_eq_forM]
    by_cases hdefine : n.kind = .define
    · obtain ⟨G, hrun, hG, locked, hlocks⟩ := exists_run_lockDefinition h hids.1 hn hdefine
      rw [hrun, pure_bind]
      refine (ih hG hids.2 (hts.imp fun _ _ hx => hx.locks hlocks)).imp ?_ ?_
      · rintro ⟨_, H⟩ next' - ⟨rfl, hH, ⟨locked', hlocks'⟩, hdefines⟩
        rw [List.append_assoc] at hH
        exact ⟨rfl, hH, ⟨_, hlocks.trans hlocks'⟩,
          List.forall_mem_cons.2 ⟨⟨implied, hdefine ▸ hk⟩, hdefines⟩⟩
      · rintro _ ⟨t, ht, hf⟩
        exact ⟨t, List.mem_cons_of_mem _ ht, hf⟩
    · rw [lockDefinition, StateT.run_bind, Editing.run_find hn, pure_bind]
      dsimp only
      rw [if_pos hdefine]
      refine .throw ⟨t, List.mem_cons_self, ?_⟩
      rintro ⟨implied', hk'⟩
      have := hk.symm.trans hk'
      simp only [Except.ok.injEq, Prod.mk.injEq] at this
      exact hdefine this.1

/-! ### Levels -/

namespace Level

/-- All terms of a level in the order in which they are loaded. -/
def terms (l : Level) : List Term := l.board ++ l.toolbox ++ l.goal ++ l.defs

variable {S : Signature} {l : Level} {index : Nat}

theorem mem_terms {t : Term} :
    t ∈ l.terms ↔ t ∈ l.board ∨ t ∈ l.toolbox ∨ t ∈ l.goal ∨ t ∈ l.defs := by
  simp [terms]

theorem succeeds_terms (h : (l.build S index).Succeeds) : ∀ t ∈ l.terms, (t.load S).Succeeds := by
  rw [build] at h
  obtain ⟨hboard, _, h⟩ := h.of_bind
  obtain ⟨htoolbox, _, h⟩ := h.of_bind
  obtain ⟨hgoal, _, h⟩ := h.of_bind
  obtain ⟨hdefs, -⟩ := h.of_bind
  intro t ht
  rcases mem_terms.1 ht with ht | ht | ht | ht
  · exact hboard.of_mapM t ht
  · exact htoolbox.of_mapM t ht
  · exact hgoal.of_mapM t ht
  · exact hdefs.of_mapM t ht

/-- What a level loads to: a kept state with a node for each id from `lo` up to but not including
`hi`, whose areas list what their terms load to. -/
structure LoadsTo (S : Signature) (l : Level) (s : State) (lo hi : Nat) : Prop where
  kept : s.Kept hi
  spans : s.nodes.Spans lo hi
  board : List.Forall₂ (Term.LoadsTo S s.nodes) l.board s.board
  toolbox : List.Forall₂ (Term.LoadsTo S s.nodes) l.toolbox s.toolbox
  goal : List.Forall₂ (Term.LoadsTo S s.nodes) l.goal s.goal
  defs : List.Forall₂ (Term.LoadsTo S s.nodes) l.defs s.defs

/-- A level is built into the state that it loads to, unless one of its terms never loads or a
definition is no definition. -/
theorem meets_build (hS : S.TagsReferences) (hl : ∀ t ∈ l.terms, t.NamesOnce) (index : Nat)
    {first : Nat} (hpos : 1 ≤ first) :
    ((l.build S index).run ∅).Meets first
      (fun r next' => l.LoadsTo S r.1 first next' ∧ ∀ t ∈ l.defs, t.Defines S)
      fun _ => (∃ t ∈ l.terms, ¬(t.load S).Succeeds) ∨ ∃ t ∈ l.defs, ¬t.Defines S := by
  have hload : ∀ {ts : List Term}, (∀ t ∈ ts, t ∈ l.terms) → ∀ {F : Forest} {roots : List NodeId}
      {next : Nat}, F.Kept (Node.Formed next) roots [] next → F.Spans first next → first ≤ next →
      ((ts.mapM (Term.load S)).run F).Meets next
        (fun r next' => r.2.Kept (Node.Formed next') (roots ++ r.1) [] next' ∧
          r.2.Spans first next' ∧ (∀ x n, F.get? x = some n → r.2.get? x = some n) ∧
          List.Forall₂ (Term.LoadsTo S r.2) ts r.1)
        fun _ => (∃ t ∈ l.terms, ¬(t.load S).Succeeds) ∨ ∃ t ∈ l.defs, ¬t.Defines S :=
    fun hts _ _ _ hF hspans hle =>
      (Term.meets_loadAll hS (fun t ht => hl t (hts t ht)) hF hspans hle hpos).imp
        (fun _ _ _ h => h) fun _ ⟨t, ht, hf⟩ => .inl ⟨t, hts t ht, hf⟩
  rw [build, StateT.run_bind]
  refine (hload (fun t ht => mem_terms.2 (.inl ht)) (.empty _ first) (Forest.spans_empty first)
    (Nat.le_refl first)).bind ?_
  rintro ⟨board, F⟩ n₁ hn₁ ⟨hF, hspF, -, hboard⟩
  rw [StateT.run_bind]
  refine (hload (fun t ht => mem_terms.2 (.inr (.inl ht))) hF hspF (by lia)).bind ?_
  rintro ⟨toolbox, G⟩ n₂ hn₂ ⟨hG, hspG, hFG, htoolbox⟩
  rw [StateT.run_bind]
  refine (hload (fun t ht => mem_terms.2 (.inr (.inr (.inl ht)))) hG hspG (by lia)).bind ?_
  rintro ⟨goal, H⟩ n₃ hn₃ ⟨hH, hspH, hGH, hgoal⟩
  rw [StateT.run_bind]
  refine (hload (fun t ht => mem_terms.2 (.inr (.inr (.inr ht)))) hH hspH (by lia)).bind ?_
  rintro ⟨defs, I⟩ n₄ hn₄ ⟨hI, hspI, hHI, hdefs⟩
  rw [StateT.run_bind]
  refine Meets.bind ((meets_lockDefinitions hI (List.subset_append_right _ _) hdefs).imp
    (fun _ _ _ h => h) fun _ => .inr) ?_
  rintro ⟨_, J⟩ next' - ⟨rfl, hJ, ⟨locked, hlocks⟩, hdefine⟩
  refine .pure ⟨⟨?_, fun x => hlocks.exists_get?_iff.trans (hspI x), ?_, ?_, ?_, ?_⟩, hdefine⟩
  · have hperm : (board ++ toolbox ++ defs ++ goal).Perm
        ([] ++ board ++ toolbox ++ goal ++ defs) := by
      rw [List.nil_append, List.append_assoc _ goal, List.append_assoc _ defs]
      exact List.perm_append_comm.append_left _
    exact hJ.relist (hperm.nodup_iff.2 hJ.nodup) (fun _ => hperm.mem_iff) fun _ => Iff.rfl
  · exact hboard.imp fun _ _ h => (((h.mono hFG).mono hGH).mono hHI).locks hlocks
  · exact htoolbox.imp fun _ _ h => ((h.mono hGH).mono hHI).locks hlocks
  · exact hgoal.imp fun _ _ h => (h.mono hHI).locks hlocks
  · exact hdefs.imp fun _ _ h => h.locks hlocks

/-- A level can be loaded. -/
def Loads (S : Signature) (l : Level) : Prop :=
  ∃ index next s next', 1 ≤ next ∧ (l.load S index).runFrom next = (.ok s, next')

theorem load_eq (l : Level) (S : Signature) (index : Nat) :
    l.load S index = (l.build S index).run ∅ >>= fun r => pure r.1 := by
  show Prod.fst <$> (l.build S index).run ∅ = _
  rw [map_eq_pure_bind]

/-- A level that can be loaded is loaded to what it describes, whichever ids it takes. -/
theorem meets_loadsTo (hS : S.TagsReferences) (hl : ∀ t ∈ l.terms, t.NamesOnce) (index : Nat)
    {next : Nat} (hpos : 1 ≤ next) :
    (l.load S index).Meets next (fun s next' => l.LoadsTo S s next next') fun _ => ¬l.Loads S := by
  rw [load_eq]
  refine Meets.bind ((meets_build hS hl index hpos).imp (fun _ _ _ h => h.1) fun _ hf h => ?_)
    fun _ _ _ h => .pure h
  obtain ⟨index', first, s, last, hfirst, hrun⟩ := h
  rw [load_eq, Supply.runFrom_bind] at hrun
  rcases hbuild : ((l.build S index').run ∅).runFrom first with ⟨_ | r, mid⟩
  · rw [hbuild] at hrun
    cases hrun
  · obtain ⟨-, -, hdefines⟩ := (meets_build hS hl index' hfirst).of_ok hbuild
    rcases hf with ⟨t, ht, hf⟩ | ⟨t, ht, hf⟩
    · exact hf (succeeds_terms ⟨_, _, _, _, hbuild⟩ t ht)
    · exact hf (hdefines t ht)

/-- A level that can be loaded is loaded to a kept state, whichever ids it takes. -/
theorem meets_load (hS : S.TagsReferences) (hl : ∀ t ∈ l.terms, t.Distinct) (index : Nat)
    {next : Nat} (hpos : 1 ≤ next) :
    (l.load S index).Meets next (fun s next' => s.Kept next') fun _ => ¬l.Loads S :=
  (meets_loadsTo hS (fun t ht => (hl t ht).namesOnce) index hpos).imp (fun _ _ _ h => h.kept)
    fun _ => id

end Level

end TermForest
