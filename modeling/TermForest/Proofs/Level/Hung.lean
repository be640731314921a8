import TermForest.Proofs.Level.Load
import TermForest.Proofs.State.Hung

/-!
# Loaded levels are hung

A level that loads starts in a hung state. Nothing is asked of its terms: where a reference names a
parameter twice, what was loaded for the earlier place is left without a holder, so the forest is not
linked.
-/

namespace TermForest

open Supply (Meets)

/-! ### Stray nodes -/

namespace Forest

variable {F G : Forest} {next : Nat} {n : Node}

/-- A node names a slot of a node that does not hold it there. -/
def Strays (F : Forest) : Prop :=
  ∃ c p slot n m, F.get? c = some n ∧ n.parent = some p ∧ n.parentSlot = some slot ∧
    F.get? p = some m ∧ m.slots.get? slot ≠ some c

theorem Strays.not_linked (h : F.Strays) : ¬F.Linked := by
  obtain ⟨c, p, slot, n, m, hn, hp, hs, hm, hne⟩ := h
  intro hF
  have hchild := (hF.inverse p slot c).2 (holderOf_eq_some_iff.2 ⟨n, hn, hp, hs⟩)
  rw [childAt, hm, Option.bind_some] at hchild
  exact hne hchild

/-- A stray node stays one when all older nodes stay as they are. -/
theorem Strays.of_older (h : F.Strays) (hF : F.Hung next)
    (hG : ∀ x : Nat, x < next → G.get? x = F.get? x) : G.Strays := by
  obtain ⟨c, p, slot, n, m, hn, hp, hs, hm, hne⟩ := h
  exact ⟨c, p, slot, n, m, (hG c (hF.lt c n hn)).trans hn, hp, hs, (hG p (hF.lt p m hm)).trans hm,
    hne⟩

/-- A stray node stays one when a node is put in that is new or has the slots of the one before, and
its parent too unless that was a root. -/
theorem Strays.insert (h : F.Strays)
    (hn : ∀ m, F.get? n.id = some m → n.slots = m.slots ∧
      (m.parent = none ∨ n.parent = m.parent ∧ n.parentSlot = m.parentSlot)) :
    (F.insert n).Strays := by
  obtain ⟨c, p, slot, k, m, hk, hp, hs, hm, hne⟩ := h
  obtain ⟨k', hk', hp', hs'⟩ : ∃ k', (F.insert n).get? c = some k' ∧ k'.parent = some p ∧
      k'.parentSlot = some slot := by
    rw [get?_insert]
    split
    · next hc =>
      rcases (hn k (hc ▸ hk)).2 with hnone | ⟨hparent, hslot⟩
      · rw [hnone] at hp
        cases hp
      · exact ⟨n, rfl, hparent.trans hp, hslot.trans hs⟩
    · exact ⟨k, hk, hp, hs⟩
  obtain ⟨m', hm', hslots⟩ : ∃ m', (F.insert n).get? p = some m' ∧ m'.slots = m.slots := by
    rw [get?_insert]
    split
    · next hp' => exact ⟨n, rfl, (hn m (hp' ▸ hm)).1⟩
    · exact ⟨m, hm, rfl⟩
  exact ⟨c, p, slot, k', m', hk', hp', hs', hm', hslots ▸ hne⟩

/-- Of two children that name one slot of a new node at least one is a stray. -/
theorem nodup_or_strays {entries : List (String × NodeId)} (hpoints : F.PointsTo n.id entries)
    (hnew : F.get? n.id = none) (hchildren : (entries.map Prod.snd).Nodup) :
    (entries.map Prod.fst).Nodup ∨ (F.insert n).Strays := by
  by_cases hheld : ∀ e ∈ entries, n.slots.get? e.1 = some e.2
  · refine .inl ((List.Nodup.of_map _ hchildren).map_on fun e he e' he' hname => ?_)
    have hchild := (hheld e he).symm.trans (hname ▸ hheld e' he')
    exact Prod.ext hname (Option.some.inj hchild)
  · simp only [not_forall] at hheld
    obtain ⟨e, he, hne⟩ := hheld
    obtain ⟨m, hm, hp, hs⟩ := hpoints e he
    have hother : e.2 ≠ n.id := by
      intro h
      rw [h, hnew] at hm
      cases hm
    exact .inr ⟨e.2, n.id, e.1, m, n, (get?_insert_of_ne hother).trans hm, hp, hs,
      get?_insert_self .., hne⟩

end Forest

/-! ### Terms -/

namespace Editing

variable {F G : Forest} {next : Nat}

/-- An edit that adds a root to a hung forest, and leaves a stray node unless `P` holds. -/
def Roots (x : Editing NodeId) (P : Prop) : Prop :=
  ∀ F next, F.Hung next →
    (x.run F).Meets next (fun r next' => F.AddsRoot r.2 next next' r.1 ∧ (P ∨ r.2.Strays))
      fun _ => True

theorem roots_loadHole : loadHole.Roots True := by
  intro F next hF
  simp only [loadHole, StateT.run_bind, run_newId, bind_assoc, pure_bind, run_insert]
  refine .take_bind (.pure ⟨⟨?_, Nat.le_refl _, _, Forest.get?_insert_self .., rfl⟩, .inl trivial⟩)
  exact ((Forest.Extends.refl hF).mono (Nat.le_succ next)).insert_leaf (Nat.le_refl _)
    (hF.get?_eq_none (Nat.le_refl _)) (Nat.lt_succ_self _) rfl rfl
    (Forest.admits_of_not_literal (by decide : ¬Kind.hole.IsLiteral))

/-- Roots that are added one after the other, each pointed at its slot. -/
theorem extends_loadSlots {holder : Nat} {build : String → Editing NodeId} {P : String → Prop}
    (h : ∀ slot, (build slot).Roots (P slot)) (slots : List String) (hG : G.Hung next)
    (hholder : holder < next) (hnone : G.get? holder = none) :
    ((slots.mapM fun slot => do
        let child ← build slot
        attach child holder slot
        return (slot, child) : Editing (List (String × NodeId))).run G).Meets next
      (fun r next' => G.Extends r.2 next next' ∧ r.2.PointsTo holder r.1 ∧
        r.1.map Prod.fst = slots ∧ (r.1.map Prod.snd).Nodup ∧ (∀ e ∈ r.1, next ≤ e.2) ∧
        ((∀ slot ∈ slots, P slot) ∨ r.2.Strays) ∧ (slots = [] → r.2 = G))
      fun _ => True := by
  induction slots generalizing G next with
  | nil => exact .pure ⟨.refl hG, nofun, rfl, .nil, nofun, .inl nofun, fun _ => rfl⟩
  | cons slot slots ih =>
    rw [List.mapM_cons, StateT.run_bind, StateT.run_bind, bind_assoc]
    refine (h slot G next hG).bind ?_
    rintro ⟨child, H⟩ mid hmid ⟨⟨hH, hle, n, hn, hp⟩, hstray⟩
    rw [StateT.run_bind, run_attach hn, pure_bind, StateT.run_pure, pure_bind, StateT.run_bind]
    obtain rfl := Forest.id_of_get? hn
    have hnoneH : H.get? holder = none := (hH.below holder hholder).trans hnone
    have hI := hH.heldBy slot hn hle (Nat.lt_of_lt_of_le hholder hmid) (.inl hp)
      fun _ m hm => nomatch hnoneH.symm.trans hm
    have hnoneI : (H.insert (n.heldBy holder slot)).get? holder = none :=
      (hI.below holder hholder).trans hnone
    have hstrayI : P slot ∨ (H.insert (n.heldBy holder slot)).Strays := by
      refine hstray.imp_right fun h => h.insert fun m hm => ?_
      obtain rfl : n = m := Option.some.inj (hn.symm.trans hm)
      exact ⟨rfl, .inl hp⟩
    refine (ih hI.hung (Nat.lt_of_lt_of_le hholder hmid) hnoneI).bind ?_
    rintro ⟨entries, J⟩ next' hnext ⟨hJ, hpoints, hnames, hnodup, hnew, hstrayJ, -⟩
    refine .pure ⟨⟨fun x hx => ?_, hJ.hung, fun hF => hJ.plain (hI.plain hF)⟩, List.forall_mem_cons.2
      ⟨⟨n.heldBy holder slot, ?_, rfl, rfl⟩, hpoints⟩, ?_, ?_, ?_, ?_, nofun⟩
    · exact (hJ.below x (Nat.lt_of_lt_of_le hx hmid)).trans (hI.below x hx)
    · exact (hJ.below _ (hH.hung.lt _ n hn)).trans (Forest.get?_insert_self ..)
    · rw [List.map_cons, hnames]
    · refine List.nodup_cons.2 ⟨fun hmem => ?_, hnodup⟩
      obtain ⟨e, he, hchild⟩ := List.mem_map.1 hmem
      exact Nat.not_lt.2 (hnew e he) (hchild ▸ hH.hung.lt _ n hn)
    · exact List.forall_mem_cons.2 ⟨hle, fun e he => Nat.le_trans hmid (hnew e he)⟩
    · rcases hstrayI with hslot | hstray
      · exact hstrayJ.imp_left fun h => List.forall_mem_cons.2 ⟨hslot, h⟩
      · exact .inr (hstray.of_older hI.hung hJ.below)

end Editing

/-- A term that loads adds a root, and leaves a stray node if it names a parameter twice. -/
theorem Term.roots_load (S : Signature) (t : Term) : (t.load S).Roots t.NamesOnce := by
  induction t using Term.induct with
  | step id? tag own parts ih =>
  intro F next hF
  have hbuild : ∀ slot, ((Std.ExtTreeMap.ofList (parts.loaders S)).getD slot loadHole).Roots
      (∀ t, parts.get? slot = some t → t.NamesOnce) := by
    intro slot F next hF
    rcases parts.getD_loaders S slot with ⟨t, ht, hload⟩ | ⟨hnone, hload⟩
    · rw [hload, ht]
      refine (ih slot t ht F next hF).imp (fun _ _ _ h => ⟨h.1, h.2.imp_left fun h _ ht => ?_⟩)
        fun _ => id
      exact Option.some.inj ht ▸ h
    · rw [hload, hnone]
      exact (Editing.roots_loadHole F next hF).imp (fun _ _ _ h => ⟨h.1, .inl (by simp)⟩) fun _ => id
  rw [load, StateT.run_bind]
  refine Editing.read_bind fun tagged hk => ?_
  obtain ⟨k, implied⟩ := tagged
  rw [StateT.run_bind, Editing.run_newId, bind_assoc]
  refine .take_bind ?_
  rw [pure_bind, StateT.run_bind]
  refine Editing.read_bind fun _ hcheck => ?_
  rw [StateT.run_bind]
  refine Editing.read_bind fun slots hslots => ?_
  obtain ⟨⟨⟩, -, hslots⟩ := bind_eq_ok_iff.1 hslots
  cases hslots
  dsimp only
  split
  · exact .throw trivial
  next hextra =>
  rw [StateT.run_bind]
  refine (Editing.extends_loadSlots hbuild _ (hF.mono (Nat.le_succ next))
    (Nat.lt_succ_self next) (hF.get?_eq_none (Nat.le_refl next))).bind ?_
  rintro ⟨entries, G⟩ next' hnext ⟨hG, hpoints, hnames, hnodup, -, hstray, hnil⟩
  rw [StateT.run_bind, Editing.run_insert, pure_bind]
  have hext : F.Extends G next next' :=
    ⟨fun x hx => hG.below x (Nat.lt_succ_of_lt hx), hG.hung, hG.plain⟩
  have hnew : G.get? next = none :=
    (hG.below next (Nat.lt_succ_self next)).trans (hF.get?_eq_none (Nat.le_refl next))
  have hadmits : G.Admits { seed next k implied own with slots := Slots.ofList entries } := by
    intro hlit
    have hleaf : (seed next k implied own).declaredSlots = [] := Node.declaredSlots_of_literal hlit
    obtain rfl : G = F := hnil hleaf
    obtain rfl : entries = [] := List.map_eq_nil_iff.1 (hnames.trans hleaf)
    refine ⟨(Node.hasFields_of_checkFields hcheck).1.congr rfl rfl, rfl, fun x m hm hp => ?_⟩
    · exact absurd (hF.parent_lt x m hm _ hp) (Nat.lt_irrefl next)
  refine .pure ⟨⟨hext.insert_above (Nat.le_refl next) hnext hnew rfl (fun e he => hpoints e ?_)
    hadmits, Nat.le_refl next, _, Forest.get?_insert_self .., rfl⟩, ?_⟩
  · exact Slots.entries_ofList_subset entries he
  rcases hstray with hparts | hstray
  · refine (Forest.nodup_or_strays (n := { seed next k implied own with
      slots := Slots.ofList entries }) hpoints hnew hnodup).imp_left fun hdeclared => ?_
    refine .mk (fun htag value hvalue => ?_) fun slot t ht => ?_
    · exact Signature.nodup_texts_of_kindOfTag (htag ▸ hk) (hnames ▸ hdeclared) hvalue
    · refine hparts slot ?_ t ht
      have hnone := Option.eq_none_iff_forall_ne_some.2 hextra
      simpa using List.find?_eq_none.1 hnone slot (Terms.mem_names_of_get? ht)
  · refine .inr (hstray.insert fun m hm => ?_)
    cases hnew.symm.trans hm

/-- A hung and plain forest of ids from `lo` on, with some of its roots, each once. It has a stray node
if one of some terms names a parameter twice. -/
structure Forest.HasRoots (F : Forest) (lo next : Nat) (ts : List Term) (roots : List NodeId) :
    Prop where
  bound : lo ≤ next
  below : ∀ x : Nat, x < lo → F.get? x = none
  hung : F.Hung next
  isRoot : ∀ r ∈ roots, F.IsRoot r
  nodup : roots.Nodup
  strays : (∀ t ∈ ts, t.NamesOnce) ∨ F.Strays
  plain : F.Plain

theorem Forest.HasRoots.lt {F : Forest} {lo next : Nat} {ts : List Term} {roots : List NodeId}
    (h : F.HasRoots lo next ts roots) {r : Nat} (hr : r ∈ roots) : r < next := by
  obtain ⟨n, hn, -⟩ := h.isRoot r hr
  exact h.hung.lt r n hn

/-- Terms that are loaded one after the other add their roots. -/
theorem Term.hasRoots_loadAll (S : Signature) (ts : List Term) {F : Forest} {loaded : List Term}
    {roots : List NodeId} {lo next : Nat} (h : F.HasRoots lo next loaded roots) :
    ((ts.mapM (load S)).run F).Meets next
      (fun r next' => r.2.HasRoots lo next' (loaded ++ ts) (roots ++ r.1)) fun _ => True := by
  induction ts generalizing F loaded roots next with
  | nil => exact .pure (by simpa using h)
  | cons t ts ih =>
    rw [List.mapM_cons, StateT.run_bind]
    refine (t.roots_load S F next h.hung).bind ?_
    rintro ⟨id, G⟩ mid hmid ⟨⟨hG, hle, hroot⟩, hstray⟩
    have hG' : G.HasRoots lo mid (loaded ++ [t]) (roots ++ [id]) := by
      refine ⟨Nat.le_trans h.bound hmid, fun x hx => ?_, hG.hung, fun r hr => ?_, ?_, ?_,
        hG.plain h.plain⟩
      · exact (hG.below x (Nat.lt_of_lt_of_le hx h.bound)).trans (h.below x hx)
      · rcases List.mem_append.1 hr with hr | hr
        · exact (h.hung.keeps hG.below).isRoot (h.isRoot r hr)
        · exact List.mem_singleton.1 hr ▸ hroot
      · refine List.nodup_append.2 ⟨h.nodup, List.nodup_singleton _, fun r hr r' hr' e => ?_⟩
        have := h.lt hr
        rw [e, List.mem_singleton.1 hr'] at this
        exact Nat.not_lt.2 hle this
      · rcases h.strays with hloaded | hold
        · refine hstray.imp_left fun ht => ?_
          exact List.forall_mem_append.2 ⟨hloaded, List.forall_mem_singleton.2 ht⟩
        · exact .inr (hold.of_older h.hung hG.below)
    rw [StateT.run_bind]
    refine (ih hG').bind ?_
    rintro ⟨ids, H⟩ next' - hH
    exact .pure (by simpa using hH)

/-! ### Definitions -/

/-- Locks leave a forest hung, and give no new ids. -/
theorem Editing.hung_lockAll (ids : List NodeId) {F : Forest} {next : Nat} (hF : F.Hung next) :
    ((forIn ids PUnit.unit fun id _ => do
        let n ← find id
        insert { n with locked := true }
        return ForInStep.yield PUnit.unit : Editing PUnit).run F).Meets next
      (fun r next' => r.2.Hung next' ∧ F.Keeps r.2 ∧
        (∀ x, F.get? x = none → r.2.get? x = none) ∧ (F.Strays → r.2.Strays) ∧
        (F.Plain → r.2.Plain)) fun _ => True := by
  induction ids generalizing F with
  | nil => exact .pure ⟨hF, .refl F, fun _ => id, id, id⟩
  | cons x ids ih =>
    rw [List.forIn_cons, StateT.run_bind, StateT.run_bind, bind_assoc]
    refine find_bind fun n hn => ?_
    rw [StateT.run_bind, run_insert, pure_bind, StateT.run_pure, pure_bind]
    obtain rfl := Forest.id_of_get? hn
    have hself : F.Extends F 0 next := ⟨fun _ _ => rfl, hF, id⟩
    have hpoints : F.PointsTo n.id n.slots.entries := hF.pointsTo hn
    obtain ⟨hG, hkeeps⟩ := hself.replace (n := { n with locked := true }) hn (Nat.zero_le _) rfl rfl
      rfl (fun hF => (hF.nodes _ n hn).congr rfl rfl rfl) hpoints
    refine (ih hG.hung).imp (fun _ _ _ hr => ⟨hr.1, hkeeps.trans hr.2.1, fun x hx =>
      hr.2.2.1 x ?_, fun h => hr.2.2.2.1 (h.insert fun m hm => ?_),
      fun h => hr.2.2.2.2 (hG.plain h)⟩) fun _ => id
    · rw [Forest.get?_insert_of_ne, hx]
      rintro rfl
      rw [hn] at hx
      cases hx
    · obtain rfl : n = m := Option.some.inj (hn.symm.trans hm)
      exact ⟨rfl, .inr ⟨rfl, rfl⟩⟩

theorem hasRoots_lockDefinition (r : NodeId) {F : Forest} {ts : List Term} {roots : List NodeId}
    {lo next : Nat} (h : F.HasRoots lo next ts roots) :
    ((lockDefinition r).run F).Meets next (fun o next' => o.2.HasRoots lo next' ts roots)
      fun _ => True := by
  rw [lockDefinition, StateT.run_bind]
  refine Editing.find_bind fun n _ => ?_
  dsimp only
  split
  · exact .throw trivial
  rw [StateT.run_bind, StateT.run_get, pure_bind, StateT.run_bind]
  refine Editing.read_bind fun ids _ => ?_
  rw [StateT.run_bind]
  refine (Editing.hung_lockAll ids h.hung).bind ?_
  rintro ⟨_, G⟩ next' hnext ⟨hG, hkeeps, hnone, hstrays, hplain⟩
  exact .pure ⟨Nat.le_trans h.bound hnext, fun x hx => hnone x (h.below x hx), hG,
    fun r hr => hkeeps.isRoot (h.isRoot r hr), h.nodup, h.strays.imp_right hstrays, hplain h.plain⟩

theorem hasRoots_lockDefinitions (ids : List NodeId) {F : Forest} {ts : List Term}
    {roots : List NodeId} {lo next : Nat} (h : F.HasRoots lo next ts roots) :
    ((ids.forM lockDefinition).run F).Meets next (fun o next' => o.2.HasRoots lo next' ts roots)
      fun _ => True := by
  induction ids generalizing F next with
  | nil => exact .pure h
  | cons r ids ih =>
    rw [List.forM_eq_forM, List.forM_cons, StateT.run_bind, ← List.forM_eq_forM]
    refine (hasRoots_lockDefinition r h).bind ?_
    rintro ⟨_, G⟩ next' - hG
    exact ih hG

/-! ### Levels -/

/-- A level that loads starts in a hung state of new ids, with a stray node if a reference in it
names a parameter twice. -/
theorem Level.hung_load (l : Level) (S : Signature) (index : Nat) (next : Nat) :
    (l.load S index).Meets next
      (fun s next' => s.Hung next' ∧ (∀ x : Nat, x < next → s.nodes.get? x = none) ∧
        ((∀ t ∈ l.terms, t.NamesOnce) ∨ s.nodes.Strays))
      fun _ => True := by
  rw [load_eq]
  refine Meets.bind (Q := fun r next' => r.1.Hung next' ∧ (∀ x : Nat, x < next →
    r.1.nodes.get? x = none) ∧ ((∀ t ∈ l.terms, t.NamesOnce) ∨ r.1.nodes.Strays)) ?_
    fun _ _ _ h => .pure h
  have hempty : (∅ : Forest).HasRoots next next [] [] := by
    refine ⟨Nat.le_refl next, fun _ _ => Forest.get?_empty _,
      ⟨fun x n hx => ?_, fun x n hx => ?_, fun x n _ _ hx => ?_⟩, nofun, .nil, .inl nofun,
      Forest.plain_empty⟩ <;> simp at hx
  rw [build, StateT.run_bind]
  refine (Term.hasRoots_loadAll S l.board hempty).bind ?_
  rintro ⟨board, F⟩ n₁ - hF
  rw [StateT.run_bind]
  refine (Term.hasRoots_loadAll S l.toolbox hF).bind ?_
  rintro ⟨toolbox, G⟩ n₂ - hG
  rw [StateT.run_bind]
  refine (Term.hasRoots_loadAll S l.goal hG).bind ?_
  rintro ⟨goal, H⟩ n₃ - hH
  rw [StateT.run_bind]
  refine (Term.hasRoots_loadAll S l.defs hH).bind ?_
  rintro ⟨defs, I⟩ n₄ - hI
  rw [StateT.run_bind]
  refine (hasRoots_lockDefinitions defs hI).bind ?_
  rintro ⟨_, J⟩ next' - hJ
  refine .pure ?_
  have hperm : (board ++ toolbox ++ defs ++ goal).Perm ([] ++ board ++ toolbox ++ goal ++ defs) := by
    rw [List.nil_append, List.append_assoc _ goal, List.append_assoc _ defs]
    exact List.perm_append_comm.append_left _
  refine ⟨⟨hJ.hung, fun r hr => hJ.lt (hperm.mem_iff.1 hr), fun r hr n hn => ?_,
    hperm.nodup_iff.2 hJ.nodup, hJ.plain⟩, hJ.below, hJ.strays⟩
  obtain ⟨m, hm, hp⟩ := hJ.isRoot r (hperm.mem_iff.1 hr)
  exact Option.some.inj (hm.symm.trans hn) ▸ hp

theorem LevelFile.hung_load (L : LevelFile) (S : Signature) (index : Nat) (next : Nat) :
    (L.load S index).Meets next
      (fun s next' => s.Hung next' ∧ ∀ x : Nat, x < next → s.nodes.get? x = none)
      fun _ => True := by
  unfold LevelFile.load
  split
  · exact (Level.hung_load ..).imp (fun _ _ _ h => ⟨h.1, h.2.1⟩) fun _ => id
  · exact .throw trivial

end TermForest
