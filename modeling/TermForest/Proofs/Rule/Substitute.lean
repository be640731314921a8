import TermForest.Proofs.Forest.Relabel
import TermForest.Proofs.Nameless
import TermForest.Proofs.Rule.Edits

/-!
# Substitution sprouts

Applying a lambda to an argument sprouts a plant: a copy of the body, in which the binders that would
catch a free name of the argument bind new names, and copies of the argument stand for the variable.
-/

namespace TermForest

open Supply (Meets)

/-! ### Names in plants -/

namespace Plant

variable {t : Plant} {next : Nat}

@[simp] theorem name?_shape (t : Plant) : t.shape.name? = t.root.name? := by
  rw [Shape.name?, fields_shape]
  rfl

/-- A lambda has two parts, its binder and its body. -/
theorem exists_parts_of_lambda (hf : t.root.Formed next) (hk : t.root.kind = .lambda)
    (hc : t.root.slots.children = t.parts.map id) :
    ∃ v w, t.parts = [v, w] ∧ t.root.slots.get? "arg" = some v.id ∧
      t.root.slots.get? "body" = some w.id := by
  have hnames : t.root.slots.names = ["arg", "body"] := by
    rw [hf.slots (by simp [hk]), Node.declaredSlots, hk]
  have hlen : t.parts.length = 2 := by
    rw [← List.length_map (f := id), ← hc, Slots.length_children, ← Slots.length_names, hnames]
    rfl
  obtain ⟨v, w, hparts⟩ := List.length_eq_two.1 hlen
  rw [hparts] at hc
  exact ⟨v, w, hparts, Slots.get?_of_getElem? (i := 0) (by rw [hnames]; rfl) (by rw [hc]; rfl),
    Slots.get?_of_getElem? (i := 1) (by rw [hnames]; rfl) (by rw [hc]; rfl)⟩

/-- A node without slots has no parts. -/
theorem parts_eq_nil (hf : t.root.Formed next) (hs : t.root.declaredSlots = [])
    (hk : t.root.kind ≠ .array) (hc : t.root.slots.children = t.parts.map id) : t.parts = [] := by
  have hnames := hf.slots hk
  rw [hs] at hnames
  rw [← List.map_eq_nil_iff (f := id), ← hc, ← List.length_eq_zero_iff, Slots.length_children,
    ← Slots.length_names, hnames]
  rfl

theorem bound?_shape_lambda {root : Node} {v w : Plant} (hk : root.kind = .lambda) :
    (mk root [v, w]).shape.bound? = v.root.name? := by
  simp [Shape.bound?, hk]

theorem bound?_shape_of_parts {v w : Plant} (hk : t.root.kind = .lambda) (hp : t.parts = [v, w]) :
    t.shape.bound? = v.root.name? := by
  obtain ⟨root, _⟩ := t
  subst hp
  exact bound?_shape_lambda hk

/-- A plant that binds a name is a lambda with a binder and a body. -/
theorem exists_parts_of_bound? (hf : t.root.Formed next)
    (hc : t.root.slots.children = t.parts.map id) {y : String} (hb : t.shape.bound? = some y) :
    t.root.kind = .lambda ∧ ∃ v w, t.parts = [v, w] ∧ v.root.name? = some y := by
  have hk : t.root.kind = .lambda := by
    by_contra hk
    simp [Shape.bound?, hk] at hb
  obtain ⟨v, w, hp, -⟩ := exists_parts_of_lambda hf hk hc
  rw [bound?_shape_of_parts hk hp] at hb
  exact ⟨hk, v, w, hp, hb⟩

end Plant

theorem Forest.Holds.boundName?_eq {F : Forest} {t : Plant} {next : Nat} (h : F.Holds t)
    (hf : t.Formed next) : F.boundName? t.root = t.shape.bound? := by
  unfold Forest.boundName?
  split
  · next hk =>
    obtain ⟨v, w, hp, harg, -⟩ := Plant.exists_parts_of_lambda hf.root hk h.children
    have hv : v ∈ t.parts := by simp [hp]
    rw [Plant.bound?_shape_of_parts hk hp, Forest.peek, harg, Option.bind_some,
      (h.of_mem_subs (Plant.mem_subs_of_mem_parts hv)).get?_id, Option.bind_some]
  · next hk => simp [Shape.bound?, hk]

/-- The names at the binders and variables of a plant are found. -/
theorem Forest.Holds.variableNames {F : Forest} {t : Plant} (h : F.Holds t) (hn : t.ids.Nodup) :
    F.variableNames t.id = .ok t.shape.spelled := by
  have hspelled : (t.nodes.filter fun n => n.kind = .binder ∨ n.kind = .var).filterMap Node.name? =
      t.shape.spelled := by
    clear h hn
    induction t using Plant.induct with
    | step root parts ih =>
      rw [Plant.nodes_mk, List.filter_append, List.filterMap_append, Plant.shape_mk,
        Shape.spelled_mk, List.flatMap_map, List.filter_flatMap, List.filterMap_flatMap,
        List.flatMap_def, List.flatMap_def, List.map_congr_left ih]
      congr 1
      by_cases hk : root.kind = .binder ∨ root.kind = .var
      · rw [if_pos hk, List.filter_cons_of_pos (by simpa using hk)]
        show List.filterMap Node.name? [root] = root.name?.toList
        cases hname : root.name? <;> simp [hname]
      · rw [if_neg hk, List.filter_cons_of_neg (by simpa using hk)]
        rfl
  rw [Forest.variableNames, h.findAll hn, ← hspelled]
  rfl

/-- The free names of some plants are found one after the other. -/
theorem Tree.exists_foldlM_freeOnto {below : NodeId → Tree} {ps : List Plant} {bound : List String}
    (h : ∀ p ∈ ps, ∀ found, ∃ names, (below p.id).freeOnto bound found = .ok names ∧
      ∀ y, y ∈ names ↔ y ∈ found ∨ y ∈ p.shape.free ∧ y ∉ bound) (found : List String) :
    ∃ names, (ps.map Plant.id).foldlM
        (fun found child => (below child).freeOnto bound found) found = .ok names ∧
      ∀ y, y ∈ names ↔ y ∈ found ∨ (∃ p ∈ ps, y ∈ p.shape.free) ∧ y ∉ bound := by
  induction ps generalizing found with
  | nil => exact ⟨found, rfl, by simp⟩
  | cons p ps ih =>
    obtain ⟨names, hnames, hmem⟩ := h p List.mem_cons_self found
    obtain ⟨names', hnames', hmem'⟩ := ih (fun q hq => h q (List.mem_cons_of_mem _ hq)) names
    refine ⟨names', ?_, fun y => ?_⟩
    · rw [List.map_cons, List.foldlM_cons, hnames, ok_bind, hnames']
    · rw [hmem', hmem]
      simp only [List.exists_mem_cons_iff]
      tauto

/-- The free names of a plant are found, beside those that were found before. -/
theorem Tree.Shows.exists_freeOnto {T : Tree} {t : Plant} {next : Nat} (h : T.Shows t)
    (ht : t.Formed next) (bound found : List String) :
    ∃ names, T.freeOnto bound found = .ok names ∧
      ∀ y, y ∈ names ↔ y ∈ found ∨ y ∈ t.shape.free ∧ y ∉ bound := by
  induction h generalizing bound found with
  | @node root below parts children shown ih =>
    obtain ⟨hroot, hparts⟩ := Plant.formed_mk_iff.1 ht
    rw [Tree.freeOnto]
    split
    · next hk =>
      obtain ⟨name, hname, hneed⟩ := hroot.exists_name (by rw [hk]; decide)
      obtain rfl : parts = [] := Plant.parts_eq_nil (t := .mk root parts) hroot
        (show root.declaredSlots = [] by rw [Node.declaredSlots, hk]) (by simp [hk]) children
      have hfree : ∀ y, y ∈ (Plant.mk root []).shape.free ↔ y = name := by
        intro y
        have hvar : (Plant.mk root []).shape.var? = some name := by
          simp [Shape.var?, hk, hname]
        rw [Plant.shape_mk, Shape.mem_free_other (by simp [hk]), ← Plant.shape_mk, hvar]
        simp [eq_comm]
      rw [hneed, ok_bind]
      refine ⟨_, rfl, fun y => ?_⟩
      rw [hfree]
      split
      · next hb => grind
      · next hb => grind
    · next hk =>
      obtain ⟨v, w, rfl, harg, hbody⟩ :=
        Plant.exists_parts_of_lambda (t := .mk root parts) hroot hk children
      have hneed : root.needSlot "arg" = .ok v.id := Node.needSlot_eq_ok_iff.2 harg
      have hneed' : root.needSlot "body" = .ok w.id := Node.needSlot_eq_ok_iff.2 hbody
      obtain ⟨names, hnames, hmem⟩ := ih w (by simp) (hparts w (by simp)) (v.root.name?.toList ++ bound) found
      rw [hneed, ok_bind, (shown v (by simp)).root?]
      dsimp only
      rw [hneed', ok_bind]
      refine ⟨names, hnames, fun y => ?_⟩
      rw [hmem, Plant.shape_mk, hk, List.map_cons, List.map_cons, List.map_nil, Shape.mem_free_lambda]
      simp [and_assoc, and_comm]
    · next hvar hlambda =>
      obtain ⟨names, hnames, hmem⟩ := Tree.exists_foldlM_freeOnto
        (fun p hp => ih p hp (hparts p hp) bound) found
      refine ⟨names, by rw [children, hnames], fun y => ?_⟩
      have hne : root.kind ≠ .var := hvar
      rw [hmem, Plant.shape_mk, Shape.mem_free_other hlambda]
      simp [hne]

theorem Forest.Holds.exists_freeVariables {F : Forest} {t : Plant} {next : Nat} (h : F.Holds t)
    (hn : t.ids.Nodup) (hf : t.Formed next) :
    ∃ names, F.freeVariables t.id = .ok names ∧ ∀ y, y ∈ names ↔ y ∈ t.shape.free := by
  obtain ⟨names, hnames, hmem⟩ := (h.tree_shows hn).exists_freeOnto hf [] []
  exact ⟨names, hnames, fun y => by simp [hmem]⟩

/-! ### Setting names -/

/-- A variable of the old name takes the new one. -/
def Node.renameVar (old new : String) (n : Node) : Node :=
  if n.kind = .var ∧ n.name? = some old then n.withField "name" (.text new) else n

theorem Node.relabels_renameVar (old new : String) (n : Node) : n.Relabels (n.renameVar old new) := by
  unfold renameVar
  split
  · exact n.relabels_withName new
  · exact .inl rfl

namespace Plant

/-- Sets the new name at the free occurrences of the old one in a plant. -/
def respelling (old new : String) (t : Plant) : Node → Node :=
  t.relabelling (fun v => v.bound? ≠ some old) (Node.renameVar old new)

/-- Sets the new name at the binder `v` of a lambda and at what it binds in the body `w`. -/
def rebinding (v w : Plant) (old new : String) (n : Node) : Node :=
  if n.id = v.id then n.withField "name" (.text new) else w.respelling old new n

theorem relabels_rebinding (v w : Plant) (old new : String) (n : Node) :
    n.Relabels (rebinding v w old new n) := by
  unfold rebinding
  split
  · exact n.relabels_withName new
  · exact relabels_relabelling (Node.relabels_renameVar old new) n

theorem shape_mapNodes_respelling {t : Plant} (hn : t.ids.Nodup) (old new : String) :
    (t.mapNodes (t.respelling old new)).shape = t.shape.editFree old (Shape.withName new) := by
  apply shape_mapNodes_relabelling
  · intro n names parts
    have hiff : (Shape.mk n.kind n.fields names parts).var? = some old ↔
        n.kind = .var ∧ n.name? = some old := by simp [Node.name?, Node.text?, Node.field?]
    unfold Node.renameVar
    rw [if_congr hiff rfl rfl]
    split <;> rfl
  · exact fun n => (n.relabels_renameVar old new).slots_eq
  · exact hn

/-- A lambda of a plant binds the new name instead of the one it bound. -/
inductive Rebinds (new : String) (l : NodeId) (t : Plant) : Plant → Prop
  | mk {s v w : Plant} {old : String} (mem : s ∈ t.subs) (id : s.id = l)
      (kind : s.root.kind = .lambda) (parts : s.parts = [v, w]) (name : v.root.name? = some old) :
      Rebinds new l t (t.mapNodes (rebinding v w old new))

/-- Some lambdas of a plant bind new names, one after the other. None of the names is taken. -/
inductive Freshens : Plant → List NodeId → List String → Plant → Prop
  | nil {taken : List String} {t : Plant} : Freshens t [] taken t
  | cons {l : NodeId} {ls : List NodeId} {taken : List String} {t u v : Plant}
      (first : t.Rebinds (nameOutside taken) l u)
      (rest : Freshens u ls (nameOutside taken :: taken) v) : Freshens t (l :: ls) taken v

/-- A lambda that binds a name still binds one when names have been set. -/
theorem exists_bound?_mapNodes {f : Node → Node} (hf : ∀ n : Node, n.Relabels (f n)) {t : Plant}
    {y : String} (hb : t.shape.bound? = some y) : ∃ y', (t.mapNodes f).shape.bound? = some y' := by
  obtain ⟨hk, hname⟩ := Option.ite_none_right_eq_some.1 hb
  obtain ⟨v, hv, hname⟩ := Option.bind_eq_some_iff.1 hname
  rw [parts_shape, List.head?_map, Option.map_eq_some_iff] at hv
  obtain ⟨p, hp, rfl⟩ := hv
  rw [name?_shape] at hname
  obtain ⟨y', hy'⟩ := (hf p.root).exists_name hname
  have hk' : (t.mapNodes f).shape.kind = .lambda := by
    rw [kind_shape, root_mapNodes, (hf t.root).frame.2.1, ← kind_shape, hk]
  refine ⟨y', ?_⟩
  rw [Shape.bound?, if_pos hk', parts_shape, parts_mapNodes, List.map_map, List.head?_map, hp]
  simpa using hy'

theorem Rebinds.exists_bound? {new y : String} {l : NodeId} {t u s : Plant}
    (h : t.Rebinds new l u) (hs : s ∈ t.subs) (hb : s.shape.bound? = some y) :
    ∃ s' ∈ u.subs, s'.id = s.id ∧ ∃ y', s'.shape.bound? = some y' := by
  cases h with
  | @mk _ v w old =>
    have hrelabels := relabels_rebinding v w old new
    refine ⟨s.mapNodes (rebinding v w old new), ?_, id_mapNodes (hrelabels s.root).id_eq,
      exists_bound?_mapNodes hrelabels hb⟩
    rw [subs_mapNodes]
    exact List.mem_map_of_mem hs

theorem Rebinds.id_eq {new : String} {l : NodeId} {t u : Plant} (h : t.Rebinds new l u) :
    u.id = t.id := by
  cases h with
  | mk => exact id_mapNodes (relabels_rebinding _ _ _ _ _).id_eq

theorem Freshens.id_eq {ls : List NodeId} {taken : List String} {t u : Plant}
    (h : t.Freshens ls taken u) : u.id = t.id := by
  induction h with
  | nil => rfl
  | cons first _ ih => exact ih.trans first.id_eq

/-- The lambdas in a plant that bind a name of some sort. -/
def binding (p : String → Bool) (t : Plant) : List NodeId :=
  (t.subs.filter fun s => s.shape.bound?.any p).map id

/-- A body `b` with an argument `a` in place of the variable `x`: in a copy `t` of the body the lambdas
that would catch a free name of the argument bind new names, which gives `t'`, and the shape of `u` is
that of `t'` with the argument at the free occurrences of the variable. -/
structure Applied (x : String) (b a : Plant) (lo hi : Nat) (t t' u : Plant) : Prop where
  grown : t.Grown lo hi
  copy : t.shape = b.shape
  fresh : t.Freshens (t.binding fun y => y ≠ x ∧ y ∈ a.shape.free)
    (x :: t.shape.spelled ++ a.shape.spelled) t'
  shape : u.shape = t'.shape.editFree x fun _ => a.shape

end Plant

namespace Editing

variable {F G H : Forest} {lo next : Nat} {t u s v w : Plant}

theorem exists_shadowing (ht : G.Holds t) (hn : t.ids.Nodup) (hf : t.Formed next) (name : String) :
    ∃ ids, G.shadowing t.id name = .ok ids ∧ ∀ v ∈ t.subs, v.id ∈ ids ↔ v.shape.bound? = some name := by
  refine ⟨_, by rw [Forest.shadowing, ht.findAll hn]; rfl, fun v hv => ?_⟩
  have hbound := (ht.of_mem_subs hv).boundName?_eq (hf.of_mem_subs hv)
  rw [List.mem_map]
  constructor
  · rintro ⟨n, hmem, hid⟩
    obtain ⟨hnode, hname⟩ := List.mem_filter.1 hmem
    obtain rfl : v.root = n := by
      have hget := ht.get?_of_mem_nodes hnode
      rw [hid, (ht.of_mem_subs hv).get?_id, Option.some.injEq] at hget
      exact hget
    rw [← hbound]
    simpa using hname
  · intro hname
    refine ⟨v.root, List.mem_filter.2 ⟨Plant.nodes_subset_of_mem_subs hv v.root_mem_nodes, ?_⟩, rfl⟩
    rw [hbound]
    simpa using hname

/-- What is hidden by the lambdas that bind a name is not entered. -/
theorem entered_eq {ids : List NodeId} {name : String}
    (h : ∀ v ∈ t.subs, v.id ∈ ids ↔ v.shape.bound? = some name) :
    ∀ v ∈ t.subs, decide (v.root.id ∉ Std.ExtTreeSet.ofList ids) =
      decide (v.shape.bound? ≠ some name) := by
  intro v hv
  rw [decide_eq_decide, Std.ExtTreeSet.mem_ofList, List.contains_iff_mem, Plant.id_root, h v hv]

/-- Setting a name on the occurrences of a variable leaves the plant where it is. -/
theorem exists_run_renameOccurrences (ht : H.Holds t) (hn : t.ids.Nodup) (hj : t.Joined)
    (hf : t.Formed next) (old new : String) :
    ∃ H', (editOccurrences t.id old fun n => return n.withField "name" (.text new)).run H =
        pure (t.id, H') ∧ (∀ x, x ∉ t.ids → H'.get? x = H.get? x) ∧
      ∀ x n, H.get? x = some n → H'.get? x = some (t.respelling old new n) := by
  obtain ⟨hidden, hhidden, hmem⟩ := exists_shadowing ht hn hf old
  let r : Revision := {
    entered := fun n => n.id ∉ Std.ExtTreeSet.ofList hidden
    edit := fun n =>
      if n.kind = .var ∧ n.name? = some old then return n.withField "name" (.text new)
      else return n }
  have hedit : ∀ n, r.edit n = pure (n.renameVar old new) := by
    intro n
    by_cases h : n.kind = .var ∧ n.name? = some old
    · simp only [r, Node.renameVar, if_pos h]
    · simp only [r, Node.renameVar, if_neg h]
  obtain ⟨H', edited, hrun, hH'⟩ : ∃ H' edited, (r.run t.id).run H = pure (⟨t.id, edited⟩, H') ∧
      Revision.ChangesAt (Node.renameVar old new) (t.reached fun v => v.bound? ≠ some old) H H' :=
    Revision.exists_run_run hedit (Node.relabels_renameVar old new) (entered_eq hmem) ht hn hj
  refine ⟨H', ?_, fun x hx => ?_, fun x n hget => ?_⟩
  · simp only [editOccurrences, StateT.run_bind, StateT.run_get, pure_bind, run_liftM_ok hhidden,
      StateT.run_pure]
    change (r.run t.id).run H >>= _ = _
    rw [hrun, pure_bind]
  · rw [hH', if_neg fun hmem => hx (Plant.reached_subset _ t hmem)]
  · rw [hH', hget, Plant.respelling, Plant.relabelling, Forest.id_of_get? hget]
    split <;> rfl

/-- Renaming a lambda of a plant that sprouts makes it bind the new name. -/
theorem exists_run_renameLambda (ht : F.Sprouts H lo next t) (hs : s ∈ t.subs)
    {old : String} (hb : s.shape.bound? = some old) (new : String) :
    ∃ H' u, (renameLambda s.id new).run H = pure ((), H') ∧ F.Sprouts H' lo next u ∧
      t.Rebinds new s.id u := by
  have hheld := ht.held.of_mem_subs hs
  have hgrown := ht.grown.of_mem_subs hs
  obtain ⟨hk, v, w, hparts, hname⟩ :=
    Plant.exists_parts_of_bound? hgrown.formed.root hheld.children hb
  obtain ⟨v', w', hparts', harg, hbody⟩ :=
    Plant.exists_parts_of_lambda hgrown.formed.root hk hheld.children
  obtain ⟨rfl, rfl⟩ : v = v' ∧ w = w' := by simpa [hparts] using hparts'
  have hv : v ∈ s.subs := Plant.mem_subs_of_mem_parts (by simp [hparts])
  have hw : w ∈ s.subs := Plant.mem_subs_of_mem_parts (by simp [hparts])
  have hneed : v.root.needText "name" = .ok old := Node.needText_eq_ok_iff.2 hname
  have hwgrown := hgrown.of_mem_subs hw
  obtain ⟨H', hrun, hsame, hnodes⟩ := exists_run_renameOccurrences (hheld.of_mem_subs hw)
    hwgrown.nodup hwgrown.joined hwgrown.formed old new
  refine ⟨H'.insert (v.root.withField "name" (.text new)), _, ?_, ht.mapNodes ?_ ?_ ?_,
    .mk hs rfl hk hparts hname⟩
  · simp only [renameLambda, StateT.run_bind, run_find hheld.get?_id, pure_bind,
      run_liftM_ok (Node.needSlot_eq_ok_iff.2 harg), run_find (hheld.of_mem_subs hv).get?_id,
      run_liftM_ok hneed, run_liftM_ok (Node.needSlot_eq_ok_iff.2 hbody), hrun, run_insert]
  · intro n hn
    have hget := ht.held.get?_of_mem_nodes hn
    rw [Forest.get?_insert, Plant.rebinding, Node.id_withField, Plant.id_root]
    by_cases hid : n.id = v.id
    · have hvn : v.root = n := by
        rw [hid, (hheld.of_mem_subs hv).get?_id, Option.some.injEq] at hget
        exact hget
      rw [if_pos hid, if_pos hid.symm, hvn]
    · rw [if_neg hid, if_neg (Ne.symm hid), hnodes _ n hget]
  · intro x hx
    rw [Forest.get?_insert, if_neg, hsame]
    · exact fun hmem => hx (Plant.ids_subset_of_mem_subs (Plant.mem_subs_trans hw hs) hmem)
    · rintro rfl
      exact hx (Plant.ids_subset_of_mem_subs (Plant.mem_subs_trans hv hs) v.id_mem_ids)
  · exact fun n _ => Plant.relabels_rebinding v w old new n

/-- Renaming binders of a plant that sprouts, one after the other, leaves a plant that sprouts. -/
theorem exists_run_rebind (lambdas : List Node) (taken : List String) (ht : F.Sprouts H lo next t)
    (hl : ∀ n ∈ lambdas, ∃ s ∈ t.subs, s.id = n.id ∧ ∃ y, s.shape.bound? = some y) :
    ∃ taken' H' u, (lambdas.foldlM (fun taken lambda => do
        let replacement := nameOutside taken
        renameLambda lambda.id replacement
        return replacement :: taken) taken : Editing (List String)).run H = pure (taken', H') ∧
      F.Sprouts H' lo next u ∧ t.Freshens (lambdas.map Node.id) taken u := by
  induction lambdas generalizing taken H t with
  | nil => exact ⟨taken, H, t, rfl, ht, .nil⟩
  | cons n lambdas ih =>
    obtain ⟨s, hs, hid, y, hy⟩ := hl n List.mem_cons_self
    obtain ⟨H', u, hrun, hu, hrebinds⟩ := exists_run_renameLambda ht hs hy (nameOutside taken)
    have hl' : ∀ n ∈ lambdas, ∃ s ∈ u.subs, s.id = n.id ∧ ∃ y, s.shape.bound? = some y := by
      intro n hn
      obtain ⟨s, hs, hid, y, hy⟩ := hl n (List.mem_cons_of_mem _ hn)
      obtain ⟨s', hs', hid', hy'⟩ := hrebinds.exists_bound? hs hy
      exact ⟨s', hs', hid'.trans hid, hy'⟩
    obtain ⟨taken', H'', u', hrun', hu', hfreshens⟩ := ih (nameOutside taken :: taken) hu hl'
    refine ⟨taken', H'', u', ?_, hu', .cons (hid ▸ hrebinds) hfreshens⟩
    simp only [List.foldlM_cons, StateT.run_bind, ← hid, hrun, pure_bind, StateT.run_pure, hrun']

/-- Renaming the binders of a plant that sprouts leaves a plant that sprouts. -/
theorem meets_freshenBinders (ht : F.Sprouts G lo next t) (name : String)
    (free taken : List String) :
    ((freshenBinders t.id name free taken).run G).Meets next
      (fun o next' => next' = next ∧ ∃ u : Plant, F.Sprouts o.2 lo next u ∧ u.id = t.id ∧
        t.Freshens (t.binding fun y => y ≠ name ∧ y ∈ free) (name :: t.shape.spelled ++ taken) u)
      fun _ => False := by
  have hn := ht.grown.nodup
  have hcapturing : (t.nodes.filter fun n =>
      (G.boundName? n).any fun bound => bound ≠ name ∧ bound ∈ free) =
        (t.subs.filter fun s => s.shape.bound?.any fun y => y ≠ name ∧ y ∈ free).map Plant.root := by
    rw [Plant.nodes, List.filter_map]
    congr 1
    apply List.filter_congr
    intro s hs
    rw [Function.comp_apply, (ht.held.of_mem_subs hs).boundName?_eq (ht.grown.formed.of_mem_subs hs)]
  have hl : ∀ n ∈ (t.subs.filter fun s => s.shape.bound?.any fun y => y ≠ name ∧ y ∈ free).map
      Plant.root, ∃ s ∈ t.subs, s.id = n.id ∧ ∃ y, s.shape.bound? = some y := by
    intro n hn
    obtain ⟨s, hs, rfl⟩ := List.mem_map.1 hn
    obtain ⟨hs, hany⟩ := List.mem_filter.1 hs
    obtain ⟨y, hy, -⟩ := (Option.any_eq_true _ _).1 hany
    exact ⟨s, hs, rfl, y, hy⟩
  obtain ⟨taken', H, u, hrun, hu, hfreshens⟩ :=
    exists_run_rebind _ (name :: t.shape.spelled ++ taken) ht hl
  simp only [freshenBinders, StateT.run_bind, StateT.run_get, pure_bind,
    run_liftM_ok (ht.held.variableNames hn), run_liftM_ok (ht.held.findAll hn _), hcapturing]
  rw [hrun]
  rw [List.map_map] at hfreshens
  exact .pure ⟨rfl, u, hu, hfreshens.id_eq, hfreshens⟩

/-! ### Substituting -/

/-- Putting copies of a plant at the occurrences of a variable leaves a plant that sprouts. -/
theorem meets_substitute (ht : F.Sprouts G lo next t) (hlo : lo ≤ next) {a : Plant}
    (ha : F.Holds a) (hn : a.ids.Nodup) (hlt : ∀ x : Nat, x ∈ a.ids → x < lo) (hf : a.Formed lo)
    (name : String) :
    ((editOccurrences t.id name fun _ => copy a.id).run G).Meets next
      (fun o next' => ∃ u : Plant, o.1 = u.id ∧ F.Sprouts o.2 lo next' u ∧
        u.shape = t.shape.editFree name fun _ => a.shape)
      fun _ => False := by
  obtain ⟨hidden, hhidden, hmem⟩ := exists_shadowing ht.held ht.grown.nodup ht.grown.formed name
  have hedit : ({
      entered := fun n => n.id ∉ Std.ExtTreeSet.ofList hidden
      edit := fun n => if n.kind = .var ∧ n.name? = some name then copy a.id else return n
      } : Revision).Sprouting F lo fun t => if t.var? = some name then a.shape else t := by
    intro n G next hlo hG
    dsimp only
    have hvar : ∀ names parts, (Shape.mk n.kind n.fields names parts).var? = some name ↔
        n.kind = .var ∧ n.name? = some name := by simp [Node.name?, Node.text?, Node.field?]
    split
    · next hname =>
      have hheld : G.Holds a := ha.congr fun x hx => hG x (hlt x hx)
      refine (meets_copy hheld hn (hf.mono hlo)).imp (fun o _ _ h => .inr ?_) fun _ => id
      obtain ⟨u, hroot, hu, hshape⟩ := h
      exact ⟨u, hroot, hu, fun names parts => by rw [if_pos ((hvar _ _).2 hname), hshape]⟩
    · next hname =>
      exact .pure (.inl ⟨rfl, fun names parts => if_neg (mt (hvar _ _).1 hname)⟩)
  simp only [editOccurrences, StateT.run_bind, StateT.run_get, pure_bind, run_liftM_ok hhidden]
  exact (Revision.meets_run hedit (entered_eq hmem) ht hlo).bind fun o next' _ h => .pure h

/-- Once the lambdas that would catch a free name of the argument bind new names, putting copies of the
argument at the occurrences of the variable applies the body. -/
theorem meets_substitute_applied {b a : Plant} {x : String} {t' : Plant} (hlo : lo ≤ next)
    (ha : F.Holds a) (hn : a.ids.Nodup) (hlt : ∀ x : Nat, x ∈ a.ids → x < lo) (hf : a.Formed lo)
    (hgrown : t.Grown lo next) (hcopy : t.shape = b.shape)
    (hfresh : t.Freshens (t.binding fun y => y ≠ x ∧ y ∈ a.shape.free)
      (x :: t.shape.spelled ++ a.shape.spelled) t') (ht' : F.Sprouts H lo next t') :
    ((editOccurrences t'.id x fun _ => copy a.id).run H).Meets next
      (fun o next' => ∃ u : Plant, o.1 = u.id ∧ F.Sprouts o.2 lo next' u ∧
        ∃ t t', b.Applied x a lo next' t t' u)
      fun _ => False := by
  refine (meets_substitute ht' hlo ha hn hlt hf x).imp ?_ fun _ => id
  rintro ⟨_, I⟩ next' hle ⟨u, rfl, hu, hshape⟩
  exact ⟨u, rfl, hu, t, t', hgrown.mono (Nat.le_refl _) hle, hcopy, hfresh, hshape⟩

/-- Applying a lambda that binds a name sprouts the body with the argument in place of the variable. -/
theorem meets_applyLambda (hF : F.Stocked lo) {l b a : Plant} (hl : F.Holds l)
    (hk : l.root.kind = .lambda) {x : String} (hx : l.shape.bound? = some x)
    (hslot : l.root.slots.get? "body" = some b.id) (hb : F.Holds b) (ha : F.Holds a) :
    ((applyLambda l.root a.id).run F).Meets lo
      (fun o next' => ∃ u : Plant, o.1 = u.id ∧ F.Sprouts o.2 lo next' u ∧
        ∃ t t', b.Applied x a lo next' t t' u)
      fun _ => False := by
  obtain ⟨-, -, hlf⟩ := hF.of_holds hl
  obtain ⟨v, w, hparts, harg, -⟩ := Plant.exists_parts_of_lambda hlf.root hk hl.children
  obtain ⟨han, halt, haf⟩ := hF.of_holds ha
  have hv : F.Holds v := hl.of_mem_subs (Plant.mem_subs_of_mem_parts (by simp [hparts]))
  have hname : v.root.needText "name" = .ok x := by
    rw [Node.needText_eq_ok_iff, ← hx, Plant.bound?_shape_of_parts hk hparts]
    rfl
  obtain ⟨free, hfree, hmem⟩ := ha.exists_freeVariables han haf
  simp only [applyLambda, StateT.run_bind, StateT.run_get, pure_bind,
    run_liftM_ok (Node.needSlot_eq_ok_iff.2 harg), run_find hv.get?_id, run_liftM_ok hname,
    run_liftM_ok (Node.needSlot_eq_ok_iff.2 hslot)]
  refine Meets.bind (meets_copyOf_of_holds hF (fun _ _ => rfl) (Nat.le_refl _) hb) ?_
  rintro ⟨_, G⟩ next hnext ⟨t, rfl, ht, hshape⟩
  simp only [run_liftM_ok hfree, pure_bind]
  have hbinding : (t.binding fun y => y ≠ x ∧ y ∈ free) =
      t.binding fun y => y ≠ x ∧ y ∈ a.shape.free := by simp only [hmem]
  split
  · simp only [StateT.run_bind, run_liftM_ok (ha.variableNames han), pure_bind]
    refine Meets.bind (meets_freshenBinders ht x free a.shape.spelled) ?_
    rintro ⟨_, H⟩ _ - ⟨rfl, t', ht', hid, hfresh⟩
    rw [← hid]
    exact meets_substitute_applied hnext ha han halt haf ht.grown hshape (hbinding ▸ hfresh) ht'
  · next hnil =>
    -- without free names no lambda binds one
    have hnone : (t.binding fun y => y ≠ x ∧ y ∈ free) = [] := by
      rw [not_not.1 hnil]
      simp [Plant.binding]
    apply meets_substitute_applied hnext ha han halt haf ht.grown hshape _ ht
    rw [← hbinding, hnone]
    exact .nil

/-- Applying a lambda sprouts a plant, unless there is no binder in its slot. -/
theorem meets_applyLambda_of_stocked (hF : F.Stocked lo) {id : NodeId} {lambda : Node}
    (hl : F.get? id = some lambda) (hk : lambda.kind = .lambda) {argument : NodeId} {n : Node}
    (hn : F.get? argument = some n) :
    ((applyLambda lambda argument).run F).Meets lo
      (fun o next' => ∃ u : Plant, o.1 = u.id ∧ F.Sprouts o.2 lo next' u)
      fun _ => ∀ arg binder, lambda.slots.get? "arg" = some arg → F.get? arg = some binder →
        binder.kind ≠ .binder := by
  obtain ⟨l, rfl, hheld, -, -, hf⟩ := hF id lambda hl
  obtain ⟨a, rfl, ha, -⟩ := hF argument n hn
  obtain rfl : a.id = argument := Forest.id_of_get? hn
  obtain ⟨v, b, hparts, harg, hbody⟩ := Plant.exists_parts_of_lambda hf.root hk hheld.children
  have hv : F.Holds v := hheld.of_mem_subs (Plant.mem_subs_of_mem_parts (by simp [hparts]))
  have hb : F.Holds b := hheld.of_mem_subs (Plant.mem_subs_of_mem_parts (by simp [hparts]))
  cases hx : l.shape.bound? with
  | some x =>
    exact (meets_applyLambda hF hheld hk hx hbody hb ha).imp
      (fun _ _ _ ⟨u, hid, hu, _⟩ => ⟨u, hid, hu⟩) fun _ => False.elim
  | none =>
    rw [Plant.bound?_shape_of_parts hk hparts] at hx
    simp only [applyLambda, StateT.run_bind, StateT.run_get, pure_bind,
      run_liftM_ok (Node.needSlot_eq_ok_iff.2 harg), run_find hv.get?_id]
    refine Meets.bind (Q := fun _ _ => False) (meets_lift ?_ ?_) fun _ _ _ => False.elim
    · intro x hname
      rw [Node.needText_eq_ok_iff] at hname
      exact Option.some_ne_none x (hname.symm.trans hx)
    · intro _ _ arg binder harg' hbinder hkind
      obtain rfl : arg = v.id := Option.some.inj (harg'.symm.trans harg)
      rw [hv.get?_id, Option.some.injEq] at hbinder
      subst hbinder
      obtain ⟨s, hs, -⟩ := (hF.formed hv.get?_id).exists_name (by rw [hkind]; decide)
      exact Option.some_ne_none s (hs.symm.trans hx)

end Editing

end TermForest
