import TermForest.Proofs.Rule.Substitute

/-!
# New names for binders

Lambdas of a term that bind new names in place of their own are read as before: each new name is spelled
nowhere in the term. No lambda that was to have a new name is left with its own.
-/

namespace TermForest

/-! ### Unused names -/

theorem candidateName_injective : Function.Injective candidateName := by
  have hsucc : ∀ k, candidateName (k + 1) = "x" ++ Nat.repr (k + 1) := fun _ => rfl
  have hzero : ∀ k, candidateName (k + 1) ≠ "x" := by
    intro k h
    rw [hsucc, String.append_eq_left_iff] at h
    exact Nat.repr_ne_empty h
  intro i j h
  cases i with
  | zero =>
    cases j with
    | zero => rfl
    | succ j => exact absurd h.symm (hzero j)
  | succ i =>
    cases j with
    | zero => exact absurd h (hzero i)
    | succ j =>
      rw [hsucc, hsucc] at h
      exact Nat.repr_injective ((String.append_right_inj _).1 h)

/-- The name that is given out is not taken. -/
theorem nameOutside_notMem (taken : List String) : nameOutside taken ∉ taken := by
  -- there is one more candidate than there are taken names
  have hexists : ∃ k ∈ List.range (taken.length + 1), candidateName k ∉ taken := by
    by_contra! hall
    have hsub : (List.range (taken.length + 1)).map candidateName ⊆ taken := by
      intro y hy
      obtain ⟨k, hk, rfl⟩ := List.mem_map.1 hy
      exact hall k hk
    have hle := ((List.nodup_range.map candidateName_injective).subperm hsub).length_le
    rw [List.length_map, List.length_range] at hle
    exact Nat.not_succ_le_self _ hle
  unfold nameOutside
  dsimp only
  cases hfind : (List.range (taken.length + 1)).find?
      (candidateName · ∉ Std.ExtTreeSet.ofList taken) with
  | none =>
    obtain ⟨k, hk, hnot⟩ := hexists
    have hmem := List.find?_eq_none.1 hfind k hk
    simp [Std.ExtTreeSet.mem_ofList] at hmem
    exact absurd hmem hnot
  | some k =>
    have hnot := List.find?_some hfind
    simpa [Std.ExtTreeSet.mem_ofList] using hnot

/-! ### Terms with other names -/

theorem forall₂_imp_of_mem {α β : Type} {R S : α → β → Prop} {as : List α} {bs : List β}
    (h : List.Forall₂ R as bs) (himp : ∀ a ∈ as, ∀ b, R a b → S a b) : List.Forall₂ S as bs := by
  induction h with
  | nil => exact .nil
  | cons hab _ ih =>
    exact .cons (himp _ List.mem_cons_self _ hab)
      (ih fun a ha => himp a (List.mem_cons_of_mem _ ha))

namespace Shape

/-- The terms are the same, but for names at binders and variables that are new. -/
inductive Respells (new : String → Prop) : Shape → Shape → Prop
  | mk {kind : Kind} {fields fields' : Fields} {names : List String} {parts parts' : List Shape}
      (name : fields' = fields ∨ (kind = .binder ∨ kind = .var) ∧
        ∃ s, new s ∧ fields' = fields.insert "name" (.text s))
      (inside : List.Forall₂ (Respells new) parts parts') :
      Respells new (.mk kind fields names parts) (.mk kind fields' names parts')

namespace Respells

variable {new new' : String → Prop} {t u v : Shape} {y : String}

theorem refl (t : Shape) : t.Respells new t := by
  induction t using induct with
  | step kind fields names parts ih => exact .mk (.inl rfl) (List.forall₂_same.2 ih)

theorem mono (h : t.Respells new u) (hnew : ∀ y, new y → new' y) : t.Respells new' u := by
  induction t using induct generalizing u with
  | step kind fields names parts ih =>
    cases h with
    | mk name inside =>
      exact .mk (name.imp id fun ⟨hk, s, hs, he⟩ => ⟨hk, s, hnew s hs, he⟩)
        (forall₂_imp_of_mem inside fun p hp _ => ih p hp)

theorem trans (h : t.Respells new u) (h' : u.Respells new v) : t.Respells new v := by
  induction t using induct generalizing u v with
  | step kind fields names parts ih =>
    cases h with
    | @mk _ _ fields' _ _ parts' name inside =>
      cases h' with
      | @mk _ _ fields'' _ _ parts'' name' inside' =>
        refine .mk ?_ ?_
        · rcases name' with rfl | ⟨hk, s, hs, rfl⟩
          · exact name
          · refine .inr ⟨hk, s, hs, ?_⟩
            rcases name with rfl | ⟨-, s', -, rfl⟩
            · rfl
            · exact insert_insert ..
        · clear name name'
          induction inside generalizing parts'' with
          | nil =>
            cases inside'
            exact .nil
          | cons hp _ ih' =>
            cases inside' with
            | cons hp' hps' =>
              exact .cons (ih _ List.mem_cons_self hp hp')
                (ih' (fun p hmem => ih p (List.mem_cons_of_mem _ hmem)) hps')

/-- A name that is spelled in the term was spelled in it before or is new. -/
theorem spelled (h : t.Respells new u) (hy : y ∈ u.spelled) : y ∈ t.spelled ∨ new y := by
  induction t using induct generalizing u with
  | step kind fields names parts ih =>
    cases h with
    | @mk _ _ _ _ _ parts' name inside =>
      rw [spelled_mk, List.mem_append, List.mem_flatMap] at hy
      rcases hy with ⟨p', hp', hy⟩ | hy
      · obtain ⟨p, hp, hr⟩ := exists_mem_of_forall₂ (List.Forall₂.flip inside) hp'
        exact (ih p hp hr hy).imp (mem_spelled_of_mem hp) id
      · split at hy
        · next hk =>
          rw [Option.mem_toList] at hy
          rcases name with rfl | ⟨-, s, hs, rfl⟩
          · exact .inl (mem_spelled_self hk hy)
          · have hname : (Shape.mk kind (fields.insert "name" (.text s)) names parts').name? =
                some s := name?_withName (t := .mk kind fields names parts')
            obtain rfl := Option.some.inj (hname.symm.trans hy)
            exact .inr hs
        · cases hy

/-- A binder stays one. -/
theorem isBinder (h : t.Respells new u) (ht : t.IsBinder) : u.IsBinder := by
  cases h with
  | mk name inside =>
    obtain rfl : _ = [] := ht.leaf
    cases inside
    refine ⟨rfl, ht.kind.imp id fun ⟨hk, hname⟩ => ⟨hk, ?_⟩⟩
    rcases name with rfl | ⟨hk', -⟩
    · exact hname
    · rw [kind_mk] at hk
      simp [hk] at hk'

theorem proper (h : t.Respells new u) (ht : t.Proper) : u.Proper := by
  induction ht generalizing u with
  | lambda binder inside ih =>
    cases h with
    | mk name parts =>
      cases parts with
      | cons harg hrest =>
        cases hrest with
        | cons hbody hnil =>
          cases hnil
          exact .lambda (harg.isBinder binder) (ih hbody)
  | other ne inside ih =>
    cases h with
    | mk name parts =>
      refine .other ne fun p' hp' => ?_
      obtain ⟨p, hp, hr⟩ := exists_mem_of_forall₂ (List.Forall₂.flip parts) hp'
      exact ih p hp hr

end Respells

end Shape

namespace Plant

variable {t s v w u p : Plant} {new : String → Prop} {f : Node → Node} {old z y : String}
  {l : NodeId} {lo hi : Nat}

theorem node_eq_of_id_eq (hn : t.ids.Nodup) {m n : Node} (hm : m ∈ t.nodes) (hn' : n ∈ t.nodes)
    (h : m.id = n.id) : m = n :=
  List.inj_on_of_nodup_map (map_id_nodes t ▸ hn) hm hn' h

theorem eq_of_id_eq (hn : t.ids.Nodup) (hs : s ∈ t.subs) (hu : u ∈ t.subs) (h : s.id = u.id) :
    s = u :=
  List.inj_on_of_nodup_map hn hs hu h

/-- Setting new names at binders and variables respells a plant. -/
theorem respells_mapNodes (h : ∀ n ∈ t.nodes, f n = n ∨ (n.kind = .binder ∨ n.kind = .var) ∧
      ∃ s, new s ∧ f n = n.withField "name" (.text s)) :
    t.shape.Respells new (t.mapNodes f).shape := by
  induction t using induct with
  | step root parts ih =>
    have hparts : List.Forall₂ (Shape.Respells new) (parts.map shape)
        ((parts.map (mapNodes f)).map shape) := by
      rw [List.map_map, List.forall₂_map_left_iff, List.forall₂_map_right_iff, List.forall₂_same]
      intro p hp
      have hsub := mem_subs_of_mem_parts (t := mk root parts) hp
      exact ih p hp fun n hn => h n (nodes_subset_of_mem_subs hsub hn)
    rw [mapNodes_mk, shape_mk, shape_mk]
    rcases h root (root_mem_nodes _) with hroot | ⟨hk, s, hs, hroot⟩
    · rw [hroot]
      exact .mk (.inl rfl) hparts
    · rw [hroot]
      exact .mk (.inr ⟨hk, s, hs, rfl⟩) hparts

theorem spelled_subset_of_mem_subs (hs : s ∈ t.subs) (hy : y ∈ s.shape.spelled) :
    y ∈ t.shape.spelled := by
  induction t using induct with
  | step root parts ih =>
    rcases mem_subs_mk.1 hs with rfl | ⟨p, hp, hs⟩
    · exact hy
    · rw [shape_mk]
      exact Shape.mem_spelled_of_mem (List.mem_map_of_mem hp) (ih p hp hs)

/-! ### Plants whose lambdas have binders -/

/-- A plant whose lambdas have binders is a lambda with a binder and a body, or all its parts are such
plants. -/
theorem proper_cases {root : Node} {parts : List Plant} (h : (mk root parts).shape.Proper) :
    (root.kind = .lambda ∧ ∃ v w, parts = [v, w] ∧ v.shape.IsBinder ∧ w.shape.Proper) ∨
      (root.kind ≠ .lambda ∧ ∀ p ∈ parts, p.shape.Proper) := by
  rw [shape_mk] at h
  generalize hk : root.kind = kind at h
  generalize hp : parts.map shape = shapes at h
  cases h with
  | lambda binder inside =>
    obtain ⟨v, rest, rfl, rfl, hrest⟩ := List.map_eq_cons_iff.1 hp
    obtain ⟨w, rest, rfl, rfl, hnil⟩ := List.map_eq_cons_iff.1 hrest
    obtain rfl := List.map_eq_nil_iff.1 hnil
    exact .inl ⟨rfl, v, w, rfl, binder, inside⟩
  | other ne inside =>
    subst hp
    exact .inr ⟨ne, fun p hmem => inside _ (List.mem_map_of_mem hmem)⟩

theorem subs_of_isBinder (h : t.shape.IsBinder) : t.subs = [t] := by
  obtain ⟨root, parts⟩ := t
  have hleaf := h.leaf
  rw [parts_shape, List.map_eq_nil_iff, parts_mk] at hleaf
  rw [hleaf, subs_mk]
  rfl

theorem proper_of_mem_subs (h : t.shape.Proper) (hs : s ∈ t.subs) : s.shape.Proper := by
  induction t using induct with
  | step root parts ih =>
    rcases mem_subs_mk.1 hs with rfl | ⟨p, hp, hs⟩
    · exact h
    · apply ih p hp _ hs
      rcases proper_cases h with ⟨-, v, w, rfl, binder, inside⟩ | ⟨-, inside⟩
      · rcases List.mem_pair.1 hp with rfl | rfl
        · exact binder.proper
        · exact inside
      · exact inside p hp

/-- A name that is bound in the shape of a plant is bound by a lambda in the plant. -/
theorem exists_bound?_of_mem_binders (h : t.shape.Proper) (hy : y ∈ t.shape.binders) :
    ∃ s ∈ t.subs, s.shape.bound? = some y := by
  induction t using induct with
  | step root parts ih =>
    have hsub : ∀ p ∈ parts, ∀ s ∈ p.subs, s ∈ (mk root parts).subs :=
      fun p hp s hs => mem_subs_mk.2 (.inr ⟨p, hp, hs⟩)
    rcases proper_cases h with ⟨hk, v, w, rfl, -, inside⟩ | ⟨ne, inside⟩
    · rw [shape_mk, hk] at hy
      rcases Shape.mem_binders_lambda.1 hy with hname | hy
      · refine ⟨_, mem_subs_self _, ?_⟩
        rw [bound?_shape_lambda hk, ← name?_shape, hname]
      · obtain ⟨s, hs, hb⟩ := ih w (by simp) inside hy
        exact ⟨s, hsub w (by simp) s hs, hb⟩
    · rw [shape_mk, Shape.mem_binders_other ne] at hy
      obtain ⟨_, hmem, hy⟩ := hy
      obtain ⟨p, hp, rfl⟩ := List.mem_map.1 hmem
      obtain ⟨s, hs, hb⟩ := ih p hp (inside p hp) hy
      exact ⟨s, hsub p hp s hs, hb⟩

/-- Changing nodes in a lambda of a plant leaves the reading of the plant as it is when it leaves the
reading of the lambda as it is. -/
theorem read_mapNodes_of_mem_subs (h : t.shape.Proper) (hn : t.ids.Nodup) (hs : s ∈ t.subs)
    (hk : s.root.kind = .lambda) (hf : ∀ n : Node, n.id ∉ s.ids → f n = n)
    (hread : ∀ scope, (s.mapNodes f).shape.read scope = s.shape.read scope)
    (scope : List (Option String)) :
    (t.mapNodes f).shape.read scope = t.shape.read scope := by
  induction t using induct generalizing scope with
  | step root parts ih =>
    rcases mem_subs_mk.1 hs with rfl | ⟨p, hp, hs⟩
    · exact hread scope
    · have hroot : f root = root :=
        hf root fun hmem => ne_id_of_mem_parts hn hp (ids_subset_of_mem_subs hs hmem) rfl
      -- the lambda is in one part alone
      have hother : ∀ q ∈ parts, q ≠ p → q.mapNodes f = q := by
        intro q hq hne
        refine (mapNodes_congr fun n hmem => hf n fun hid => hne ?_).trans q.mapNodes_id
        exact eq_of_mem_ids hn hq hp (mem_ids_iff_nodes.2 ⟨n, hmem, rfl⟩)
          (ids_subset_of_mem_subs hs hid)
      have hpart : ∀ q ∈ parts, q.shape.Proper → ∀ scope,
          (q.mapNodes f).shape.read scope = q.shape.read scope := by
        intro q hq hproper scope
        by_cases hqp : q = p
        · subst hqp
          exact ih q hq hproper (nodup_ids_of_mem_subs hn (mem_subs_of_mem_parts hq)) hs scope
        · rw [hother q hq hqp]
      rw [mapNodes_mk, hroot, shape_mk, shape_mk]
      rcases proper_cases h with ⟨hkind, v, w, rfl, binder, inside⟩ | ⟨ne, inside⟩
      · have hv : v.mapNodes f = v := by
          apply hother v (by simp)
          rintro rfl
          rw [subs_of_isBinder binder, List.mem_singleton] at hs
          exact binder.ne_lambda (by rw [kind_shape, ← hs, hk])
        simp only [List.map_cons, List.map_nil, hkind, Shape.read_lambda, hv,
          hpart w (by simp) inside]
      · rw [Shape.read_other ne, Shape.read_other ne, List.map_map, List.map_map, List.map_map]
        congr 1
        exact List.map_congr_left fun q hq => hpart q hq (inside q hq) scope

/-! ### Lambdas that bind new names -/

section rebinding

variable {root : Node}

/-- Where a lambda binds a new name, its binder and what it binds have that name. -/
theorem shape_mapNodes_rebinding (hn : (mk root [v, w]).ids.Nodup) (binder : v.shape.IsBinder) :
    ((mk root [v, w]).mapNodes (rebinding v w old z)).shape = .mk root.kind root.fields
      root.slots.names [v.shape.withName z, w.shape.editFree old (Shape.withName z)] := by
  have hw : w ∈ (mk root [v, w]).subs := mem_subs_of_mem_parts (by simp)
  have hroot : rebinding v w old z root = root := by
    have hv : root.id ≠ v.id := (ne_id_of_mem_parts hn List.mem_cons_self v.id_mem_ids).symm
    have hw : root.id ∉ w.ids := fun h => ne_id_of_mem_parts hn (by simp) h rfl
    rw [rebinding, if_neg hv, respelling, relabelling_of_notMem hw]
  have hbinder : (v.mapNodes (rebinding v w old z)).shape = v.shape.withName z := by
    obtain ⟨n, parts⟩ := v
    obtain rfl := List.map_eq_nil_iff.1 ((parts_shape _).symm.trans binder.leaf)
    have hname : rebinding (mk n []) w old z n = n.withField "name" (.text z) := if_pos rfl
    rw [mapNodes_mk, hname, shape_mk, shape_mk]
    rfl
  have hbody : w.mapNodes (rebinding v w old z) = w.mapNodes (w.respelling old z) := by
    apply mapNodes_congr
    intro n hmem
    apply if_neg
    intro hid
    have hdisjoint : v.ids.Disjoint w.ids := by
      rw [ids_mk, List.flatMap_cons, List.flatMap_cons, List.flatMap_nil, List.append_nil] at hn
      exact List.disjoint_of_nodup_append hn.of_append_left
    exact hdisjoint v.id_mem_ids (hid ▸ mem_ids_iff_nodes.2 ⟨n, hmem, rfl⟩)
  rw [mapNodes_mk, shape_mk, hroot]
  simp only [List.map_cons, List.map_nil, hbinder, hbody,
    shape_mapNodes_respelling (nodup_ids_of_mem_subs hn hw)]

theorem respelling_of_ne_var {n : Node} (hk : n.kind ≠ .var) : w.respelling old z n = n := by
  simp [respelling, relabelling, Node.renameVar, hk]

/-- The binder that is given a new name has that name. Other binders have the names they had. -/
theorem name?_rebinding {n : Node} (hk : n.kind ≠ .var) :
    (rebinding v w old z n).name? = if n.id = v.id then some z else n.name? := by
  unfold rebinding
  split
  · simp [Node.name?, Node.text?, Node.field?_withField, Datum.text?]
  · rw [respelling_of_ne_var hk]

theorem proper_of_lambda (h : (mk root [v, w]).shape.Proper) (hk : root.kind = .lambda) :
    v.shape.IsBinder ∧ w.shape.Proper := by
  rw [shape_mk, hk] at h
  cases h with
  | lambda binder inside => exact ⟨binder, inside⟩
  | other ne => exact absurd rfl ne

end rebinding

namespace Rebinds

theorem ids_eq (h : t.Rebinds z l u) : u.ids = t.ids := by
  cases h with
  | @mk _ v w old => exact ids_mapNodes fun n _ => (relabels_rebinding v w old z n).id_eq

theorem respells (h : t.Rebinds z l u) (hn : t.ids.Nodup) (hp : t.shape.Proper) :
    t.shape.Respells (· = z) u.shape := by
  cases h with
  | @mk s v w old mem id kind parts name =>
    obtain ⟨root, _⟩ := s
    subst parts
    obtain ⟨binder, -⟩ := proper_of_lambda (proper_of_mem_subs hp mem) kind
    apply respells_mapNodes
    intro n hmem
    unfold rebinding respelling relabelling Node.renameVar
    by_cases hid : n.id = v.id
    · have hv : v ∈ t.subs := mem_subs_trans (mem_subs_of_mem_parts (by simp)) mem
      obtain rfl : n = v.root :=
        node_eq_of_id_eq hn hmem (nodes_subset_of_mem_subs hv v.root_mem_nodes) hid
      have hk : v.root.kind = .binder := by
        rw [← kind_shape]
        exact binder.kind_of_name ((name?_shape v).trans name)
      exact .inr ⟨.inl hk, z, rfl, if_pos hid⟩
    · rw [if_neg hid]
      split
      · split
        · next hvar => exact .inr ⟨.inr hvar.1, z, rfl, rfl⟩
        · exact .inl rfl
      · exact .inl rfl

/-- A plant in which a lambda binds a name that was not spelled in it is read as before. -/
theorem read_eq (h : t.Rebinds z l u) (hn : t.ids.Nodup) (hp : t.shape.Proper)
    (hz : z ∉ t.shape.spelled) (scope : List (Option String)) :
    u.shape.read scope = t.shape.read scope := by
  cases h with
  | @mk s v w old mem id kind parts name =>
    obtain ⟨root, _⟩ := s
    subst parts
    have hk : root.kind = .lambda := kind
    obtain ⟨binder, inside⟩ := proper_of_lambda (proper_of_mem_subs hp mem) hk
    have hw : w ∈ t.subs := mem_subs_trans (mem_subs_of_mem_parts (by simp)) mem
    have hz' : z ∉ w.shape.spelled := fun hmem => hz (spelled_subset_of_mem_subs hw hmem)
    apply read_mapNodes_of_mem_subs hp hn mem kind
    · intro n hid
      have hv : n.id ≠ v.id := by
        intro e
        exact hid (e ▸ ids_subset_of_mem_subs (mem_subs_of_mem_parts (by simp)) v.id_mem_ids)
      rw [rebinding, if_neg hv]
      apply relabelling_of_notMem
      exact fun hmem => hid (ids_subset_of_mem_subs (mem_subs_of_mem_parts (by simp)) hmem)
    · intro scope
      rw [shape_mapNodes_rebinding (nodup_ids_of_mem_subs hn mem) binder, shape_mk, hk]
      apply inside.read_renameLambda binder ((name?_shape v).trans name)
      · exact fun hmem => hz' (inside.mem_spelled_of_mem_free hmem)
      · exact fun hmem => hz' (inside.mem_spelled_of_mem_binders hmem)

/-- A name that is bound in a plant in which a lambda binds a new name is the new one, or was bound by
another lambda before. -/
theorem bound (h : t.Rebinds z l u) (hn : t.ids.Nodup) (hp : t.shape.Proper) (hs : s ∈ u.subs)
    (hb : s.shape.bound? = some y) :
    y = z ∨ s.id ≠ l ∧ ∃ s' ∈ t.subs, s'.id = s.id ∧ s'.shape.bound? = some y := by
  cases h with
  | @mk s₁ v w old mem id kind parts name =>
    have hrelabels := relabels_rebinding v w old z
    rw [subs_mapNodes] at hs
    obtain ⟨⟨root, parts'⟩, hmem, rfl⟩ := List.mem_map.1 hs
    have hk : root.kind = .lambda := by
      by_contra hne
      rw [← (hrelabels root).frame.2.1] at hne
      simp [Shape.bound?, hne] at hb
    obtain ⟨-, v', w', rfl, binder, -⟩ | ⟨hne, -⟩ := proper_cases (proper_of_mem_subs hp hmem)
    · have hvar : v'.root.kind ≠ .var := kind_shape v' ▸ binder.ne_var
      have hname : (rebinding v w old z v'.root).name? =
          if v'.root.id = v.id then some z else v'.root.name? := name?_rebinding hvar
      have hk' : (rebinding v w old z root).kind = .lambda := (hrelabels root).frame.2.1.trans hk
      rw [mapNodes_mk, List.map_cons, List.map_cons, List.map_nil, bound?_shape_lambda hk',
        root_mapNodes, hname] at hb
      split at hb
      · exact .inl (Option.some.inj hb).symm
      · next hid =>
        refine .inr ⟨?_, _, hmem, (id_mapNodes (hrelabels root).id_eq).symm, ?_⟩
        · rw [id_mapNodes (hrelabels root).id_eq, ← id]
          intro e
          obtain rfl := eq_of_id_eq hn hmem mem e
          obtain ⟨rfl, -⟩ : v' = v ∧ w' = w := by simpa using parts
          exact hid rfl
        · rw [bound?_shape_lambda hk, hb]
    · exact absurd hk hne

theorem spelled_subset {taken : List String} (h : t.Rebinds z l u) (hn : t.ids.Nodup)
    (hp : t.shape.Proper) (hs : t.shape.spelled ⊆ taken) : u.shape.spelled ⊆ z :: taken := by
  intro y hy
  rcases (h.respells hn hp).spelled hy with hy | rfl
  · exact List.mem_cons_of_mem _ (hs hy)
  · exact List.mem_cons_self

end Rebinds

namespace Freshens

variable {ls : List NodeId} {taken : List String}

/-- Names are set at binders and variables alone, and they are new. -/
theorem respells (h : t.Freshens ls taken u) (hn : t.ids.Nodup) (hp : t.shape.Proper) :
    t.shape.Respells (· ∉ taken) u.shape := by
  induction h with
  | nil => exact .refl _
  | @cons l ls taken t u v first rest ih =>
    have hfirst := first.respells hn hp
    have hrest := ih (first.ids_eq ▸ hn) (hfirst.proper hp)
    apply Shape.Respells.trans (hfirst.mono _) (hrest.mono _)
    · rintro _ rfl
      exact nameOutside_notMem taken
    · intro y hy hmem
      exact hy (List.mem_cons_of_mem _ hmem)

/-- A plant whose lambdas bind new names is read as before. -/
theorem read_eq (h : t.Freshens ls taken u) (hn : t.ids.Nodup) (hp : t.shape.Proper)
    (hs : t.shape.spelled ⊆ taken) (scope : List (Option String)) :
    u.shape.read scope = t.shape.read scope := by
  induction h with
  | nil => rfl
  | @cons l ls taken t u v first rest ih =>
    have hp' := (first.respells hn hp).proper hp
    rw [ih (first.ids_eq ▸ hn) hp' (first.spelled_subset hn hp hs)]
    exact first.read_eq hn hp (fun hmem => nameOutside_notMem taken (hs hmem)) scope

/-- When each lambda that binds a name of some sort has been given a new name, none binds a name of
that sort, if all those names were taken. -/
theorem not_bound {p : String → Prop} (h : t.Freshens ls taken u) (hn : t.ids.Nodup)
    (hproper : t.shape.Proper) (hp : ∀ y, p y → y ∈ taken)
    (hl : ∀ s ∈ t.subs, ∀ y, s.shape.bound? = some y → p y → s.id ∈ ls) :
    ∀ s ∈ u.subs, ∀ y, s.shape.bound? = some y → ¬ p y := by
  induction h with
  | nil =>
    intro s hs y hb hy
    exact List.not_mem_nil (hl s hs y hb hy)
  | @cons l ls taken t u v first rest ih =>
    apply ih (first.ids_eq ▸ hn) ((first.respells hn hproper).proper hproper)
      (fun y hy => List.mem_cons_of_mem _ (hp y hy))
    intro s hs y hb hy
    rcases first.bound hn hproper hs hb with rfl | ⟨hne, s', hs', hid, hb'⟩
    · exact absurd (hp _ hy) (nameOutside_notMem taken)
    · exact List.mem_of_ne_of_mem hne (hid ▸ hl s' hs' y hb' hy)

end Freshens

end Plant

end TermForest
