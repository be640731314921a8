import TermForest.Proofs.Evaluation.Step
import TermForest.Proofs.Innermost

/-!
# Spines

A plant that is applied to arguments, to one after the other. The search for a redex goes down the
spine to the innermost application, and an application of a named function to a normal argument is
its own redex. Where what is applied is exchanged, the arguments stay as they are.
-/

namespace TermForest

/-! ### Spines -/

namespace Plant

/-- The second plant applies the first to some arguments, to one after the other. -/
inductive Spine : Plant → List Plant → Plant → Prop where
  | nil {f : Plant} : Spine f [] f
  | cons {f v t : Plant} {vs : List Plant} {root : Node} (kind : root.kind = .apply)
      (rest : Spine (.mk root [f, v]) vs t) : Spine f (v :: vs) t

/-- What is applied and its argument have no id in common. -/
theorem notMem_ids_of_pair {root : Node} {f v : Plant} (h : (mk root [f, v]).ids.Nodup) :
    ∀ x ∈ f.ids, x ∉ v.ids := by
  rw [ids_mk, List.nodup_append] at h
  have hparts : (([] ++ f :: [v]).flatMap ids).Nodup := h.1
  exact notMem_ids_of_nodup hparts (List.mem_singleton_self v)

namespace Spine

variable {f t v : Plant} {vs : List Plant}

/-- An application that is applied to arguments applies its callee to one argument more. -/
theorem cons_of_parts {a : Plant} (kind : a.root.kind = .apply) (hparts : a.parts = [f, v])
    (rest : a.Spine vs t) : f.Spine (v :: vs) t := by
  obtain ⟨root, parts⟩ := a
  obtain rfl : parts = [f, v] := hparts
  exact .cons kind rest

theorem mem_subs (h : f.Spine vs t) : f ∈ t.subs := by
  induction h with
  | nil => exact mem_subs_self _
  | cons kind rest ih => exact mem_subs_trans (mem_subs_of_mem_parts (by simp)) ih

theorem arguments_subset_subs (h : f.Spine vs t) : vs ⊆ t.subs := by
  induction h with
  | nil => exact List.nil_subset _
  | cons kind rest ih =>
    refine List.cons_subset.2 ⟨?_, ih⟩
    exact mem_subs_trans (mem_subs_of_mem_parts (by simp)) rest.mem_subs

/-- Nothing below what is applied has the id of the whole. -/
theorem id_notMem_ids {F : Forest} (h : f.Spine vs t) (ht : F.Holds t) (hvs : vs ≠ []) :
    t.id ∉ f.ids := by
  induction h with
  | nil => exact absurd rfl hvs
  | @cons f v t vs root kind rest ih =>
    cases rest with
    | nil => exact ht.id_notMem_parts (by simp)
    | cons kind' rest' =>
      exact fun hx => ih ht (List.cons_ne_nil _ _)
        (ids_subset_of_mem_subs (mem_subs_of_mem_parts (by simp)) hx)

/-- The arguments have no id in common with what they are arguments of. -/
theorem notMem_ids (h : f.Spine vs t) (hn : t.ids.Nodup) (hv : v ∈ vs) :
    ∀ x ∈ f.ids, x ∉ v.ids := by
  induction h with
  | nil => cases hv
  | @cons f w t vs root kind rest ih =>
    rcases List.mem_cons.1 hv with rfl | hv
    · exact notMem_ids_of_pair (nodup_ids_of_mem_subs hn rest.mem_subs)
    · exact fun x hx => ih hn hv x
        (ids_subset_of_mem_subs (mem_subs_of_mem_parts (by simp)) hx)

end Spine

end Plant

/-! ### The search at a spine -/

namespace Forest.Holds

variable {F : Forest} {S : Signature} {root : Node} {f v : Plant} {next : ℕ}

/-- The slots of an application lead to what is applied and to its argument. -/
theorem needSlot_of_apply (h : F.Holds (.mk root [f, v])) (hf : root.Formed next)
    (hk : root.kind = .apply) :
    root.needSlot "callee" = .ok f.id ∧ root.needSlot "argument" = .ok v.id := by
  have hnames : root.slots.names = ["callee", "argument"] := by
    rw [hf.slots (by simp [hk]), Node.declaredSlots, hk]
  have hchildren : root.slots.children = [f.id, v.id] := h.children
  constructor
  · exact Node.needSlot_eq_ok_iff.2
      (Slots.get?_of_getElem? (i := 0) (by rw [hnames]; rfl) (by rw [hchildren]; rfl))
  · exact Node.needSlot_eq_ok_iff.2
      (Slots.get?_of_getElem? (i := 1) (by rw [hnames]; rfl) (by rw [hchildren]; rfl))

/-- An application of a named function with parameters has its argument as the one strict child, any
other has both children. -/
theorem strictChildren_of_apply (h : F.Holds (.mk root [f, v])) (hf : root.Formed next)
    (hk : root.kind = .apply) :
    root.strictChildren F.get? =
      .ok (if f.root.kind = .reference ∧ f.root.parameters ≠ [] then [v.id]
        else [f.id, v.id]) := by
  obtain ⟨hcallee, hargument⟩ := h.needSlot_of_apply hf hk
  have hheld : F.Holds f := h.of_mem_subs (Plant.mem_subs_of_mem_parts (by simp))
  rw [Node.strictChildren, hk]
  dsimp only
  rw [hcallee, hargument, ok_bind, ok_bind, hheld.get?_id]
  dsimp only
  split <;> rfl

/-- What is normal is no hole. -/
theorem kind_ne_hole_of_isNormal {t : Plant} (h : F.Holds t) (hn : t.ids.Nodup)
    (hnormal : S.isNormal F t.id = .ok true) : t.root.kind ≠ .hole := by
  intro hk
  cases (h.tree_shows hn).normal_of_isNormal hnormal with
  | value hvalue =>
    rw [hk] at hvalue
    cases hvalue
  | array harray =>
    rw [hk] at harray
    cases harray
  | function href =>
    rw [hk] at href
    cases href

variable (hS : S.Full)
include hS

/-- An application of a named function with parameters to a normal argument is its own redex. -/
theorem redex_of_collecting (h : F.Holds (.mk root [f, v])) (hn : (Plant.mk root [f, v]).ids.Nodup)
    (hf : root.Formed next) (hk : root.kind = .apply) (hlocked : root.locked = false)
    (href : f.root.kind = .reference) (hparams : f.root.parameters ≠ [])
    (hv : S.isNormal F v.id = .ok true) : S.redex F root.id = .ok (some root.id) := by
  have hcs := h.strictChildren_of_apply hf hk
  rw [if_pos ⟨href, hparams⟩] at hcs
  have hfind : [v.id].findM? (fun c => return !(← S.isNormal F c)) = .ok none :=
    findM?_eq_ok_none fun c hc => by rw [List.mem_singleton.1 hc, hv]; rfl
  have hredex := h.redex_of_findM? hn (hS.requireKind _) hcs hlocked
  rw [hfind, ok_bind, Plant.root_mk, hk] at hredex
  exact hredex

/-- Where an application is applied, the search goes on in that. -/
theorem redex_of_nested (h : F.Holds (.mk root [f, v])) (hn : (Plant.mk root [f, v]).ids.Nodup)
    (hf : root.Formed next) (hk : root.kind = .apply) (hlocked : root.locked = false)
    (happly : f.root.kind = .apply) : S.redex F root.id = S.redex F f.id := by
  have hcs := h.strictChildren_of_apply hf hk
  rw [if_neg (by simp [happly])] at hcs
  have hsub : f ∈ (Plant.mk root [f, v]).subs := Plant.mem_subs_of_mem_parts (by simp)
  have hnormal : S.isNormal F f.id = .ok false := by
    rw [(h.of_mem_subs hsub).isNormal_of_expression (Plant.nodup_ids_of_mem_subs hn hsub)
      (hS.requireKind _) (by rw [happly]; rfl), Node.coarseType, happly]
    rfl
  have hfind : [f.id, v.id].findM? (fun c => return !(← S.isNormal F c)) = .ok (some f.id) :=
    findM?_eq_ok_some_iff.2 ⟨[], _, rfl, List.forall_mem_nil _, by rw [hnormal]; rfl⟩
  have hredex := h.redex_of_findM? hn (hS.requireKind _) hcs hlocked
  rw [hfind, ok_bind] at hredex
  exact hredex

/-- The redex at a spine over an application is that of the application. -/
theorem redex_of_spine {a t : Plant} {vs : List Plant} (h : F.Holds t) (hspine : a.Spine vs t)
    (ha : a.root.kind = .apply) (hn : t.ids.Nodup) (hf : t.Formed next)
    (hlocked : ∀ n ∈ t.nodes, n.locked = false) : S.redex F t.id = S.redex F a.id := by
  induction hspine with
  | nil => rfl
  | @cons a v t vs root kind rest ih =>
    have hsub := rest.mem_subs
    have hroot := Plant.nodes_subset_of_mem_subs hsub (Plant.root_mem_nodes _)
    rw [ih h kind hn hf hlocked]
    exact (h.of_mem_subs hsub).redex_of_nested hS (Plant.nodup_ids_of_mem_subs hn hsub)
      (hf _ hroot) kind (hlocked _ hroot) ha

end Forest.Holds

/-! ### Steps in place -/

/-- In the second state the second plant stands where the first one stands in the first state. -/
structure State.InPlace (s : State) (t : Plant) (s' : State) (t' : Plant) : Prop where
  held : s'.nodes.Holds t'
  parent : t'.root.parent = t.root.parent
  parentSlot : t'.root.parentSlot = t.root.parentSlot
  board : s'.board = s.board.map fun x => if x = t.id then t'.id else x

namespace State

variable {s s' s'' : State} {t t' t'' : Plant}

/-- Replacing an entry by itself changes nothing. -/
theorem map_replace_self (a : NodeId) (ids : List NodeId) :
    (ids.map fun x => if x = a then a else x) = ids :=
  (List.map_congr_left fun x _ => by split <;> simp [*]).trans (List.map_id ids)

theorem InPlace.refl (h : s.nodes.Holds t) : s.InPlace t s t where
  held := h
  parent := rfl
  parentSlot := rfl
  board := (map_replace_self t.id s.board).symm

theorem InPlace.trans (h : s.InPlace t s' t') (h' : s'.InPlace t' s'' t'') (hid : t'.id = t.id) :
    s.InPlace t s'' t'' where
  held := h'.held
  parent := h'.parent.trans h.parent
  parentSlot := h'.parentSlot.trans h.parentSlot
  board := by
    rw [h'.board, h.board, hid, map_replace_self]

end State

/-- What is applied can be exchanged for another plant of the same id and links. -/
theorem Plant.Spine.exists_congr {F G : Forest} {b b' t : Plant} {vs : List Plant}
    (h : b.Spine vs t) (ht : F.Holds t) (hn : t.ids.Nodup) (hb : G.Holds b') (hid : b'.id = b.id)
    (hparent : b'.root.parent = b.root.parent) (hslot : b'.root.parentSlot = b.root.parentSlot)
    (hG : ∀ x ∈ t.ids, x ∉ b.ids → G.get? x = F.get? x) :
    ∃ t', b'.Spine vs t' ∧ G.Holds t' ∧ t'.id = t.id ∧ t'.root.parent = t.root.parent ∧
      t'.root.parentSlot = t.root.parentSlot := by
  induction h generalizing b' with
  | nil => exact ⟨b', .nil, hb, hid, hparent, hslot⟩
  | @cons b v t vs root kind rest ih =>
    have hsub := rest.mem_subs
    have hheld := ht.of_mem_subs hsub
    have hids := ids_subset_of_mem_subs hsub
    have hroot := hids (id_mem_ids (mk root [b, v]))
    have hv : v ∈ (mk root [b, v]).subs := mem_subs_of_mem_parts (by simp)
    have hapart := notMem_ids_of_pair (nodup_ids_of_mem_subs hn hsub)
    have hb' : G.Holds (.mk root [b', v]) := by
      refine .mk ((hG _ hroot (hheld.id_notMem_parts (by simp))).trans hheld.get?_id)
        (by rw [List.map_cons, hid]; exact hheld.children) ?_
      rintro p hp
      rcases List.mem_pair.1 hp with rfl | rfl
      · exact hb
      · exact (hheld.of_mem_subs hv).congr fun x hx =>
          hG x (hids (ids_subset_of_mem_subs hv hx)) fun hxb => hapart x hxb hx
    obtain ⟨t', hspine, hrest⟩ := ih ht hn hb' rfl rfl rfl fun x hx hout => hG x hx fun hxb =>
      hout (ids_subset_of_mem_subs (mem_subs_of_mem_parts (by simp)) hxb)
    exact ⟨t', .cons kind hspine, hrest⟩

namespace State

variable {s s' : State} {a u t t' : Plant} {vs : List Plant} {next : ℕ}

/-- The new plant stands where the old one stood. -/
theorem Grafts.inPlace (h : s.Grafts a u s') (hs : s.Kept next) : s.InPlace a s' u := by
  refine ⟨h.new, h.parent, h.parentSlot, ?_⟩
  rw [h.board]
  split
  · rfl
  · next hparent =>
    -- what has a parent is not listed on the board
    refine ((List.map_congr_left fun x hx => if_neg ?_).trans (List.map_id _)).symm
    rintro rfl
    obtain ⟨n, hget, hnone, -⟩ := hs.exists_board hx
    obtain rfl := Option.some.inj (h.old.get?_id.symm.trans hget)
    exact hparent hnone

/-- What has a part exchanged holds the new plant instead. -/
theorem Grafts.exists_whole (h : s.Grafts a u s') (hs : s.Kept next) (ht : s.nodes.Holds t)
    {before after : List Plant} (hparts : t.parts = before ++ a :: after) :
    ∃ t', s.InPlace t s' t' ∧ t'.id = t.id ∧ t'.root.kind = t.root.kind ∧
      t'.root.fields = t.root.fields ∧ t'.parts = before ++ u :: after := by
  obtain ⟨root, parts⟩ := t
  obtain rfl : parts = before ++ a :: after := hparts
  have hn := (hs.linked.hung hs.lt).nodup_ids ht
  obtain ⟨hcarries, hjoined⟩ := Plant.joined_mk_iff.1 ((hs.linked.hung hs.lt).joined ht)
  have ha : a ∈ before ++ a :: after := by simp
  have hout : root.id ∉ a.ids := ht.id_notMem_parts ha
  obtain ⟨root', hget, hkind, hfields, -, -, hchildren⟩ :=
    h.exists_root ht.get?_id h.old (hjoined a ha) hcarries a.mem_subs_self hout
  obtain ⟨m, hm, hparent, hslot⟩ := h.exists_get? ht.get?_id hout
  obtain rfl := Option.some.inj (hget.symm.trans hm)
  have hid : root'.id = root.id := Forest.id_of_get? hget
  obtain ⟨slot, -, hup, -⟩ := hcarries.exists_entry ha
  refine ⟨.mk root' (before ++ u :: after), ⟨.mk (by rwa [hid]) ?_ fun p hp => ?_, hparent, hslot,
    ?_⟩, hid, hkind, hfields, rfl⟩
  · rw [hchildren, if_pos rfl, List.map_append, List.map_cons]
  · have hother : ∀ q ∈ before ++ after, s'.nodes.Holds q := by
      intro q hq
      rw [Plant.ids_mk, List.nodup_append] at hn
      refine h.holds_apart hs.linked (ht.of_mem_subs (Plant.mem_subs_of_mem_parts ?_))
        (Plant.notMem_ids_of_nodup hn.1 hq)
      exact List.mem_append.2 ((List.mem_append.1 hq).imp_right (List.mem_cons_of_mem a))
    rcases List.mem_append.1 hp with hp | hp
    · exact hother p (List.mem_append_left _ hp)
    · rcases List.mem_cons.1 hp with rfl | hp
      · exact h.new
      · exact hother p (List.mem_append_right _ hp)
  · rw [h.board, if_neg (by simp [hup]), Plant.id_mk, Plant.id_mk, hid, map_replace_self]

/-- Its other parts are as normal as they were. -/
theorem Grafts.isNormal_part (h : s.Grafts a u s') (hs : s.Kept next) (ht : s.nodes.Holds t)
    {before after : List Plant} (hparts : t.parts = before ++ a :: after) {p : Plant}
    (hp : p ∈ before ++ after) (S : Signature) :
    S.isNormal s'.nodes p.id = S.isNormal s.nodes p.id := by
  have hn := (hs.linked.hung hs.lt).nodup_ids ht
  obtain ⟨root, parts⟩ := t
  obtain rfl : parts = before ++ a :: after := hparts
  rw [Plant.ids_mk, List.nodup_append] at hn
  have hheld := ht.of_mem_subs (Plant.mem_subs_of_mem_parts (u := p)
    (List.mem_append.2 ((List.mem_append.1 hp).imp_right (List.mem_cons_of_mem a))))
  exact (h.shares_apart hs hheld (Plant.notMem_ids_of_nodup hn.1 hp) p.id_mem_ids).isNormal_eq S

/-- An application that has what is applied exchanged applies the new plant to the same argument. -/
theorem Grafts.exists_application {root : Node} {v : Plant} (h : s.Grafts a u s')
    (hs : s.Kept next) (hheld : s.nodes.Holds (.mk root [a, v])) :
    ∃ root', root'.id = root.id ∧ root'.kind = root.kind ∧ root'.parent = root.parent ∧
      root'.parentSlot = root.parentSlot ∧ s'.nodes.Holds (.mk root' [u, v]) := by
  obtain ⟨⟨root', parts⟩, hplace, hid, hkind, -, hparts⟩ :=
    h.exists_whole hs hheld (show _ = [] ++ a :: [v] from rfl)
  obtain rfl : parts = [u, v] := hparts
  exact ⟨root', hid, hkind, hplace.parent, hplace.parentSlot, hplace.held⟩

/-- Where a spine has what is applied exchanged, it applies the new plant to the same arguments. -/
theorem Grafts.exists_spine (h : s.Grafts a u s') (hs : s.Kept next) (hspine : a.Spine vs t)
    (ht : s.nodes.Holds t) :
    ∃ t', u.Spine vs t' ∧ s.InPlace t s' t' ∧ (vs ≠ [] → t'.id = t.id) := by
  cases hspine with
  | nil => exact ⟨u, .nil, h.inPlace hs, by simp⟩
  | @cons _ v _ vs root kind rest =>
    have hsub := rest.mem_subs
    have hheld := ht.of_mem_subs hsub
    have ha : a ∈ (Plant.mk root [a, v]).parts := by simp
    obtain ⟨root', hid, hkind, hparent, hslot, hb'⟩ := h.exists_application hs hheld
    obtain ⟨hcarries, -⟩ := Plant.joined_mk_iff.1 ((hs.linked.hung hs.lt).joined hheld)
    obtain ⟨slot, -, hup, -⟩ := hcarries.exists_entry ha
    have hothers : ∀ x ∈ t.ids, x ∉ (Plant.mk root [a, v]).ids →
        s'.nodes.get? x = s.nodes.get? x := by
      intro x hx hxb
      refine h.others x (fun hxa => hxb ?_) (fun hxu => h.notMem_old ht hxu hx) fun hxr => hxb ?_
      · exact Plant.ids_subset_of_mem_subs (Plant.mem_subs_of_mem_parts ha) hxa
      · rw [hup, Option.some.injEq] at hxr
        exact hxr ▸ (Plant.mk root [a, v]).id_mem_ids
    obtain ⟨t', hspine, hheld', hid', hparent', hslot'⟩ := rest.exists_congr ht
      ((hs.linked.hung hs.lt).nodup_ids ht) hb' hid hparent hslot hothers
    refine ⟨t', .cons (hkind.trans kind) hspine, ⟨hheld', hparent', hslot', ?_⟩, fun _ => hid'⟩
    rw [h.board, if_neg (by simp [hup]), hid', map_replace_self]

/-- A spine on the board stays on the board. -/
theorem Grafts.exists_rootOf_spine (h : s.Grafts a u s') (hs : s.Kept next)
    (hspine : a.Spine vs t) (hspine' : u.Spine vs t') (ht : s.nodes.Holds t)
    (hid : vs ≠ [] → t'.id = t.id) {top : NodeId} (hboard : top ∈ s.board)
    (hroot : s.nodes.RootOf t.id top) :
    ∃ root ∈ s'.board, s'.nodes.RootOf t'.id root := by
  cases vs with
  | nil =>
    cases hspine
    cases hspine'
    exact h.exists_rootOf_new hs hboard hroot
  | cons v vs =>
    have hne : v :: vs ≠ [] := List.cons_ne_nil _ _
    obtain ⟨hroot', hmem⟩ := h.rootOf_of_notMem hs (hspine.id_notMem_ids ht hne) hroot
    rw [hid hne]
    exact ⟨top, hmem.2 hboard, hroot'⟩

end State

end TermForest
