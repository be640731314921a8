import TermForest.Proofs.Forest.Sprout

/-!
# Parts in slots

The plant in a slot of a plant, and the same plant with another part in the slot.
-/

namespace TermForest

namespace Plant

/-! ### Looking up -/

/-- The plant in a slot of the root. -/
def part? (t : Plant) (slot : String) : Option Plant :=
  (t.root.slots.names.zip t.parts).lookup slot

theorem lookup_zip_map {α β : Type} (f : α → β) (slot : String) (names : List String)
    (as : List α) : (names.zip (as.map f)).lookup slot = ((names.zip as).lookup slot).map f := by
  induction names generalizing as with
  | nil => rfl
  | cons name names ih =>
    cases as with
    | nil => rfl
    | cons a as =>
      rw [List.map_cons, List.zip_cons_cons, List.zip_cons_cons, List.lookup_cons,
        List.lookup_cons]
      split
      · rfl
      · exact ih as

/-- A slot leads to the part in it. -/
theorem get?_eq_part? {t : Plant} (h : t.root.slots.children = t.parts.map id) (slot : String) :
    t.root.slots.get? slot = (t.part? slot).map id := by
  rw [part?, ← lookup_zip_map, ← h]
  show t.root.slots.entries.lookup slot = _
  rw [Slots.names, Slots.children, List.zip_map']
  simp

theorem mem_parts_of_part? {t v : Plant} {slot : String} (h : t.part? slot = some v) :
    v ∈ t.parts := by
  unfold part? at h
  generalize t.root.slots.names = names at h
  generalize t.parts = parts at h
  induction names generalizing parts with
  | nil => cases h
  | cons name names ih =>
    cases parts with
    | nil => cases h
    | cons p parts =>
      rw [List.zip_cons_cons, List.lookup_cons] at h
      split at h
      · cases h
        exact List.mem_cons_self
      · exact List.mem_cons_of_mem _ (ih parts h)

/-- Plants of one shape have parts of one shape. -/
theorem part?_of_shape_eq {t u : Plant} (h : u.shape = t.shape) (slot : String) :
    (u.part? slot).map shape = (t.part? slot).map shape := by
  obtain ⟨-, -, hn, hp⟩ := root_of_shape_eq h
  rw [part?, part?, ← lookup_zip_map, ← lookup_zip_map, hn, hp]

end Plant

/-! ### Open parameters -/

namespace Forest

variable {F G : Forest} {t u v : Plant}

theorem Holds.of_part? (h : F.Holds t) {slot : String} (hv : t.part? slot = some v) :
    F.Holds v :=
  h.of_mem_subs (Plant.mem_subs_of_mem_parts (Plant.mem_parts_of_part? hv))

/-- The open parameters of a plant are read off its parts. -/
theorem Holds.openParameter? (h : F.Holds t) :
    F.openParameter? t.root = t.root.parameters.findSome? fun parameter =>
      (t.part? (parameterSlot parameter)).bind fun v =>
        if v.root.kind = .hole then some (parameterSlot parameter, v.id) else none := by
  unfold Forest.openParameter? Node.openParameter?
  congr 1
  funext parameter
  dsimp only
  rw [Plant.get?_eq_part? h.children]
  cases hv : t.part? (parameterSlot parameter) with
  | none => rfl
  | some v =>
    rw [Option.map_some]
    show (F.get? v.id).bind _ = _
    rw [(h.of_part? hv).get?_id]
    rfl

/-- Plants of one shape have the same open parameter. -/
theorem Holds.openParameter?_of_shape_eq (ht : F.Holds t) (hu : G.Holds u)
    (hs : u.shape = t.shape) :
    (G.openParameter? u.root).map Prod.fst = (F.openParameter? t.root).map Prod.fst := by
  have hparams : u.root.parameters = t.root.parameters := by
    obtain ⟨-, hf, -⟩ := Plant.root_of_shape_eq hs
    rw [Node.parameters, Node.parameters, Node.field?, Node.field?, hf]
  rw [ht.openParameter?, hu.openParameter?, hparams, List.map_findSome?, List.map_findSome?]
  congr 1
  funext parameter
  have hpart := Plant.part?_of_shape_eq hs (parameterSlot parameter)
  simp only [Function.comp]
  cases hu' : u.part? (parameterSlot parameter) <;>
    cases ht' : t.part? (parameterSlot parameter) <;> simp only [hu', ht'] at hpart
  · rfl
  · cases hpart
  · cases hpart
  · rw [Option.map_some, Option.map_some, Option.some.injEq] at hpart
    obtain ⟨hk, -⟩ := Plant.root_of_shape_eq hpart
    simp only [Option.bind_some, hk]
    split <;> rfl

/-- An open parameter stands in a slot of the node. -/
theorem get?_of_openParameter? {n : Node} {slot : String} {c : NodeId}
    (h : F.openParameter? n = some (slot, c)) : n.slots.get? slot = some c := by
  obtain ⟨parameter, -, h⟩ := List.exists_of_findSome?_eq_some h
  simp only [Option.bind_eq_bind, Option.bind_eq_some_iff] at h
  obtain ⟨child, hchild, held, -, h⟩ := h
  split at h <;> cases h
  exact hchild

end Forest

/-! ### Filling holes -/

namespace Shape

/-- Some terms with others in place of their holes, from left to right, while there are others. -/
def fill : List Shape → List Shape → List Shape
  | [], _ => []
  | ts, [] => ts
  | t :: ts, v :: vs => if t.kind = .hole then v :: fill ts vs else t :: fill ts (v :: vs)

@[simp] theorem fill_nil (ts : List Shape) : fill ts [] = ts := by
  cases ts <;> rfl

theorem fill_cons_of_hole {t : Shape} (h : t.kind = .hole) (ts : List Shape) (v : Shape)
    (vs : List Shape) : fill (t :: ts) (v :: vs) = v :: fill ts vs := if_pos h

theorem fill_cons_of_ne {t : Shape} (h : t.kind ≠ .hole) (ts vs : List Shape) :
    fill (t :: ts) vs = t :: fill ts vs := by
  cases vs with
  | nil => rw [fill_nil, fill_nil]
  | cons v vs => exact if_neg h

/-- The first hole may be filled before the others, with a term that is no hole itself. -/
theorem fill_cons {v : Shape} (hv : v.kind ≠ .hole) (ts vs : List Shape) :
    fill ts (v :: vs) = fill (fill ts [v]) vs := by
  induction ts with
  | nil => cases vs <;> rfl
  | cons t ts ih =>
    by_cases h : t.kind = .hole
    · rw [fill_cons_of_hole h, fill_cons_of_hole h, fill_nil, fill_cons_of_ne hv]
    · rw [fill_cons_of_ne h, fill_cons_of_ne h, fill_cons_of_ne h, ih]

/-- Filling the first hole leaves one hole less. -/
theorem countP_fill {v : Shape} (hv : v.kind ≠ .hole) (ts : List Shape) :
    (fill ts [v]).countP (·.kind = .hole) = ts.countP (·.kind = .hole) - 1 := by
  induction ts with
  | nil => rfl
  | cons t ts ih =>
    by_cases h : t.kind = .hole
    · rw [fill_cons_of_hole h, fill_nil, List.countP_cons_of_neg (by simpa using hv),
        List.countP_cons_of_pos (by simpa using h), Nat.add_sub_cancel]
    · rw [fill_cons_of_ne h, List.countP_cons_of_neg (by simpa using h),
        List.countP_cons_of_neg (by simpa using h), ih]

end Shape

theorem findSome?_congr {α β : Type} {f g : α → Option β} {as : List α} (h : ∀ a ∈ as, f a = g a) :
    as.findSome? f = as.findSome? g := by
  induction as with
  | nil => rfl
  | cons a as ih =>
    rw [List.findSome?_cons, List.findSome?_cons, h a List.mem_cons_self,
      ih fun a' ha' => h a' (List.mem_cons_of_mem _ ha')]

/-- Looking up each name in turn in a list of pairs goes through the list. -/
theorem findSome?_lookup_zip {α β : Type} {names : List String} (hn : names.Nodup) (as : List α)
    (f : String → α → Option β) :
    names.findSome? (fun name => ((names.zip as).lookup name).bind (f name)) =
      (names.zip as).findSome? fun e => f e.1 e.2 := by
  induction names generalizing as with
  | nil => rfl
  | cons name names ih =>
    obtain ⟨hname, hn⟩ := List.nodup_cons.1 hn
    cases as with
    | nil => simp
    | cons a as =>
      rw [List.zip_cons_cons, List.findSome?_cons, List.findSome?_cons, List.lookup_cons_self,
        Option.bind_some, ← ih hn]
      cases f name a with
      | some b => rfl
      | none =>
        refine findSome?_congr fun name' hname' => ?_
        have hne : name' ≠ name := fun e => hname (e ▸ hname')
        rw [List.lookup_cons, beq_eq_false_iff_ne.2 hne]

/-- The first hole in the slots of a named function is its open parameter. -/
theorem Forest.Holds.openParameter?_eq_findSome? {F : Forest} {t : Plant} {next : Nat}
    (h : F.Holds t) (hk : t.root.kind = .reference) (hf : t.root.Formed next) :
    F.openParameter? t.root = (t.root.slots.names.zip t.parts).findSome? fun e =>
      if e.2.root.kind = .hole then some (e.1, e.2.id) else none := by
  have hslots : t.root.slots.names = t.root.parameters.map parameterSlot := by
    rw [hf.slots (by simp [hk]), Node.declaredSlots, hk]
  rw [h.openParameter?, ← findSome?_lookup_zip t.root.slots.nodup_names t.parts fun name v =>
    if v.root.kind = .hole then some (name, v.id) else none]
  conv_rhs => rw [hslots, List.findSome?_map, ← hslots]
  rfl

/-! ### Putting a part into a slot -/

namespace Plant

/-- The parts of a plant with another one in a slot. -/
def partsWith (t : Plant) (slot : String) (v : Plant) : List Plant :=
  List.zipWith (fun name p => if name = slot then v else p) t.root.slots.names t.parts

/-- The same plant with another part, which is pointed at the slot. -/
def withPart (t : Plant) (slot : String) (v : Plant) : Plant :=
  mk (t.root.withSlot slot v.id) (t.partsWith slot (v.heldBy t.id slot))

theorem mem_partsWith {t v p : Plant} {slot : String} (h : p ∈ t.partsWith slot v) :
    p = v ∨ p ∈ t.parts := by
  obtain ⟨i, hi, rfl⟩ := List.mem_iff_getElem.1 h
  rw [partsWith, List.length_zipWith] at hi
  simp only [partsWith, List.getElem_zipWith]
  split
  · exact .inl rfl
  · exact .inr (List.getElem_mem _)

/-- A part in the slot of the first hole fills that hole. -/
theorem map_shape_zipWith {names : List String} {ps : List Plant} {slot : String} {c : NodeId}
    (hn : names.Nodup) (hlen : names.length = ps.length)
    (h : ((names.zip ps).findSome? fun e =>
      if e.2.root.kind = .hole then some (e.1, e.2.id) else none) = some (slot, c)) (v : Plant) :
    (List.zipWith (fun name p => if name = slot then v else p) names ps).map shape =
      Shape.fill (ps.map shape) [v.shape] := by
  induction names generalizing ps with
  | nil => cases h
  | cons name names ih =>
    obtain ⟨hname, hn⟩ := List.nodup_cons.1 hn
    cases ps with
    | nil => cases hlen
    | cons p ps =>
      rw [List.zip_cons_cons, List.findSome?_cons] at h
      rw [List.zipWith_cons_cons, List.map_cons, List.map_cons]
      by_cases hk : p.root.kind = .hole
      · rw [if_pos hk] at h
        cases h
        have hrest : List.zipWith (fun name' p => if name' = name then v else p) names ps = ps := by
          refine List.ext_getElem (by simp [Nat.succ.inj hlen]) fun i hi hi' => ?_
          rw [List.getElem_zipWith, if_neg]
          exact fun he => hname (he ▸ List.getElem_mem _)
        rw [if_pos rfl, hrest, Shape.fill_cons_of_hole (by simpa using hk), Shape.fill_nil]
      · rw [if_neg hk] at h
        have hne : name ≠ slot := by
          rintro rfl
          obtain ⟨e, he, hsome⟩ := List.exists_of_findSome?_eq_some h
          split at hsome <;> cases hsome
          exact hname (List.of_mem_zip he).1
        rw [if_neg hne, Shape.fill_cons_of_ne (by simpa using hk), ih hn (Nat.succ.inj hlen) h]

/-- A named function with a part in its first open parameter has its first hole filled. -/
theorem shape_withPart {F : Forest} {t : Plant} {next : Nat} (h : F.Holds t)
    (hk : t.root.kind = .reference) (hf : t.root.Formed next) {slot : String} {c : NodeId}
    (hopen : F.openParameter? t.root = some (slot, c)) (v : Plant) :
    (t.withPart slot v).shape = .mk .reference t.root.fields t.root.slots.names
      (Shape.fill (t.parts.map shape) [v.shape]) := by
  have hslot := Slots.mem_names_iff.2 ⟨c, Forest.get?_of_openParameter? hopen⟩
  rw [h.openParameter?_eq_findSome? hk hf] at hopen
  have hlen : t.root.slots.names.length = t.parts.length := by
    rw [Slots.length_names, ← Slots.length_children, h.children, List.length_map]
  rw [withPart, shape_mk, partsWith, map_shape_zipWith t.root.slots.nodup_names hlen hopen,
    shape_heldBy, ← hk]
  exact congrArg (Shape.mk _ _ · _) (Slots.names_set hslot _)

/-- No id stands twice in the parts when the new part has other ids than the old ones. -/
theorem nodup_ids_partsWith {t v : Plant} {slot : String} (ht : (t.parts.flatMap ids).Nodup)
    (hv : v.ids.Nodup) (hd : ∀ x ∈ t.parts.flatMap ids, x ∉ v.ids) :
    ((t.partsWith slot v).flatMap ids).Nodup := by
  have hnames := t.root.slots.nodup_names
  rw [List.nodup_flatMap, List.pairwise_iff_getElem] at ht ⊢
  refine ⟨fun p hp => ?_, fun i j hi hj hij => ?_⟩
  · rcases mem_partsWith hp with rfl | hp
    · exact hv
    · exact ht.1 p hp
  · have hli := hi
    have hlj := hj
    rw [partsWith, List.length_zipWith, Nat.lt_min] at hli hlj
    simp only [partsWith, List.getElem_zipWith, Function.onFun]
    have hold : ∀ k (hk : k < t.parts.length), ∀ x ∈ t.parts[k].ids, x ∉ v.ids := fun k hk x hx =>
      hd x (List.mem_flatMap.2 ⟨_, List.getElem_mem hk, hx⟩)
    -- at most one of the two names is that of the slot
    split
    · next hi' =>
      rw [if_neg fun hj' => Nat.ne_of_lt hij
        (hnames.getElem_inj_iff.1 (hi'.trans hj'.symm))]
      exact fun x hx hx' => hold j hlj.2 x hx' hx
    · split
      · exact fun x hx hx' => hold i hli.2 x hx hx'
      · exact ht.2 i j hli.2 hlj.2 hij

/-- A node carries its plants after one has been put into a slot and pointed at it. -/
theorem carries_withPart {t v : Plant} {slot : String} (ht : t.root.Carries t.parts)
    (hs : slot ∈ t.root.slots.names) :
    (t.root.withSlot slot v.id).Carries (t.partsWith slot (v.heldBy t.id slot)) := by
  unfold Node.Carries at ht ⊢
  show List.Forall₂ _ (t.root.slots.set slot v.id).entries _
  rw [Slots.entries_set hs]
  unfold partsWith Slots.names
  generalize t.root.slots.entries = entries at ht
  generalize t.parts = parts at ht
  induction ht with
  | nil => exact .nil
  | @cons e p entries parts h _ ih =>
    refine .cons ?_ ih
    by_cases he : e.1 = slot
    · simp [he, Node.heldBy]
    · simpa [he] using h

/-- Putting a grown part into a slot of a grown plant gives a grown plant. -/
theorem Grown.withPart {lo hi : Nat} {t v : Plant} {slot : String} (ht : t.Grown lo hi)
    (hv : v.Grown lo hi) (hd : ∀ x ∈ t.ids, x ∉ v.ids) (hs : slot ∈ t.root.slots.names) :
    (t.withPart slot v).Grown lo hi := by
  obtain ⟨root, parts⟩ := t
  have hn := ht.nodup
  rw [ids_mk, List.nodup_append] at hn
  obtain ⟨hc, hjoined⟩ := joined_mk_iff.1 ht.joined
  have hpart : ∀ p ∈ (Plant.mk root parts).partsWith slot (v.heldBy root.id slot),
      p.Grown lo hi := by
    intro p hp
    rcases mem_partsWith hp with rfl | hp
    · exact hv.heldBy _ _
    · exact ht.of_mem_subs (mem_subs_of_mem_parts hp)
  refine .of_parts hpart ?_ ?_ (ht.le _ (id_mem_ids _)) (ht.lt _ (id_mem_ids _))
    (carries_withPart hc hs) ?_ (ht.unlocked root (root_mem_nodes _))
  · refine nodup_ids_partsWith hn.1 (by simpa using hv.nodup) fun x hx => ?_
    rw [ids_heldBy]
    exact hd x (by rw [ids_mk]; exact List.mem_append_left _ hx)
  · intro hx
    obtain ⟨p, hp, hx⟩ := List.mem_flatMap.1 hx
    rcases mem_partsWith hp with rfl | hp
    · exact hd _ (id_mem_ids _) (by simpa using hx)
    · exact hn.2.2 _ (List.mem_flatMap.2 ⟨p, hp, hx⟩) _ (by simp) rfl
  · exact ht.formed.root.congr rfl rfl (Slots.names_set hs _)

end Plant

end TermForest
