import Mathlib.Logic.Function.Iterate
import TermForest.Proofs.Forest.Part
import TermForest.Rule.Reduce

/-!
# What the rules build

Every edit by which a rule builds its result sprouts a plant: the nodes that were there stay as they
are, and the result is a grown plant of new ids.
-/

namespace TermForest

open Supply (Meets)

/-- At every id that has a node, a forest holds a plant of different ids below `next`, whose nodes
have the fields and slots of their kinds. -/
def Forest.Stocked (F : Forest) (next : Nat) : Prop :=
  ∀ id n, F.get? id = some n → ∃ t : Plant, t.root = n ∧ F.Holds t ∧ t.ids.Nodup ∧
    (∀ x : Nat, x ∈ t.ids → x < next) ∧ t.Formed next

namespace Forest.Stocked

variable {F : Forest} {next : Nat}

/-- A plant that is held has different ids below `next`, and nodes with their fields and slots. -/
theorem of_holds (h : F.Stocked next) {t : Plant} (ht : F.Holds t) :
    t.ids.Nodup ∧ (∀ x : Nat, x ∈ t.ids → x < next) ∧ t.Formed next := by
  obtain ⟨u, hroot, hu, hprops⟩ := h t.id t.root ht.get?_id
  exact hu.unique ht (congrArg Node.id hroot) ▸ hprops

/-- The children of a node have nodes. -/
theorem exists_child (h : F.Stocked next) {id c : NodeId} {n : Node} (hn : F.get? id = some n)
    (hc : c ∈ n.slots.children) : ∃ m, F.get? c = some m := by
  obtain ⟨t, rfl, ht, -⟩ := h id n hn
  rw [ht.children, List.mem_map] at hc
  obtain ⟨p, hp, rfl⟩ := hc
  exact ⟨p.root, (ht.of_mem_subs (Plant.mem_subs_of_mem_parts hp)).get?_id⟩

theorem lt (h : F.Stocked next) {id : Nat} {n : Node} (hn : F.get? id = some n) : id < next := by
  obtain ⟨t, rfl, ht, -, hlt, -⟩ := h id n hn
  rw [← Forest.id_of_get? hn]
  exact hlt _ t.id_mem_ids

theorem formed (h : F.Stocked next) {id : NodeId} {n : Node} (hn : F.get? id = some n) :
    n.Formed next := by
  obtain ⟨t, rfl, -, -, -, hf⟩ := h id n hn
  exact hf.root

theorem exists_number (h : F.Stocked next) {id : NodeId} {n : Node} (hn : F.get? id = some n)
    (hk : n.kind = .number) : ∃ i, n.needInt "value" = .ok i ∧ F.number id = .ok i := by
  obtain ⟨i, -, hi⟩ := (h.formed hn).exists_number hk
  refine ⟨i, hi, ?_⟩
  rw [Forest.number, Forest.find_eq_ok_iff.2 hn]
  exact hi

/-- A declared slot leads to a node. -/
theorem exists_declared (h : F.Stocked next) {id : NodeId} {n : Node} (hn : F.get? id = some n)
    (hk : n.kind ≠ .array) (slot : String) (hs : slot ∈ n.declaredSlots) :
    ∃ c m, n.slots.get? slot = some c ∧ n.needSlot slot = .ok c ∧ F.get? c = some m := by
  obtain ⟨c, hc, hneed⟩ := (h.formed hn).exists_needSlot hk slot hs
  obtain ⟨m, hm⟩ := h.exists_child hn (Slots.mem_children_iff.2 ⟨_, hc⟩)
  exact ⟨c, m, hc, hneed, hm⟩

/-- A definition has a body. -/
theorem exists_body (h : F.Stocked next) {id : NodeId} {d : Node} (hd : F.get? id = some d)
    (hk : d.kind = .define) : ∃ b : Plant, d.needSlot "body" = .ok b.id ∧
      d.slots.get? "body" = some b.id ∧ F.Holds b := by
  obtain ⟨body, n, hget, hneed, hn⟩ :=
    h.exists_declared hd (by simp [hk]) "body" (by simp [Node.declaredSlots, hk])
  obtain ⟨b, rfl, hb, -⟩ := h body n hn
  obtain rfl : b.id = body := Forest.id_of_get? hn
  exact ⟨b, hneed, hget, hb⟩

/-- No child stands twice in a node. -/
theorem nodup_children (h : F.Stocked next) {id : NodeId} {n : Node} (hn : F.get? id = some n) :
    n.slots.children.Nodup := by
  obtain ⟨t, rfl, ht, hnodup, -⟩ := h id n hn
  obtain ⟨root, parts⟩ := t
  rw [Plant.ids_mk, List.nodup_append] at hnodup
  rw [ht.children, Plant.parts_mk]
  have hpairs := (List.nodup_flatMap.1 hnodup.1).2
  rw [List.nodup_iff_pairwise_ne, List.pairwise_map]
  refine hpairs.imp ?_
  intro p q hd e
  exact hd p.id_mem_ids (e ▸ q.id_mem_ids)

end Forest.Stocked

namespace Shape

/-- A variable of a name. -/
def var (name : String) : Shape := .mk .var ((∅ : Fields).insert "name" (.text name)) [] []

/-- A binder of a name. -/
def binder (name : String) : Shape := .mk .binder ((∅ : Fields).insert "name" (.text name)) [] []

/-- A lambda that binds a name in a body. -/
def lambda (name : String) (body : Shape) : Shape :=
  .mk .lambda ∅ ["arg", "body"] [.binder name, body]

/-- An array of some elements. -/
def array (elements : List Shape) : Shape :=
  .mk .array ((∅ : Fields).insert "length" (.int (Int64.ofNat elements.length)))
    ((List.range elements.length).map elementSlot) elements

end Shape

/-- The call of a deferred `repeat` is there, with a number and a function. -/
structure Effect.Fits (F : Forest) (e : Effect) : Prop where
  repeats : e.builtin = .repeat
  call : ∃ n, F.get? e.node = some n
  count : ∃ id n times, e.arguments[0]? = some id ∧ F.get? id = some n ∧
    n.needInt "value" = .ok times
  function : ∃ id n, e.arguments[1]? = some id ∧ F.get? id = some n

namespace Editing

variable {F G : Forest} {lo next : Nat} {u : Plant}

/-! ### Copies -/

/-- A copy of a plant of the older forest has its shape. -/
theorem meets_copyOf_of_holds (hF : F.Stocked lo) (hG : ∀ x : Nat, x < lo → G.get? x = F.get? x)
    (hlo : lo ≤ next) {t : Plant} (ht : F.Holds t) :
    ((copyOf t.id).run G).Meets next
      (fun r next' => ∃ u : Plant, r.1 = u.id ∧ G.Sprouts r.2 next next' u ∧ u.shape = t.shape)
      fun _ => False := by
  obtain ⟨hnodup, hlt, hf⟩ := hF.of_holds ht
  exact meets_copyOf (ht.congr fun x hx => hG x (hlt x hx)) hnodup (hf.mono hlo)

theorem meets_copyOf_of_stocked (hF : F.Stocked lo) (hG : ∀ x : Nat, x < lo → G.get? x = F.get? x)
    (hlo : lo ≤ next) {id : NodeId} {n : Node} (hn : F.get? id = some n) :
    ((copyOf id).run G).Meets next
      (fun r next' => ∃ u : Plant, r.1 = u.id ∧ G.Sprouts r.2 next next' u)
      fun _ => False := by
  obtain ⟨t, rfl, ht, -⟩ := hF id n hn
  obtain rfl : t.id = id := Forest.id_of_get? hn
  exact (meets_copyOf_of_holds hF hG hlo ht).imp (fun _ _ _ ⟨u, hr, hu, _⟩ => ⟨u, hr, hu⟩)
    fun _ => id

/-! ### Unfolding a definition -/

/-- Applying a plant to copies of plants sprouts, and the applications nest to the left. -/
theorem meets_applyToCopies (hF : F.Stocked lo) (hlo : lo ≤ next) (hu : F.Sprouts G lo next u)
    {ts : List Plant} (hts : ∀ t ∈ ts, F.Holds t) :
    (((ts.map Plant.id).foldlM
        (fun callee argument => do apply callee (← copyOf argument)) u.id : Editing NodeId).run
      G).Meets next
      (fun r next' => ∃ w : Plant, r.1 = w.id ∧ F.Sprouts r.2 lo next' w ∧
        w.shape = (ts.map Plant.shape).foldl .applied u.shape)
      fun _ => False := by
  induction ts generalizing u G next with
  | nil => exact .pure ⟨u, rfl, hu, rfl⟩
  | cons t ts ih =>
    rw [List.map_cons, List.foldlM_cons, StateT.run_bind, StateT.run_bind, bind_assoc]
    refine (meets_copyOf_of_holds hF hu.below hlo (hts t List.mem_cons_self)).bind ?_
    rintro ⟨_, H⟩ mid hmid ⟨v, rfl, hv, hvs⟩
    obtain ⟨hu', hv'⟩ := hu.trans hv hlo hmid
    refine (meets_apply hu' hv' (Forest.disjoint_of_grown hu.grown hv.grown)
      (Nat.le_trans hlo hmid)).bind ?_
    rintro ⟨_, I⟩ next' hnext ⟨w, rfl, hw, hws⟩
    have hrest := ih (by lia) hw fun t' ht' => hts t' (List.mem_cons_of_mem _ ht')
    rw [hws, hvs] at hrest
    exact hrest

/-- An unfolded definition is a copy of its body, applied to copies of the arguments. -/
theorem meets_unfolding (hF : F.Stocked lo) {d : Node} {b : Plant}
    (hbody : d.needSlot "body" = .ok b.id) (hb : F.Holds b) {ts : List Plant}
    (hts : ∀ t ∈ ts, F.Holds t) :
    ((State.unfolding d (ts.map Plant.id)).run F).Meets lo
      (fun r next' => ∃ w : Plant, r.1 = w.id ∧ F.Sprouts r.2 lo next' w ∧
        w.shape = (ts.map Plant.shape).foldl .applied b.shape)
      fun _ => False := by
  rw [State.unfolding, StateT.run_bind, run_liftM_ok hbody, pure_bind, StateT.run_bind]
  refine (meets_copyOf_of_holds hF (fun _ _ => rfl) (Nat.le_refl _) hb).bind ?_
  rintro ⟨_, G⟩ next hnext ⟨u, rfl, hu, hus⟩
  exact hus ▸ meets_applyToCopies hF hnext hu hts

/-! ### Repeating a function -/

/-- Applying copies of a plant to a plant, one around the other, sprouts the applications. -/
theorem meets_applyTimes {K : Forest} {lo' : Nat} (hF : F.Stocked lo) (hlo : lo ≤ lo')
    (hK : ∀ x : Nat, x < lo → K.get? x = F.get? x) (hnext : lo' ≤ next)
    (hu : K.Sprouts G lo' next u) {f : Plant} (hf : F.Holds f) (times : Nat) :
    ((Builtin.applyTimes f.id times u.id).run G).Meets next
      (fun r next' => ∃ w : Plant, r.1 = w.id ∧ K.Sprouts r.2 lo' next' w ∧
        w.shape = (Shape.applied f.shape)^[times] u.shape)
      fun _ => False := by
  induction times generalizing u G next with
  | zero => exact .pure ⟨u, rfl, hu, rfl⟩
  | succ times ih =>
    rw [Builtin.applyTimes, StateT.run_bind]
    refine (meets_copyOf_of_holds hF (fun x hx => (hu.below x (by lia)).trans (hK x hx))
      (by lia) hf).bind ?_
    rintro ⟨_, H⟩ mid hmid ⟨v, rfl, hv, hvs⟩
    obtain ⟨hu', hv'⟩ := hu.trans hv hnext hmid
    rw [StateT.run_bind]
    refine (meets_apply hv' hu' (fun x hx hx' =>
      Forest.disjoint_of_grown hu.grown hv.grown x hx' hx) (Nat.le_trans hnext hmid)).bind ?_
    rintro ⟨_, I⟩ next' hnext' ⟨w, rfl, hw, hws⟩
    rw [Function.iterate_succ_apply, ← hvs, ← hws, hvs]
    exact ih (by lia) hw

/-- A call of `repeat` is finished by a lambda around the applications of the function. -/
theorem meets_repeated (hF : F.Stocked lo) {e : Effect} {call : Node} {count : NodeId}
    {times : Int64} {f : Plant} {taken : List String} (hcall : F.get? e.node = some call)
    (hcount : e.arguments[0]? = some count) (htimes : F.number count = .ok times)
    (hfunction : e.arguments[1]? = some f.id) (hf : F.Holds f)
    (htaken : F.variableNames f.id = .ok taken) :
    ((Builtin.repeated e).run F).Meets lo
      (fun r next' => ∃ w : Plant, r.1 = w.id ∧ F.Sprouts r.2 lo next' w ∧
        w.shape = .lambda (nameOutside taken)
          ((Shape.applied f.shape)^[times.toInt.toNat] (.var (nameOutside taken))))
      fun _ => False := by
  have harg0 : call.argument e.arguments 0 = .ok count := by rw [Node.argument, hcount]
  have harg1 : call.argument e.arguments 1 = .ok f.id := by rw [Node.argument, hfunction]
  simp only [Builtin.repeated, StateT.run_bind, run_find hcall, StateT.run_get,
    run_liftM_ok harg0, run_liftM_ok htimes, run_liftM_ok harg1, run_liftM_ok htaken, run_newId,
    run_insert, bind_assoc, pure_bind]
  refine .take_bind (.take_bind ?_)
  generalize nameOutside taken = name
  -- the binder and the variable sprout, then the applications around the variable
  have hbinder : F.Sprouts (F.insert (Node.withField { id := lo, kind := .binder } "name"
      (.text name))) lo (lo + 1) (.mk _ []) :=
    Forest.sprouts_insert (Nat.le_refl _) (Nat.lt_succ_self _) rfl rfl rfl
      (Node.formed_withField rfl rfl (by decide) (by decide) rfl) rfl
  have hvar : (F.insert (Node.withField { id := lo, kind := .binder } "name" (.text name))).Sprouts
      ((F.insert (Node.withField { id := lo, kind := .binder } "name" (.text name))).insert
        (Node.withField { id := lo + 1, kind := .var } "name" (.text name))) (lo + 1) (lo + 2)
      (.mk _ []) :=
    Forest.sprouts_insert (Nat.le_refl _) (Nat.lt_succ_self _) rfl rfl rfl
      (Node.formed_withField rfl rfl (by decide) (by decide) rfl) rfl
  refine (meets_applyTimes hF (Nat.le_succ lo) hbinder.below (Nat.le_succ _) hvar hf
    times.toInt.toNat).bind ?_
  rintro ⟨_, G⟩ next hnext ⟨w, rfl, hw, hws⟩
  obtain ⟨hbinder', hw'⟩ := hbinder.trans hw (Nat.le_succ lo) (by lia)
  have hd := Forest.disjoint_of_grown hbinder.grown hw.grown
  have hne : lo ≠ w.id := fun e => hd lo (Plant.id_mem_ids _) (e ▸ w.id_mem_ids)
  have hget : G.get? (Node.withField { id := lo, kind := .binder } "name" (.text name)).id =
      some (Node.withField { id := lo, kind := .binder } "name" (.text name)) :=
    hbinder'.held.get?_id
  refine .take_bind ?_
  dsimp only
  rw [run_fill hget, pure_bind, run_fill (m := w.root), pure_bind]
  · refine .pure ⟨_, rfl, hbinder'.pair hw' hd (by lia) (Nat.le_refl _) (Nat.lt_succ_self _) ?_ rfl
      rfl ?_ rfl, ?_⟩
    · simp [Node.withSlot, Slots.set, Slots.put]
    · exact Node.formed_of_slots rfl rfl
    · simp [Plant.shape_mk, hws, Shape.lambda, Shape.binder, Shape.var, Node.withSlot, Slots.set,
        Slots.put, Slots.names, Node.withField]
  · exact (Forest.get?_insert ..).trans ((if_neg hne).trans hw'.held.get?_id)

/-! ### Joining arrays -/

/-- Copies of plants, one after the other, each pointed at the slot of its position. -/
theorem meets_copiesInto (hF : F.Stocked lo) (hlo : lo ≤ next)
    (hG : ∀ x : Nat, x < lo → G.get? x = F.get? x) (holder : NodeId)
    {elements : List (NodeId × Nat)} {ts : List Plant}
    (hts : List.Forall₂ (fun e t => F.Holds t ∧ t.id = e.1) elements ts) :
    ((elements.mapM fun e => do
        let c ← copyOf e.1
        attach c holder (elementSlot e.2)
        return (elementSlot e.2, c) : Editing (List (String × NodeId))).run G).Meets next
      (fun r next' => ∃ us : List Plant, (∀ x : Nat, x < next → r.2.get? x = G.get? x) ∧
        r.1.map Prod.fst = elements.map (fun e => elementSlot e.2) ∧
        List.Forall₂ (fun e u => u.id = e.2 ∧ u.root.parent = some holder ∧
          u.root.parentSlot = some e.1) r.1 us ∧
        (∀ u ∈ us, r.2.Holds u ∧ u.Grown next next') ∧ (us.flatMap Plant.ids).Nodup ∧
        next + us.length ≤ next' ∧ us.map Plant.shape = ts.map Plant.shape)
      fun _ => False := by
  induction hts generalizing G next with
  | nil => exact .pure ⟨[], fun _ _ => rfl, rfl, .nil, by simp, by simp, Nat.le_refl _, rfl⟩
  | @cons e t elements ts ht _ ih =>
    rw [List.mapM_cons, StateT.run_bind, StateT.run_bind, bind_assoc, ← ht.2]
    refine (meets_copyOf_of_holds hF hG hlo ht.1).bind ?_
    rintro ⟨_, H⟩ mid hmid ⟨u, rfl, hu, hshape⟩
    have hid := hu.grown.lt _ u.id_mem_ids
    have hid' := hu.grown.le _ u.id_mem_ids
    rw [StateT.run_bind, run_attach hu.held.get?_id, pure_bind, StateT.run_pure, pure_bind,
      StateT.run_bind]
    have hH : ∀ x : Nat, x < next →
        (H.insert (u.root.heldBy holder (elementSlot e.2))).get? x = G.get? x := by
      intro x hx
      rw [Forest.get?_insert, if_neg (by simp; lia), hu.below x hx]
    have hlomid : lo ≤ mid := by lia
    refine (ih hlomid fun x hx => (hH x (by lia)).trans (hG x hx)).bind ?_
    rintro ⟨entries, I⟩ next' hnext' ⟨us, hI, hnames, hlinks, hus, hnodup, hcount, hshapes⟩
    have hu' := (hu.held.heldBy hu.grown.nodup holder (elementSlot e.2)).congr
      (G := I) fun x hx => hI x (hu.grown.lt x (by simpa using hx))
    refine .pure ⟨u.heldBy holder (elementSlot e.2) :: us,
      fun x hx => (hI x (by lia)).trans (hH x hx), ?_, .cons ⟨rfl, rfl, rfl⟩ hlinks, ?_, ?_, ?_, ?_⟩
    · simpa using hnames
    · intro v hv
      rcases List.mem_cons.1 hv with rfl | hv
      · exact ⟨hu', (hu.grown.heldBy _ _).mono (Nat.le_refl _) hnext'⟩
      · exact ⟨(hus v hv).1, (hus v hv).2.mono hmid (Nat.le_refl _)⟩
    · rw [List.flatMap_cons, List.nodup_append]
      refine ⟨(hu.grown.heldBy _ _).nodup, hnodup, fun a ha b hb e => ?_⟩
      obtain ⟨v, hv, hb⟩ := List.mem_flatMap.1 hb
      have hlt := (hu.grown.heldBy _ _).lt a ha
      have hle := (hus v hv).2.le b hb
      lia
    · rw [List.length_cons]
      lia
    · rw [List.map_cons, List.map_cons, Plant.shape_heldBy, hshape, hshapes]

/-- Different plants are joined to an array of copies. -/
theorem meets_joined (hF : F.Stocked lo) {ts : List Plant} (hn : (ts.map Plant.id).Nodup)
    (hts : ∀ t ∈ ts, F.Holds t) :
    ((Builtin.joined (ts.map Plant.id)).run F).Meets lo
      (fun r next' => ∃ w : Plant, r.1 = w.id ∧ F.Sprouts r.2 lo next' w ∧
        w.shape = .array (ts.map Plant.shape))
      fun _ => False := by
  have hcount : ts.length ≤ lo := by
    have hsub : ts.map Plant.id ⊆ List.range lo := by
      intro x hx
      obtain ⟨t, ht, rfl⟩ := List.mem_map.1 hx
      exact List.mem_range.2 (hF.lt (hts t ht).get?_id)
    simpa using (List.subperm_of_subset hn hsub).length_le
  simp only [Builtin.joined, StateT.run_bind, run_newId, bind_assoc, pure_bind]
  refine .take_bind ?_
  have hzip : List.Forall₂ (fun e t => F.Holds t ∧ t.id = e.1) (ts.map Plant.id).zipIdx ts := by
    rw [List.forall₂_iff_get]
    refine ⟨by simp, fun i _ hi => ⟨hts _ (List.get_mem ..), by simp⟩⟩
  refine (meets_copiesInto (G := F) hF (Nat.le_succ _) (fun _ _ => rfl) lo hzip).bind ?_
  rintro ⟨entries, G⟩ next hnext ⟨us, hG, hnames, hlinks, hus, hnodup, hlen, hshapes⟩
  have hus' : us.length = ts.length := by
    simpa using congrArg List.length hshapes
  have hslots : entries.map Prod.fst = (List.range ts.length).map elementSlot := by
    have hrange : (ts.map Plant.id).zipIdx.map (fun e => elementSlot e.2) =
        ((ts.map Plant.id).zipIdx.map Prod.snd).map elementSlot := by
      rw [List.map_map]
      rfl
    rw [hnames, hrange, List.zipIdx_map_snd, List.range_eq_range', List.length_map]
  have hentries : (Slots.ofList entries).entries = entries := by
    refine Slots.entries_ofList ?_
    rw [hslots]
    exact List.nodup_range.map elementSlot_injective
  have hlo : lo ∉ us.flatMap Plant.ids := by
    intro hx
    obtain ⟨u, hu, hx⟩ := List.mem_flatMap.1 hx
    have := (hus u hu).2.le lo hx
    lia
  refine .pure ⟨.mk _ us, rfl, Forest.sprouts_insert_above (fun x hx => hG x (by lia))
    (fun u hu => (hus u hu).1) (fun u hu => (hus u hu).2.mono (Nat.le_succ _) (Nat.le_refl _))
    hnodup hlo (Nat.le_refl _) hnext ?_ rfl rfl ?_ rfl, ?_⟩
  · rw [Node.Carries]
    show List.Forall₂ _ (Slots.ofList entries).entries us
    rw [hentries]
    exact hlinks
  · rw [List.length_map]
    refine Node.formed_array ?_ (.inr (by lia))
    rw [Slots.names, hentries, hslots]
  · rw [Plant.shape_mk, hshapes, Shape.array, List.length_map]
    show Shape.mk _ _ (Slots.ofList entries).names _ = _
    rw [Slots.names, hentries, hslots, List.length_map]
    rfl

/-! ### Supplying an argument -/

/-- A copy of a named function sprouts whose first hole is filled with a copy of the argument. -/
theorem meets_supplyArgument (hF : F.Stocked lo) {f v : Plant} (hf : F.Holds f)
    (hk : f.root.kind = .reference) (hv : F.Holds v) :
    ((supplyArgument f.root v.id).run F).Meets lo
      (fun r next' => ∃ w : Plant, r.1 = w.id ∧ F.Sprouts r.2 lo next' w ∧
        w.shape = .mk .reference f.root.fields f.root.slots.names
          (Shape.fill (f.parts.map Plant.shape) [v.shape]))
      fun _ => F.openParameter? f.root = none := by
  obtain ⟨hnodup, hlt, hformed⟩ := hF.of_holds hf
  rw [supplyArgument, StateT.run_bind]
  refine Meets.bind (E := fun _ => F.openParameter? f.root = none)
    ((meets_copy hf hnodup hformed).imp (fun _ _ _ h => h) nofun) ?_
  rintro ⟨_, G⟩ mid hmid ⟨u, rfl, hu, hshape⟩
  have hopen := hf.openParameter?_of_shape_eq hu.held hshape
  rw [StateT.run_bind, StateT.run_get, pure_bind]
  dsimp only
  cases hslot : G.openParameter? u.root with
  | none =>
    rw [hslot] at hopen
    refine .throw ?_
    simpa using hopen.symm
  | some open' =>
    obtain ⟨slot, hole⟩ := open'
    dsimp only
    rw [StateT.run_bind]
    refine Meets.bind (E := fun _ => F.openParameter? f.root = none)
      ((meets_copyOf_of_holds hF hu.below hmid hv).imp (fun _ _ _ h => h) nofun) ?_
    rintro ⟨_, H⟩ next hnext ⟨w, rfl, hw, hwshape⟩
    obtain ⟨hu', hw'⟩ := hu.trans hw hmid hnext
    have hd := Forest.disjoint_of_grown hu.grown hw.grown
    rw [StateT.run_bind, run_fill hw'.held.get?_id, pure_bind]
    have hgrown := hu'.grown.withPart hw'.grown hd
      (Slots.mem_names_iff.2 ⟨_, Forest.get?_of_openParameter? hslot⟩)
    have hulo := hu'.grown.le _ u.id_mem_ids
    have hwlo := hw'.grown.le _ w.id_mem_ids
    obtain ⟨hkind, hfields, hnames, hparts⟩ := Plant.root_of_shape_eq hshape
    refine .pure ⟨u.withPart slot w, rfl, ⟨fun x hx => ?_, ?_, hgrown, hu.free⟩, ?_⟩
    · show ((H.insert (w.root.heldBy u.id slot)).insert (u.root.withSlot slot w.id)).get? x = _
      rw [Forest.get?_insert, if_neg (by simp; lia), Forest.get?_insert, if_neg (by simp; lia),
        hu'.below x hx]
    · have hnodup := hgrown.nodup
      rw [Plant.withPart, Plant.ids_mk, List.nodup_append] at hnodup
      refine Forest.holds_insert (hgrown.joined _ (Plant.mem_subs_self _)).children (fun p hp => ?_)
        fun hx => hnodup.2.2 _ hx _ List.mem_cons_self rfl
      rcases Plant.mem_partsWith hp with rfl | hp
      · exact hw'.held.heldBy hw'.grown.nodup u.id slot
      · have hsub := Plant.mem_subs_of_mem_parts hp
        refine (hu'.held.of_mem_subs hsub).insert_of_notMem fun hx => ?_
        exact hd w.id (Plant.ids_subset_of_mem_subs hsub hx) w.id_mem_ids
    · rw [Plant.shape_withPart hu.held (hkind.trans hk) (hu.grown.formed.root) hslot, hfields,
        hnames, hparts, hwshape]

end Editing

end TermForest
