import TermForest.Proofs.Forest.Extend
import TermForest.Proofs.Rule.Check
import TermForest.Rule.Reduce

/-!
# Rules extend the forest by a root

Whatever a rule makes of a node of a hung forest, its result hangs at a root of a new id, and the
older nodes stay as they are. This takes for granted that the rule gives a result, but not that the
nodes have the fields and slots of their kinds. Literals that the rules make have their fields.
-/

namespace TermForest

open Supply (Meets)

/-- `G` extends `F` and has a root of a new id. -/
structure Forest.AddsRoot (F G : Forest) (lo next r : Nat) : Prop where
  extension : F.Extends G lo next
  le : lo ≤ r
  isRoot : G.IsRoot r

namespace Forest

variable {F G H : Forest} {lo next next' r : Nat} {n : Node}

theorem Gains.addsRoot (h : F.Gains G H lo next next' n) (hlo : lo ≤ next) :
    F.AddsRoot H lo next' n.id :=
  ⟨h.extension, Nat.le_trans hlo h.le, h.isRoot⟩

/-- A new node without slots is a new root. -/
theorem Hung.addsRoot_insert (hF : F.Hung lo) {n : Node} (hid : n.id = lo)
    (hs : n.slots.entries = []) (hp : n.parent = none) (hf : n.HasFields) :
    F.AddsRoot (F.insert n) lo (lo + 1) n.id := by
  have hle : lo ≤ n.id := Nat.le_of_eq hid.symm
  refine ⟨?_, hle, n, get?_insert_self .., hp⟩
  exact ((Extends.refl hF).mono (Nat.le_succ lo)).insert_leaf hle (hF.get?_eq_none hle) (by lia) hp hs
    (hF.admits hle hf hs)

theorem AddsRoot.lt (h : F.AddsRoot G lo next r) : r < next := by
  obtain ⟨n, hn, -⟩ := h.isRoot
  exact h.extension.hung.lt r n hn

/-- A root stays one when the nodes are kept. -/
theorem AddsRoot.of_keeps (h : F.AddsRoot G lo next r) (hH : F.Extends H lo next')
    (hkeeps : G.Keeps H) : F.AddsRoot H lo next' r :=
  ⟨hH, h.le, hkeeps.isRoot h.isRoot⟩

end Forest

namespace Supply.Meets

variable {ε α β : Type} {next : Nat} {Q : β → Nat → Prop}

/-- A part that only reads gives what it reads. -/
theorem read_bind {x : Except ε α} {f : α → Supply ε β}
    (h : ∀ a, x = .ok a → (f a).Meets next Q fun _ => True) :
    ((liftM x : Supply ε α) >>= f).Meets next Q fun _ => True := by
  refine Meets.bind (Q := fun a next' => next = next' ∧ x = .ok a)
    (.lift (fun _ ha => ⟨rfl, ha⟩) fun _ _ => trivial) ?_
  rintro a _ - ⟨rfl, ha⟩
  exact h a ha

theorem readFault_bind {x : Except Fault α} {f : α → Supply Failure β}
    (h : ∀ a, x = .ok a → (f a).Meets next Q fun _ => True) :
    ((liftM x : Supply Failure α) >>= f).Meets next Q fun _ => True := by
  refine Meets.bind (Q := fun a next' => next = next' ∧ x = .ok a)
    (.liftFault (fun _ ha => ⟨rfl, ha⟩) fun _ _ => trivial) ?_
  rintro a _ - ⟨rfl, ha⟩
  exact h a ha

end Supply.Meets

namespace Editing

variable {F G : Forest} {lo next : Nat}

/-! ### Applications -/

theorem addsRoot_apply {a b : Nat} (ha : F.AddsRoot G lo next a) (hb : F.AddsRoot G lo next b)
    (hne : a ≠ b) (hlo : lo ≤ next) :
    ((apply a b).run G).Meets next
      (fun o next' => F.AddsRoot o.2 lo next' o.1 ∧ next ≤ o.1 ∧
        ∀ x : Nat, x < next → x ≠ a → x ≠ b → o.2.get? x = G.get? x) fun _ => True := by
  obtain ⟨h, hloa, m, hm, hmp⟩ := ha
  obtain ⟨-, hlob, k, hk, hkp⟩ := hb
  have hget : (G.insert (m.heldBy next "callee")).get? b = some k := by
    rw [Forest.get?_insert, Node.id_heldBy, Forest.id_of_get? hm, if_neg hne, hk]
  simp only [apply, StateT.run_bind, run_newId, bind_assoc, pure_bind]
  refine .take_bind ?_
  rw [run_fill hm, pure_bind, run_fill hget, pure_bind, run_insert, pure_bind]
  refine .pure ⟨⟨h.pair hm hk hmp hkp hne hloa hlob rfl hlo rfl ?_
    (by decide : ¬Kind.apply.IsLiteral), hlo, _, Forest.get?_insert_self .., rfl⟩, Nat.le_refl _,
    fun x hx hxa hxb => ?_⟩
  · simp [Node.withSlot, Slots.set, Slots.put]
  · obtain rfl := Forest.id_of_get? hm
    obtain rfl := Forest.id_of_get? hk
    exact (Forest.get?_insert_of_ne (Nat.ne_of_lt hx)).trans
      ((Forest.get?_insert_of_ne (n := k.heldBy next "argument") hxb).trans
        (Forest.get?_insert_of_ne (n := m.heldBy next "callee") hxa))

/-! ### Unfolding a definition -/

theorem addsRoot_unfolding (hF : F.Hung lo) (d : Node) (arguments : List NodeId) :
    ((State.unfolding d arguments).run F).Meets lo
      (fun o next' => F.AddsRoot o.2 lo next' o.1) fun _ => True := by
  have hloop : ∀ (arguments : List NodeId) (G : Forest) (next callee : Nat), lo ≤ next →
      F.AddsRoot G lo next callee →
      ((arguments.foldlM
        (fun callee argument => do Editing.apply callee (← Editing.copyOf argument))
        callee : Editing NodeId).run G).Meets next
        (fun o next' => F.AddsRoot o.2 lo next' o.1) fun _ => True := by
    intro arguments
    induction arguments with
    | nil => exact fun G next callee _ h => .pure h
    | cons a arguments ih =>
      intro G next callee hlo h
      rw [List.foldlM_cons, StateT.run_bind, StateT.run_bind, bind_assoc]
      refine (gains_copyOf h.extension hlo a).bind ?_
      rintro ⟨_, H⟩ mid hmid ⟨n, rfl, hn⟩
      have hlt := h.lt
      have hle := hn.le
      refine (addsRoot_apply (h.of_keeps hn.extension (hn.keeps h.extension.hung))
        (hn.addsRoot hlo) (by lia) (by lia)).bind ?_
      rintro ⟨r, I⟩ next' hnext ⟨hr, -⟩
      exact ih I next' r (by lia) hr
  rw [State.unfolding, StateT.run_bind]
  refine read_bind fun body _ => ?_
  rw [StateT.run_bind]
  refine (gains_copyOf (.refl hF) (Nat.le_refl _) body).bind ?_
  rintro ⟨_, G⟩ next hnext ⟨n, rfl, hn⟩
  exact hloop arguments G next n.id hnext (hn.addsRoot (Nat.le_refl _))

/-! ### Repeating a function -/

theorem addsRoot_applyTimes (function : NodeId) (times : Nat) {body : Nat} (hlo : lo ≤ next)
    (h : F.AddsRoot G lo next body) :
    ((Builtin.applyTimes function times body).run G).Meets next
      (fun o next' => F.AddsRoot o.2 lo next' o.1 ∧ (o.1 = body ∨ next ≤ o.1) ∧
        ∀ x : Nat, x < next → x ≠ body → o.2.get? x = G.get? x) fun _ => True := by
  induction times generalizing G next body with
  | zero => exact .pure ⟨h, .inl rfl, fun _ _ _ => rfl⟩
  | succ times ih =>
    rw [Builtin.applyTimes, StateT.run_bind]
    refine (gains_copyOf h.extension hlo function).bind ?_
    rintro ⟨_, H⟩ mid hmid ⟨n, rfl, hn⟩
    have hlt := h.lt
    have hle := hn.le
    rw [StateT.run_bind]
    refine (addsRoot_apply (hn.addsRoot hlo) (h.of_keeps hn.extension
      (hn.keeps h.extension.hung)) (by lia) (by lia)).bind ?_
    rintro ⟨r, I⟩ next' hnext ⟨hr, hmidr, hsame⟩
    refine (ih (by lia) hr).imp (fun o next'' _ ho => ?_) fun _ => id
    obtain ⟨ho, hcases, hsame'⟩ := ho
    refine ⟨ho, .inr ?_, fun x hx hxb => ?_⟩
    · rcases hcases with rfl | hle' <;> lia
    · rw [hsame' x (by lia) (by lia), hsame x (by lia) (by lia) hxb, hn.older x hx]

theorem addsRoot_repeated (hF : F.Hung lo) (e : Effect) :
    ((Builtin.repeated e).run F).Meets lo
      (fun o next' => F.AddsRoot o.2 lo next' o.1) fun _ => True := by
  simp only [Builtin.repeated, StateT.run_bind, StateT.run_get, pure_bind]
  refine find_bind fun call _ => ?_
  refine read_bind fun count _ => ?_
  refine read_bind fun times _ => ?_
  refine read_bind fun function _ => ?_
  refine read_bind fun names _ => ?_
  simp only [run_newId, run_insert, bind_assoc, pure_bind]
  refine .take_bind (.take_bind ?_)
  generalize nameOutside names = name
  -- the binder and the variable are roots, and so is what is applied to the variable
  have hnone := hF.get?_eq_none (Nat.le_refl lo)
  have hbinder : F.Extends (F.insert (Node.withField { id := lo, kind := .binder } "name"
      (.text name))) lo (lo + 1) :=
    (Forest.Extends.refl hF).mono (Nat.le_succ lo) |>.insert_leaf (Nat.le_refl _) hnone
      (Nat.lt_succ_self _) rfl rfl
      (Forest.admits_of_not_literal (by decide : ¬Kind.binder.IsLiteral))
  have hvar := (hbinder.mono (Nat.le_succ _)).insert_leaf
    (n := Node.withField { id := lo + 1, kind := .var } "name" (.text name)) (Nat.le_succ _)
    (hbinder.hung.get?_eq_none (Nat.le_refl _)) (Nat.lt_succ_self _) rfl rfl
    (Forest.admits_of_not_literal (by decide : ¬Kind.var.IsLiteral))
  refine (addsRoot_applyTimes function times.toInt.toNat (by lia)
    ⟨hvar, Nat.le_succ lo, _, Forest.get?_insert_self .., rfl⟩).bind ?_
  rintro ⟨body, G⟩ next hnext ⟨hbody, hcases, hsame⟩
  have hget : G.get? (Node.withField { id := lo, kind := .binder } "name" (.text name)).id =
      some (Node.withField { id := lo, kind := .binder } "name" (.text name)) := by
    have hlt := Nat.ne_of_lt (Nat.lt_succ_self lo)
    refine (hsame lo (by lia) hlt).trans ?_
    exact (Forest.get?_insert_of_ne hlt).trans (Forest.get?_insert_self ..)
  have hne : lo ≠ body := by
    rcases hcases with rfl | hle
    · exact Nat.ne_of_lt (Nat.lt_succ_self lo)
    · lia
  obtain ⟨h, hlobody, m, hm, hmp⟩ := hbody
  have hlonext : lo ≤ next := by lia
  refine .take_bind ?_
  dsimp only
  rw [run_fill hget, pure_bind, run_fill (m := m) ((Forest.get?_insert ..).trans
    ((if_neg hne).trans hm)), pure_bind]
  refine .pure ⟨h.pair hget hm rfl hmp hne (Nat.le_refl _) hlobody rfl hlonext rfl ?_
    (by decide : ¬Kind.lambda.IsLiteral), hlonext, _, Forest.get?_insert_self .., rfl⟩
  simp [Node.withSlot, Slots.set, Slots.put]

/-! ### Joining arrays -/

/-- Copies of terms, one after the other, each pointed at the slot of its position. -/
theorem extends_copiesInto {holder : Nat} (hlo : lo ≤ next) (hholder : holder < next)
    (h : F.Extends G lo next) (hnone : G.get? holder = none) (elements : List (NodeId × Nat)) :
    ((elements.mapM fun e => do
        let c ← copyOf e.1
        attach c holder (elementSlot e.2)
        return (elementSlot e.2, c) : Editing (List (String × NodeId))).run G).Meets next
      (fun o next' => F.Extends o.2 lo next' ∧
        (∀ x : Nat, x < next → o.2.get? x = G.get? x) ∧
        o.1.map Prod.fst = elements.map (fun e => elementSlot e.2) ∧ o.2.PointsTo holder o.1)
      fun _ => True := by
  induction elements generalizing G next with
  | nil => exact .pure ⟨h, fun _ _ => rfl, rfl, nofun⟩
  | cons e elements ih =>
    rw [List.mapM_cons, StateT.run_bind, StateT.run_bind, bind_assoc]
    refine (gains_copyOf h hlo e.1).bind ?_
    rintro ⟨_, H⟩ mid hmid ⟨n, rfl, hn⟩
    have hle := hn.le
    rw [StateT.run_bind, run_attach hn.get, pure_bind, StateT.run_pure, pure_bind,
      StateT.run_bind]
    have hnone' : H.get? holder = none := (hn.older holder hholder).trans hnone
    have hH := hn.extension.heldBy (elementSlot e.2) hn.get (by lia)
      (show holder < mid by lia) (.inl hn.parent) fun _ m hm => nomatch hnone'.symm.trans hm
    have hnone'' : (H.insert (n.heldBy holder (elementSlot e.2))).get? holder = none :=
      (Forest.get?_insert_of_ne (n := n.heldBy holder (elementSlot e.2))
        (show holder ≠ n.id by lia)).trans hnone'
    refine (ih (by lia) (by lia) hH hnone'').bind ?_
    rintro ⟨entries, I⟩ next' hnext ⟨hI, hsame, hnames, hpoints⟩
    refine .pure ⟨hI, fun x hx => ?_, ?_, fun e' he' => ?_⟩
    · rw [hsame x (by lia), Forest.get?_insert, if_neg (by simp; lia), hn.older x hx]
    · simpa using hnames
    · rcases List.mem_cons.1 he' with rfl | he'
      · refine ⟨n.heldBy holder (elementSlot e.2), ?_, rfl, rfl⟩
        rw [hsame n.id (hn.extension.hung.lt _ n hn.get), Forest.get?_insert]
        exact if_pos rfl
      · exact hpoints e' he'

theorem addsRoot_joined (hF : F.Hung lo) (elements : List NodeId) :
    ((Builtin.joined elements).run F).Meets lo
      (fun o next' => F.AddsRoot o.2 lo next' o.1) fun _ => True := by
  simp only [Builtin.joined, StateT.run_bind, run_newId, bind_assoc, pure_bind]
  refine .take_bind ?_
  have hnone := hF.get?_eq_none (Nat.le_refl lo)
  refine (extends_copiesInto (Nat.le_succ lo) (Nat.lt_succ_self lo)
    ((Forest.Extends.refl hF).mono (Nat.le_succ lo)) hnone elements.zipIdx).bind ?_
  rintro ⟨entries, G⟩ next hnext ⟨hG, hsame, hnames, hpoints⟩
  have hslots : entries.map Prod.fst = (elements.zipIdx.map Prod.snd).map elementSlot := by
    rw [hnames, List.map_map]
    rfl
  have hentries : (Slots.ofList entries).entries = entries := by
    refine Slots.entries_ofList ?_
    rw [hslots, List.zipIdx_map_snd]
    exact (List.nodup_range' ..).map elementSlot_injective
  have hnew : G.get? lo = none := (hsame lo (Nat.lt_succ_self lo)).trans hnone
  refine .pure ⟨hG.insert_above (Nat.le_refl _) (by simp; lia) hnew rfl ?_
    (Forest.admits_of_not_literal (by decide : ¬Kind.array.IsLiteral)), Nat.le_refl _, _,
    Forest.get?_insert_self .., rfl⟩
  show G.PointsTo lo (Slots.ofList entries).entries
  rwa [hentries]

/-! ### Renaming -/

/-- Edits of occurrences keep the parents of nodes. The subtree stands where it stood, or is a root of
a new id. -/
theorem extends_editOccurrences (hF : F.Hung lo) {id : Nat} (hid : lo ≤ id) (hlo : lo ≤ next)
    (h : F.Extends G lo next) (name : String) {edit : Node → Editing Node}
    (hedit : Extending edit F lo) :
    ((editOccurrences id name edit).run G).Meets next
      (fun o next' => F.Extends o.2 lo next' ∧ G.Keeps o.2 ∧
        ((∃ n, G.get? id = some n) ∧ o.1 = id ∨ next ≤ o.1 ∧ o.2.IsRoot o.1))
      fun _ => True := by
  have hr : Extending (fun n => if n.kind = .var ∧ n.name? = some name then edit n else return n)
      F lo := by
    intro n G next hlo hG
    dsimp only
    split
    · exact hedit n G next hlo hG
    · exact .pure (.inl ⟨rfl, rfl, rfl, rfl, rfl, rfl, fun h => h⟩)
  simp only [editOccurrences, StateT.run_bind, StateT.run_get, pure_bind, Revision.run]
  refine read_bind fun hidden _ => ?_
  rw [bind_assoc]
  exact (Revision.extending hF hr _ _ _ _ [] hid hlo h).bind fun o next' _ ho => .pure ho

theorem extending_rename (F : Forest) (lo : Nat) (name : String) :
    Extending (fun n => return n.withField "name" (.text name)) F lo :=
  fun _ _ _ _ _ => .pure (.inl ⟨rfl, rfl, rfl, rfl, rfl, rfl, fun h => h.withName name⟩)

theorem extending_copy (F : Forest) (lo : Nat) (argument : NodeId) :
    Extending (fun _ => copy argument) F lo :=
  fun _ _ _ hlo hG => (gains_copy hG hlo argument false).imp (fun _ _ _ => .inr) fun _ => id

theorem extends_renameLambda (hF : F.Hung lo) {lambda : Nat} (hl : lo ≤ lambda) (hlo : lo ≤ next)
    (h : F.Extends G lo next) (name : String) :
    ((renameLambda lambda name).run G).Meets next
      (fun o next' => F.Extends o.2 lo next' ∧ G.Keeps o.2) fun _ => True := by
  simp only [renameLambda, StateT.run_bind]
  refine find_bind fun n hn => ?_
  refine read_bind fun arg harg => ?_
  refine find_bind fun binder hbinder => ?_
  refine read_bind fun old _ => ?_
  refine read_bind fun body hbody => ?_
  have hchild : ∀ {slot : String} {c : Nat}, n.needSlot slot = .ok c → lo ≤ c := fun hc =>
    h.le_of_mem_children hF hn hl (Slots.mem_children_iff.2 ⟨_, Node.needSlot_eq_ok_iff.1 hc⟩)
  refine (extends_editOccurrences hF (hchild hbody) hlo h old (extending_rename F lo name)).bind ?_
  rintro ⟨_, H⟩ next' hnext ⟨hH, hkeeps, -⟩
  -- the binder comes back as it was read, under its new name
  obtain rfl := Forest.id_of_get? hbinder
  obtain ⟨m, hm, hp, hs, hk⟩ := hkeeps _ binder hbinder
  have hpoints : H.PointsTo binder.id binder.slots.entries :=
    hkeeps.pointsTo (h.hung.pointsTo hbinder)
  obtain ⟨hI, hkeeps'⟩ := hH.replace (n := binder.withField "name" (.text name)) hm (hchild harg)
    hp.symm hs.symm hk.symm (fun hF => ((h.plain hF).nodes _ binder hbinder).withName name) hpoints
  exact .pure ⟨hI, hkeeps.trans hkeeps'⟩

theorem extends_freshenBinders (hF : F.Hung lo) {id : Nat} (hid : lo ≤ id) (hlo : lo ≤ next)
    (h : F.Extends G lo next) (name : String) (free taken : List String) :
    ((freshenBinders id name free taken).run G).Meets next
      (fun o next' => F.Extends o.2 lo next' ∧ G.Keeps o.2) fun _ => True := by
  have hloop : ∀ (lambdas : List Node) (taken : List String) (H : Forest) (next : Nat),
      lo ≤ next → F.Extends H lo next → (∀ n ∈ lambdas, lo ≤ n.id) →
      ((lambdas.foldlM (fun taken lambda => do
          let replacement := nameOutside taken
          renameLambda lambda.id replacement
          return replacement :: taken) taken : Editing (List String)).run H).Meets next
        (fun o next' => F.Extends o.2 lo next' ∧ H.Keeps o.2) fun _ => True := by
    intro lambdas
    induction lambdas with
    | nil => exact fun taken H next _ hH _ => .pure ⟨hH, .refl H⟩
    | cons n lambdas ih =>
      intro taken H next hlo hH hmem
      rw [List.foldlM_cons, StateT.run_bind, StateT.run_bind, bind_assoc]
      refine (extends_renameLambda hF (hmem n List.mem_cons_self) hlo hH _).bind ?_
      rintro ⟨_, I⟩ mid hmid ⟨hI, hkeeps⟩
      refine (ih _ I mid (by lia) hI fun n hn => hmem n (List.mem_cons_of_mem _ hn)).imp ?_
        fun _ h => h
      exact fun o next' _ ⟨ho, hkeeps'⟩ => ⟨ho, hkeeps.trans hkeeps'⟩
  simp only [freshenBinders, StateT.run_bind, StateT.run_get, pure_bind]
  refine read_bind fun names _ => ?_
  refine read_bind fun capturing hcapturing => ?_
  refine (hloop capturing _ G next hlo h fun n hn => ?_).bind fun o next' _ ho => .pure ho
  obtain ⟨result, hresult, -⟩ := bind_eq_ok_iff.1 (show (G.tree id).select _ _ = _ from hcapturing)
  obtain ⟨t, rfl, ht, hshows⟩ := Forest.exists_plant_of_selectOnto hresult
  rw [show G.findAll t.id _ = _ from hshows.select _, Except.ok.injEq] at hcapturing
  rw [← hcapturing] at hn
  exact h.le_of_mem_ids hF ht hid _
    (Plant.mem_ids_iff_nodes.2 ⟨n, List.mem_of_mem_filter hn, rfl⟩)

/-! ### Application -/

theorem addsRoot_applyLambda (hF : F.Hung lo) (lambda : Node) (argument : NodeId) :
    ((applyLambda lambda argument).run F).Meets lo
      (fun o next' => F.AddsRoot o.2 lo next' o.1) fun _ => True := by
  simp only [applyLambda, StateT.run_bind, StateT.run_get, pure_bind]
  refine read_bind fun arg _ => ?_
  refine find_bind fun binder _ => ?_
  refine read_bind fun name _ => ?_
  refine read_bind fun body _ => ?_
  refine (gains_copyOf (.refl hF) (Nat.le_refl _) body).bind ?_
  rintro ⟨_, G⟩ next hnext ⟨n, rfl, hn⟩
  have hroot := hn.addsRoot (Nat.le_refl _)
  -- the argument is put in once the binders of the copy are in order
  have hsubstitute : ∀ (H : Forest) (mid : Nat), lo ≤ mid → F.AddsRoot H lo mid n.id →
      ((editOccurrences n.id name fun _ => copy argument).run H).Meets mid
        (fun o next' => F.AddsRoot o.2 lo next' o.1) fun _ => True := by
    intro H mid hmid hH
    refine (extends_editOccurrences hF hH.le hmid hH.extension name
      (extending_copy F lo argument)).imp (fun o next' _ ⟨ho, hkeeps, hcases⟩ => ?_) fun _ => id
    rcases hcases with ⟨-, he⟩ | ⟨hle, hroot⟩
    · exact he ▸ hH.of_keeps ho hkeeps
    · exact ⟨ho, by lia, hroot⟩
  refine read_bind fun free _ => ?_
  split
  · simp only [StateT.run_bind]
    refine read_bind fun names _ => ?_
    refine (extends_freshenBinders hF hroot.le hnext hroot.extension name free names).bind ?_
    rintro ⟨_, H⟩ mid hmid ⟨hH, hkeeps⟩
    exact hsubstitute H mid (by lia) (hroot.of_keeps hH hkeeps)
  · exact hsubstitute G next hnext hroot

theorem addsRoot_supplyArgument (hF : F.Hung lo) (reference : Node) (argument : NodeId) :
    ((supplyArgument reference argument).run F).Meets lo
      (fun o next' => F.AddsRoot o.2 lo next' o.1) fun _ => True := by
  rw [supplyArgument, StateT.run_bind]
  refine (gains_copy (.refl hF) (Nat.le_refl _) reference.id false).bind ?_
  rintro ⟨function, G⟩ next hnext hfunction
  simp only [StateT.run_bind, StateT.run_get, pure_bind]
  split
  · exact .throw trivial
  · next slot hole hopen =>
    rw [StateT.run_bind]
    refine (gains_copyOf hfunction.extension hnext argument).bind ?_
    rintro ⟨_, H⟩ next' hnext' ⟨bound, rfl, hbound⟩
    have hlt := hfunction.extension.hung.lt _ function hfunction.get
    have hlo := hfunction.le
    have hne : function.id ≠ bound.id := by
      have := hbound.le
      lia
    have hget : H.get? function.id = some function := by
      rw [hbound.older _ hlt, hfunction.get]
    simp only [StateT.run_bind, run_fill hbound.get, pure_bind, run_insert]
    -- the copy of the function holds the copy of the argument in place of the hole
    have hlit : ∀ {K : Forest} {m : Node}, K.Plain → K.get? function.id = some m →
        m.slots = function.slots → ¬m.kind.IsLiteral := fun hK hm hslots =>
      (hK.nodes _ _ hm).not_literal (hslots ▸ Forest.get?_of_openParameter? hopen)
    have hI := hbound.extension.heldBy slot hbound.get (by have := hbound.le; lia)
      (show function.id < next' by lia) (.inl hbound.parent) fun hH m hm =>
        hlit hH hm (congrArg Node.slots (Option.some.inj (hm.symm.trans hget)))
    have hgetI : (H.insert (bound.heldBy function.id slot)).get? function.id = some function :=
      (Forest.get?_insert_of_ne (n := bound.heldBy function.id slot) hne).trans hget
    have hpoints : (H.insert (bound.heldBy function.id slot)).PointsTo function.id
        (function.withSlot slot bound.id).slots.entries := by
      intro e he
      have hget' := Slots.get?_eq_some_iff.2 he
      rw [Node.withSlot, Slots.get?_set] at hget'
      split at hget'
      · next hslot =>
        rw [Option.some.injEq] at hget'
        rw [← hget', hslot]
        exact ⟨_, Forest.get?_insert_self .., rfl, rfl⟩
      · exact hI.hung.held _ function e.1 e.2 hgetI hget'
    obtain ⟨hJ, -⟩ := hI.replace (n := function.withSlot slot bound.id) hgetI hlo rfl rfl rfl
      (fun hF => Node.plain_of_not_literal (n := function.withSlot slot bound.id)
        (hlit (m := function) (hI.plain hF) hgetI rfl)) hpoints
    exact .pure ⟨hJ, hlo, _, Forest.get?_insert_self .., hfunction.parent⟩

end Editing

/-! ### Literals that the rules make -/

namespace Node

theorem hasFields_ofBool (id : NodeId) (b : Bool) : (ofBool id b).HasFields := by
  have h : (ofBool id b).Formed 0 := formed_withField rfl rfl (by decide) (by decide) rfl
  exact h.toHasFields

theorem hasFields_ofInt (id : NodeId) (i : Int64) : (ofInt id i).HasFields := by
  have h : (ofInt id i).Formed 0 := formed_withField rfl rfl (by decide) (by decide) rfl
  exact h.toHasFields

theorem hasFields_ofText (id : NodeId) (s : String) : (ofText id s).HasFields := by
  have h : (ofText id s).Formed 0 := formed_withField rfl rfl (by decide) (by decide) rfl
  exact h.toHasFields

end Node

/-! ### All rules -/

/-- What replaces a node is a new root beside the older nodes. -/
def Outcome.AddsRoot (F : Forest) (lo hi : Nat) : Outcome → Prop
  | .replaced w => F.AddsRoot w.forest lo hi w.root
  | .deferred _ | .noRule => True

namespace State

variable {s : State} {lo : Nat}

theorem addsRoot_replaceBy {ε : Type} (hF : s.nodes.Hung lo) (f : NodeId → Node)
    (hid : (f lo).id = lo) (hs : (f lo).slots.entries = []) (hp : (f lo).parent = none)
    (hf : (f lo).HasFields) :
    (do let id ← Supply.take; return s.replaceBy (f id) : Supply ε Outcome).Meets lo
      (fun o hi => o.AddsRoot s.nodes lo hi) fun _ => True :=
  .take_bind (.pure (hF.addsRoot_insert hid hs hp hf))

theorem addsRoot_replaceByEdit {edit : Editing NodeId}
    (h : (edit.run s.nodes).Meets lo (fun o hi => s.nodes.AddsRoot o.2 lo hi o.1) fun _ => True) :
    (s.replaceByEdit edit).Meets lo (fun o hi => o.AddsRoot s.nodes lo hi) fun _ => True := by
  rw [replaceByEdit, Editing.replacement, bind_assoc]
  exact h.bind fun _ _ _ ho => .pure ho

theorem addsRoot_calculate (hF : s.nodes.Hung lo) (n : Node) (op : Operator) (l r : Node) :
    (reduceBinop.calculate s n op l r).Meets lo (fun o hi => o.AddsRoot s.nodes lo hi)
      fun _ => True := by
  rw [reduceBinop.calculate]
  refine .readFault_bind fun a _ => ?_
  refine .readFault_bind fun b _ => ?_
  split
  · exact addsRoot_replaceBy hF (fun id => .ofBool id _) rfl rfl rfl (Node.hasFields_ofBool ..)
  · exact addsRoot_replaceBy hF (fun id => .ofBool id _) rfl rfl rfl (Node.hasFields_ofBool ..)
  · split
    · exact addsRoot_replaceBy hF (fun id => .ofInt id _) rfl rfl rfl (Node.hasFields_ofInt ..)
    · exact .throw trivial

theorem addsRoot_reduceBinop (hF : s.nodes.Hung lo) (n : Node) :
    (s.reduceBinop n).Meets lo (fun o hi => o.AddsRoot s.nodes lo hi) fun _ => True := by
  rw [reduceBinop]
  refine .readFault_bind fun op _ => ?_
  refine .readFault_bind fun left _ => ?_
  refine .readFault_bind fun right _ => ?_
  refine .readFault_bind fun l _ => ?_
  refine .readFault_bind fun r _ => ?_
  split
  · refine .readFault_bind fun same _ => ?_
    exact addsRoot_replaceBy hF (fun id => .ofBool id _) rfl rfl rfl (Node.hasFields_ofBool ..)
  · refine .readFault_bind fun same _ => ?_
    exact addsRoot_replaceBy hF (fun id => .ofBool id _) rfl rfl rfl (Node.hasFields_ofBool ..)
  · split
    · refine .readFault_bind fun first _ => ?_
      refine .readFault_bind fun last _ => ?_
      exact addsRoot_replaceBy hF (fun id => .ofText id _) rfl rfl rfl (Node.hasFields_ofText ..)
    · exact addsRoot_calculate hF n .add l r
  · exact addsRoot_calculate hF n _ l r
  · exact .throw trivial

theorem addsRoot_reduceApply (hF : s.nodes.Hung lo) (n : Node) :
    (s.reduceApply n).Meets lo (fun o hi => o.AddsRoot s.nodes lo hi) fun _ => True := by
  rw [reduceApply]
  refine .read_bind fun callee _ => .read_bind fun argument _ => .read_bind fun f _ => ?_
  split
  · exact addsRoot_replaceByEdit (Editing.addsRoot_applyLambda hF f argument)
  · exact addsRoot_replaceByEdit (Editing.addsRoot_supplyArgument hF f argument)
  · exact .pure trivial

/-- A copy of a subtree of the forest. -/
theorem addsRoot_replaceByCopy (hF : s.nodes.Hung lo) (id : NodeId) :
    (s.replaceByEdit (Editing.copyOf id)).Meets lo (fun o hi => o.AddsRoot s.nodes lo hi)
      fun _ => True := by
  refine addsRoot_replaceByEdit ((Editing.gains_copyOf (.refl hF) (Nat.le_refl _) id).imp ?_
    fun _ h => h)
  rintro ⟨_, G⟩ hi - ⟨n, rfl, hn⟩
  exact hn.addsRoot (Nat.le_refl _)

theorem addsRoot_reduceConditional (hF : s.nodes.Hung lo) (n : Node) :
    (s.reduceConditional n).Meets lo (fun o hi => o.AddsRoot s.nodes lo hi) fun _ => True := by
  rw [reduceConditional]
  exact .read_bind fun _ _ => .read_bind fun _ _ => .read_bind fun _ _ => .read_bind fun branch _ =>
    addsRoot_replaceByCopy hF branch

theorem addsRoot_reduceNot (hF : s.nodes.Hung lo) (n : Node) :
    (s.reduceNot n).Meets lo (fun o hi => o.AddsRoot s.nodes lo hi) fun _ => True := by
  rw [reduceNot]
  exact .read_bind fun _ _ => .read_bind fun _ _ => .read_bind fun _ _ =>
    addsRoot_replaceBy hF (fun id => .ofBool id _) rfl rfl rfl (Node.hasFields_ofBool ..)

theorem addsRoot_reduceMember (hF : s.nodes.Hung lo) (n : Node) :
    (s.reduceMember n).Meets lo (fun o hi => o.AddsRoot s.nodes lo hi) fun _ => True := by
  rw [reduceMember]
  exact .read_bind fun _ _ => .read_bind fun _ _ => .read_bind fun _ _ => .read_bind fun _ _ =>
    .read_bind fun element _ => addsRoot_replaceByCopy hF element

theorem addsRoot_applyBuiltin (hF : s.nodes.Hung lo) (b : Builtin) (most : Int64) (n : Node)
    (arguments : List NodeId) :
    (b.apply most s n arguments).Meets lo (fun o hi => o.AddsRoot s.nodes lo hi)
      fun _ => True := by
  cases b with
  | eat =>
    exact addsRoot_replaceBy hF (fun id => { id, kind := .void }) rfl rfl rfl
      ⟨List.forall_mem_nil _, nofun⟩
  | «repeat» =>
    rw [Builtin.apply]
    refine .readFault_bind fun count _ => .readFault_bind fun times _ => ?_
    split
    · exact .throw trivial
    · exact .pure trivial
  | length =>
    rw [Builtin.apply]
    exact .readFault_bind fun _ _ => .readFault_bind fun _ _ => .readFault_bind fun length _ =>
      addsRoot_replaceBy hF (fun id => .ofInt id length) rfl rfl rfl (Node.hasFields_ofInt ..)
  | concat =>
    rw [Builtin.apply]
    refine .readFault_bind fun _ _ => .readFault_bind fun _ _ => .readFault_bind fun _ _ =>
      .readFault_bind fun _ _ => ?_
    exact .liftSupply (addsRoot_replaceByEdit (Editing.addsRoot_joined hF _))

theorem addsRoot_reduceReference (hF : s.nodes.Hung lo) (S : Signature) (most : Int64) (n : Node) :
    (s.reduceReference S most n).Meets lo (fun o hi => o.AddsRoot s.nodes lo hi)
      fun _ => True := by
  rw [reduceReference]
  refine .readFault_bind fun name _ => ?_
  split
  · exact addsRoot_applyBuiltin hF ..
  · split
    · exact .throw trivial
    · exact .liftSupply (addsRoot_replaceByEdit (Editing.addsRoot_unfolding hF ..))

/-- Reducing a node adds a root to the forest, if it gives a replacement. -/
theorem addsRoot_reduce (hF : s.nodes.Hung lo) (S : Signature) (most : Int64) (n : Node) :
    (s.reduce S most n).Meets lo (fun o hi => o.AddsRoot s.nodes lo hi) fun _ => True := by
  unfold reduce
  split
  · exact .liftSupply (addsRoot_reduceApply hF n)
  · exact addsRoot_reduceBinop hF n
  · exact .liftSupply (addsRoot_reduceConditional hF n)
  · exact .liftSupply (addsRoot_reduceNot hF n)
  · exact .liftSupply (addsRoot_reduceMember hF n)
  · exact addsRoot_reduceReference hF S most n
  all_goals exact .pure trivial

end State

/-- Finishing a call adds a root to the forest. -/
theorem Signature.addsRoot_finish {F : Forest} {lo : Nat} (hF : F.Hung lo) (S : Signature)
    (e : Effect) :
    (S.finish F e).Meets lo (fun w hi => F.AddsRoot w.forest lo hi w.root) fun _ => True := by
  unfold finish
  split
  · exact .throw trivial
  · split
    · rw [Editing.replacement]
      exact (Editing.addsRoot_repeated hF e).bind fun _ _ _ ho => .pure ho
    · exact .throw trivial

end TermForest
