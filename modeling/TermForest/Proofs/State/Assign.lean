import TermForest.Proofs.Safety
import TermForest.Proofs.State.Areas

/-!
# Assigning definitions

Moving a definition assigns its name: the name then leads to a locked copy of what was moved, and every
other name to what it led to before, also where several definitions carry one name. The moved tree and
that of the definition which the name led to are dropped; nothing else is.
-/

namespace TermForest

open Supply (Meets)

/-! ### Looking up names -/

/-- The node of an id if it defines a name. -/
def Forest.defining? (F : Forest) (name : String) (x : NodeId) : Option Node :=
  (F.get? x).filter fun n => n.kind = .define ∧ n.name? = some name

namespace Forest

variable {F : Forest} {name : String} {x : NodeId} {n : Node}

theorem defining?_eq_some_iff :
    F.defining? name x = some n ↔
      F.get? x = some n ∧ n.kind = .define ∧ n.name? = some name := by
  simp [defining?, Option.filter_eq_some_iff]

/-- A node defines no name but its own. -/
theorem defining?_eq_none (h : F.get? x = some n) {name' : String} (hn : n.name? = some name')
    (hne : name ≠ name') : F.defining? name x = none := by
  rw [Option.eq_none_iff_forall_ne_some]
  intro m hm
  obtain ⟨hget, -, hname⟩ := defining?_eq_some_iff.1 hm
  obtain rfl := Option.some.inj (h.symm.trans hget)
  exact hne (Option.some.inj (hname.symm.trans hn))

/-- A plant that is added stays when something else is dropped. -/
theorem holds_insertAll_eraseAll (F : Forest) {u : Plant} (hj : u.Joined) (hn : u.ids.Nodup)
    {gone : List NodeId} (hgone : ∀ y ∈ u.ids, y ∉ gone) :
    ((F.insertAll u.nodes).eraseAll gone).Holds u :=
  (holds_insertAll hj hn).congr fun y hy => by
    rw [get?_eraseAll, if_neg (hgone y hy)]

end Forest

namespace State

variable {s s' : State} {next next' : Nat} {name : String} {d c : Node}

theorem definition?_eq_findSome? (s : State) (name : String) :
    s.definition? name = s.defs.findSome? (s.nodes.defining? name) := by
  unfold definition?
  induction s.defs with
  | nil => rfl
  | cons r defs ih =>
    rw [List.findSome?_cons, List.filterMap_cons, Forest.defining?]
    cases hr : s.nodes.get? r with
    | none => exact ih
    | some n =>
      dsimp only
      rw [List.find?_cons, Option.filter_some]
      cases decide (n.kind = .define ∧ n.name? = some name)
      · exact ih
      · rfl

/-- A name leads to the first definition that carries it. -/
theorem definition?_eq_some_iff :
    s.definition? name = some d ↔ ∃ before after, s.defs = before ++ d.id :: after ∧
      s.nodes.defining? name d.id = some d ∧ ∀ r ∈ before, s.nodes.defining? name r = none := by
  rw [definition?_eq_findSome?, List.findSome?_eq_some_iff]
  constructor
  · rintro ⟨before, r, after, hdefs, hd, hbefore⟩
    obtain rfl := Forest.id_of_get? (Forest.defining?_eq_some_iff.1 hd).1
    exact ⟨before, after, hdefs, hd, hbefore⟩
  · rintro ⟨before, after, hdefs, hd, hbefore⟩
    exact ⟨before, d.id, after, hdefs, hd, hbefore⟩

/-- The definition `d` has been moved, and `c` is its copy. -/
structure Assigns (s : State) (next : Nat) (d : Node) (name : String) (s' : State) (c : Node) :
    Prop where
  /-- The name leads to the copy. -/
  assigned : s'.definition? name = some c
  shape : sameShape s.nodes d.id s'.nodes c.id = .ok true
  fresh : ∀ x : Nat, s'.nodes.RootOf x c.id → next ≤ x
  locked : ∀ x n, s'.nodes.get? x = some n → s'.nodes.RootOf x c.id → n.locked = true
  /-- Every other name leads to the node that it led to before. -/
  others : ∀ name', name' ≠ name → s'.definition? name' = s.definition? name'
  moved : ∀ x, s.nodes.RootOf x d.id → s'.nodes.get? x = none
  replaced : ∀ old, s.definition? name = some old →
    ∀ x, s.nodes.RootOf x old.id → s'.nodes.get? x = none
  /-- The other trees stay. -/
  kept : ∀ r, r ≠ d.id → (∀ old, s.definition? name = some old → r ≠ old.id) →
    s.nodes.KeepsTree s'.nodes r
  /-- Nothing comes in but the copy. -/
  new : ∀ x n, s'.nodes.get? x = some n → s.nodes.get? x = none → s'.nodes.RootOf x c.id
  board : s'.board = s.board.filter (· ≠ d.id)
  appended : s.definition? name = none → s'.defs = s.defs ++ [c.id]
  inPlace : ∀ old, s.definition? name = some old → ∃ before after,
    s.defs = before ++ old.id :: after ∧ s'.defs = before ++ c.id :: after
  rest : s'.toolbox = s.toolbox ∧ s'.goal = s.goal ∧ s'.level = s.level ∧ s'.mode = s.mode

/-! ### The move -/

/-- Moving a definition adds a locked copy of it, and drops its tree and that of the definition which
its name leads to. -/
theorem Kept.meets_assign (h : s.Kept next) (S : Signature) {t : Plant} (ht : s.nodes.Holds t)
    (hboard : t.id ∈ s.board) (hk : t.root.kind = .define) (hname : t.root.name? = some name) :
    (s.moveToDefs S t.id).Meets next
      (fun o next' => ∃ (u : Plant) (gone : List NodeId), t.CloneOf true next next' u ∧ u.Free ∧
        (∀ x, x ∈ gone ↔ s.nodes.RootOf x t.id ∨
          ∃ old, s.definition? name = some old ∧ s.nodes.RootOf x old.id) ∧
        o = some { s with
          nodes := (s.nodes.insertAll u.nodes).eraseAll gone
          board := s.board.filter (· ≠ t.id)
          defs := match s.definition? name with
            | some old => s.defs.map fun r => if r = old.id then u.id else r
            | none => s.defs ++ [u.id]
          added := u.ids
          removed := [] })
      fun _ => False := by
  obtain ⟨t', hid, ht', hnodup, hids⟩ := h.partitioned.exists_plant (mem_roots_of_board hboard)
  obtain rfl := ht.unique ht' hid.symm
  unfold moveToDefs
  rw [if_neg (not_not.2 hboard), Supply.liftM_fault_ok (Forest.find_eq_ok_iff.2 ht.get?_id),
    pure_bind, if_neg (not_not.2 hk)]
  refine Meets.bind (.liftSupply ((ht.copy hnodup true next).imp (fun _ _ _ hc => hc) nofun)) ?_
  rintro ⟨_, below, G⟩ next' - ⟨u, rfl, hforest, hu, hfree⟩
  obtain rfl : G = _ := hforest
  have hout : ∀ {gone : List NodeId}, (∀ x ∈ gone, ∃ r, s.nodes.RootOf x r) →
      ∀ x ∈ u.ids, x ∉ gone := by
    intro gone hgone x hx hmem
    obtain ⟨r, hr⟩ := hgone x hmem
    obtain ⟨n, hn⟩ := hr.exists_get?
    exact absurd (h.lt x n hn) (Nat.not_lt.2 (hu.le x hx))
  have hmoved : uproot (s.nodes.insertAll u.nodes) s.nodes t.id =
      .ok ((s.nodes.insertAll u.nodes).eraseAll t.ids) := by
    rw [uproot, ht.idsUnder hnodup]
    rfl
  rw [Supply.liftM_fault_ok hmoved, pure_bind, hname, Option.bind_some]
  cases hold : s.definition? name with
  | none =>
    have hheld := s.nodes.holds_insertAll_eraseAll hu.joined hu.nodup
      (hout fun x hx => ⟨_, (hids x).1 hx⟩)
    dsimp only
    rw [pure_bind, Plant.id_root, Supply.liftM_fault_ok (hheld.idsUnder hu.nodup), pure_bind]
    exact .pure ⟨u, t.ids, hu, hfree, fun x => by simp [hids], rfl⟩
  | some old =>
    obtain ⟨q, hqid, hq, hqnodup, hqids⟩ := h.partitioned.exists_plant
      (mem_roots_iff.2 (.inr (.inr (.inl (mem_defs_of_definition? hold).1))))
    have hreplaced : uproot ((s.nodes.insertAll u.nodes).eraseAll t.ids) s.nodes old.id =
        .ok ((s.nodes.insertAll u.nodes).eraseAll (t.ids ++ q.ids)) := by
      rw [uproot, ← hqid, hq.idsUnder hqnodup]
      exact congrArg Except.ok List.foldl_append.symm
    have hmem : ∀ x, x ∈ t.ids ++ q.ids ↔ s.nodes.RootOf x t.id ∨ s.nodes.RootOf x old.id :=
      fun x => by rw [List.mem_append, hids, hqids]
    have hheld := s.nodes.holds_insertAll_eraseAll hu.joined hu.nodup
      (hout fun x hx => ((hmem x).1 hx).elim (fun hx => ⟨_, hx⟩) fun hx => ⟨_, hx⟩)
    dsimp only
    rw [Supply.liftM_fault_ok hreplaced, pure_bind, pure_bind, Plant.id_root,
      Supply.liftM_fault_ok (hheld.idsUnder hu.nodup), pure_bind]
    exact .pure ⟨u, t.ids ++ q.ids, hu, hfree, fun x => by simp [hmem], rfl⟩

/-! ### What it comes to -/

/-- An item that stands once in a list is replaced in its place. -/
theorem map_replace_append {before after : List NodeId} {a : NodeId} (b : NodeId)
    (hn : (before ++ a :: after).Nodup) :
    ((before ++ a :: after).map fun r => if r = a then b else r) = before ++ b :: after := by
  have hne : ∀ {l : List NodeId}, a ∉ l → (l.map fun r => if r = a then b else r) = l := fun hl =>
    (List.map_congr_left fun r hr => if_neg fun e : r = a => hl (e ▸ hr)).trans (List.map_id _)
  rw [List.nodup_append, List.nodup_cons] at hn
  rw [List.map_append, List.map_cons, if_pos rfl, hne fun hmem => hn.2.2 a hmem a List.mem_cons_self rfl,
    hne hn.2.1.1]

/-- The new definition stands in the place of the one that its name led to, or behind all others. -/
theorem exists_defs (hn : s.defs.Nodup) (name : String) (x : NodeId) :
    ∃ before after, s.defs = before ++ ((s.definition? name).map Node.id).toList ++ after ∧
      (match s.definition? name with
        | some old => s.defs.map fun r => if r = old.id then x else r
        | none => s.defs ++ [x]) = before ++ x :: after ∧
      ∀ r ∈ before, s.nodes.defining? name r = none := by
  cases hold : s.definition? name with
  | none =>
    rw [definition?_eq_findSome?, List.findSome?_eq_none_iff] at hold
    exact ⟨s.defs, [], by simp, rfl, hold⟩
  | some old =>
    obtain ⟨before, after, hdefs, -, hbefore⟩ := definition?_eq_some_iff.1 hold
    refine ⟨before, after, by simpa using hdefs, ?_, hbefore⟩
    dsimp only
    rw [hdefs, map_replace_append x (hdefs ▸ hn)]

/-- A definition that comes into the list in the place of one of its name, or behind all of its name,
is what the name leads to, and other names lead to what they led to before. -/
theorem definition?_of_defs {before after : List NodeId} {old : Option NodeId}
    (hdefs : s.defs = before ++ old.toList ++ after) (hdefs' : s'.defs = before ++ c.id :: after)
    (hsame : ∀ r ∈ before ++ after, s'.nodes.get? r = s.nodes.get? r)
    (hold : ∀ r ∈ old, ∃ n, s.nodes.get? r = some n ∧ n.name? = some name)
    (hbefore : ∀ r ∈ before, s.nodes.defining? name r = none)
    (hc : s'.nodes.get? c.id = some c) (hk : c.kind = .define) (hname : c.name? = some name) :
    s'.definition? name = some c ∧
      ∀ name', name' ≠ name → s'.definition? name' = s.definition? name' := by
  have hsame' : ∀ m, ∀ r ∈ before ++ after, s'.nodes.defining? m r = s.nodes.defining? m r :=
    fun m r hr => by rw [Forest.defining?, hsame r hr, Forest.defining?]
  constructor
  · refine definition?_eq_some_iff.2 ⟨before, after, hdefs',
      Forest.defining?_eq_some_iff.2 ⟨hc, hk, hname⟩, fun r hr => ?_⟩
    exact (hsame' name r (List.mem_append_left _ hr)).trans (hbefore r hr)
  · intro name' hne
    have hnone : old.toList.findSome? (s.nodes.defining? name') = none := by
      rw [List.findSome?_eq_none_iff]
      intro r hr
      obtain ⟨n, hn, hname⟩ := hold r (Option.mem_toList.1 hr)
      exact Forest.defining?_eq_none hn hname hne
    rw [definition?_eq_findSome?, definition?_eq_findSome?, hdefs, hdefs', List.findSome?_append,
      List.findSome?_append, List.findSome?_append, List.findSome?_cons, hnone, Option.or_none,
      Forest.defining?_eq_none hc hname hne]
    congr 1
    · exact findSome?_congr fun r hr => hsame' name' r (List.mem_append_left _ hr)
    · exact findSome?_congr fun r hr => hsame' name' r (List.mem_append_right _ hr)

namespace Kept

variable {t u : Plant} {gone : List NodeId}

/-- A copy that comes in for what is dropped assigns the name. -/
theorem assigns_of_copy (h : s.Kept next) (h' : s'.Kept next') (ht : s.nodes.Holds t)
    (hboard : t.id ∈ s.board) (hk : t.root.kind = .define) (hname : t.root.name? = some name)
    (hu : t.CloneOf true next next' u) (hfree : u.Free)
    (hgone : ∀ x, x ∈ gone ↔ s.nodes.RootOf x t.id ∨
      ∃ old, s.definition? name = some old ∧ s.nodes.RootOf x old.id)
    (hnodes : s'.nodes = (s.nodes.insertAll u.nodes).eraseAll gone)
    (hdefs : s'.defs = match s.definition? name with
      | some old => s.defs.map fun r => if r = old.id then u.id else r
      | none => s.defs ++ [u.id])
    (hboard' : s'.board = s.board.filter (· ≠ t.id))
    (hrest : s'.toolbox = s.toolbox ∧ s'.goal = s.goal ∧ s'.level = s.level ∧ s'.mode = s.mode) :
    s.Assigns next t.root name s' u.root := by
  have hfresh : ∀ x ∈ u.ids, s.nodes.get? x = none := fun x hx =>
    Forest.Kept.get?_eq_none h (hu.le x hx)
  have hthere : ∀ x ∈ gone, ∃ n, s.nodes.get? x = some n := fun x hx =>
    ((hgone x).1 hx).elim (·.exists_get?) fun ⟨_, _, hx⟩ => hx.exists_get?
  have hout : ∀ x ∈ u.ids, x ∉ gone := fun x hx hmem => by
    obtain ⟨n, hn⟩ := hthere x hmem
    rw [hfresh x hx] at hn
    cases hn
  have hheld : s'.nodes.Holds u := hnodes ▸ s.nodes.holds_insertAll_eraseAll hu.joined hu.nodup hout
  have hroot : ∀ x, s'.nodes.RootOf x u.id → x ∈ u.ids := fun x hx =>
    (h'.linked.mem_ids_iff hheld x).2 hx.2
  have hdropped : ∀ x ∈ gone, s'.nodes.get? x = none := fun x hx => by
    rw [hnodes, Forest.get?_eraseAll, if_pos hx]
  have hsame : ∀ x, (∃ n, s.nodes.get? x = some n) → x ∉ gone →
      s'.nodes.get? x = s.nodes.get? x := by
    rintro x ⟨n, hn⟩ hx
    rw [hn, hnodes, Forest.get?_eraseAll, if_neg hx]
    exact Forest.get?_insertAll_of_get? hfresh hn
  obtain ⟨hkind, hfields, -⟩ := Plant.root_of_shape_eq hu.shape
  have hname' : u.root.name? = some name := by
    rw [← hname, Node.name?, Node.name?, Node.text?, Node.text?, Node.field?, Node.field?, hfields]
  obtain ⟨before, after, hlist, hlist', hbefore⟩ := exists_defs h.nodup_areas.1.2.2.1 name u.id
  have hkeep : ∀ r ∈ before ++ after, s'.nodes.get? r = s.nodes.get? r := by
    intro r hr
    have hmem : r ∈ s.defs := by
      rw [hlist]
      grind
    obtain ⟨n, hn, -⟩ := h.defines r hmem
    have hself := Forest.Kept.rootOf_self h (h.defs_subset hmem)
    refine hsame r ⟨n, hn⟩ fun hr' => ?_
    rcases (hgone r).1 hr' with hx | ⟨old, hold, hx⟩
    · exact h.board_notMem_defs hboard (hself.unique hx ▸ hmem)
    · -- no definition stands twice
      have hnodup := h.nodup_areas.1.2.2.1
      rw [hlist, hold, Option.map_some, Option.toList_some, ← hself.unique hx] at hnodup
      grind
  obtain ⟨hassigned, hothers⟩ := definition?_of_defs hlist (hdefs.trans hlist') hkeep
    (fun r hr => by
      obtain ⟨old, hold, rfl⟩ := Option.map_eq_some_iff.1 hr
      obtain ⟨-, -, -, hdefines, -⟩ := definition?_eq_some_iff.1 hold
      obtain ⟨hget, -, hcarries⟩ := Forest.defining?_eq_some_iff.1 hdefines
      exact ⟨old, hget, hcarries⟩) hbefore hheld.get?_id (hkind.trans hk) hname'
  constructor
  case assigned => exact hassigned
  case shape =>
    obtain ⟨same, hok, hiff⟩ :=
      ht.sameShape ((h.linked.hung h.lt).nodup_ids ht) hheld hu.nodup
    exact hok.trans (congrArg _ (hiff.2 hu.shape.symm))
  case fresh => exact fun x hx => hu.le x (hroot x hx)
  case locked =>
    intro x n hn hx
    obtain ⟨v, hv, rfl⟩ := Plant.mem_ids_iff.1 (hroot x hx)
    obtain rfl := Option.some.inj (hn.symm.trans (hheld.of_mem_subs hv).get?_id)
    exact hu.locked _ (Plant.mem_nodes_iff.2 ⟨v, hv, rfl⟩)
  case others => exact hothers
  case moved => exact fun x hx => hdropped x ((hgone x).2 (.inl hx))
  case replaced => exact fun old hold x hx => hdropped x ((hgone x).2 (.inr ⟨old, hold, hx⟩))
  case kept =>
    intro r hr hr' x hx
    refine hsame x hx.exists_get? fun hmem => ?_
    rcases (hgone x).1 hmem with hx' | ⟨old, hold, hx'⟩
    · exact hr (hx.unique hx')
    · exact hr' old hold (hx.unique hx')
  case new =>
    intro x n hn hx
    rw [hnodes, Forest.get?_eraseAll_eq_some_iff] at hn
    rcases Forest.get?_insertAll_cases hu.nodup hn.2 with ⟨v, hv, rfl, -⟩ | hn
    · exact hheld.rootOf hu.joined hfree (Plant.mem_ids_iff.2 ⟨v, hv, rfl⟩)
    · cases hx.symm.trans hn
  case board => exact hboard'
  case appended =>
    intro hnone
    rw [hdefs, hnone]
    rfl
  case inPlace =>
    intro old hold
    rw [hold] at hlist
    exact ⟨before, after, by simpa using hlist, hdefs.trans hlist'⟩
  case rest => exact hrest

end Kept

/-- In a well-formed state the move of a definition that stands on the board succeeds and assigns its
name. -/
theorem WellFormed.assigns (h : s.WellFormed next) (g : Game) (hd : s.nodes.get? d.id = some d)
    (hboard : d.id ∈ s.board) (hk : d.kind = .define) :
    ∃ name s' c next', d.name? = some name ∧
      (g.obey s (.moveToDefs d.id)).runFrom next = (.ok (some s'), next') ∧
      s.Assigns next d name s' c := by
  have hkept := h.kept
  obtain ⟨name, hname, -⟩ := (h.nodes _ _ hd).toHasFields.exists_name (by rw [hk]; decide)
  obtain ⟨t, rfl, ht, -⟩ := hkept.linked.exists_plant hd
  obtain ⟨_, next', hrun, -, u, gone, hu, hfree, hgone, rfl⟩ :=
    (hkept.meets_assign g.signature ht hboard hk hname).exists_ok
  have hkept' := ((hkept.meets_moveToDefs g.signature _).of_ok hrun).2 _ rfl
  exact ⟨name, _, u.root, next', hname, hrun,
    hkept.assigns_of_copy hkept' ht hboard hk hname hu hfree hgone rfl rfl rfl ⟨rfl, rfl, rfl, rfl⟩⟩

/-- A game whose level has a definition on the board of a name that is defined twice. -/
def redefining : Game where
  levels := ⟨[{
    board := [.define "k" (.number 1)]
    defs := [.define "k" (.number 2), .define "m" (.number 3), .define "k" (.number 4)] }]⟩

theorem distinct_redefining : redefining.levels.Distinct := by
  simp [LevelFile.Distinct, redefining, Level.terms, Term.define, Term.number, Term.withSlot,
    Term.withField, Term.ofTag, Term.parts, Term.tag, Terms.set, Term.Distinct, Terms.Distinct,
    Kind.tag]

/-- Of two definitions of one name the first is replaced. -/
theorem assigns_redefining : ∃ session d s' c next', redefining.start 0 = .ok session ∧
    session.present.WellFormed session.next ∧ session.present.defs = [3, 5, 7] ∧
    (redefining.obey session.present (.moveToDefs 1)).runFrom session.next =
      (.ok (some s'), next') ∧ session.present.Assigns session.next d "k" s' c := by
  obtain ⟨session, hstart, hwell⟩ := Session.exists_wellFormed_start 0
    Signature.tagsReferences_standard distinct_redefining (by decide +kernel)
  have hareas : (redefining.start 0).toOption.map (fun session =>
      (session.present.board, session.present.defs)) = some ([1], [3, 5, 7]) := by
    decide +kernel
  have hnode : (redefining.start 0).toOption.bind (fun session =>
      (session.present.nodes.get? 1).map fun d => (d.kind, d.name?)) =
        some (.define, some "k") := by
    decide +kernel
  rw [hstart] at hareas hnode
  have hboard : session.present.board = [1] := congrArg Prod.fst (Option.some.inj hareas)
  have hdefs : session.present.defs = [3, 5, 7] := congrArg Prod.snd (Option.some.inj hareas)
  obtain ⟨d, hd, hnode⟩ := Option.map_eq_some_iff.1 hnode
  obtain ⟨hkind, hname⟩ := Prod.ext_iff.1 hnode
  have hid : d.id = 1 := Forest.id_of_get? hd
  have hmem : d.id ∈ session.present.board := by
    rw [hid, hboard]
    decide
  obtain ⟨name, s', c, next', hcarries, hobey, hassigns⟩ :=
    WellFormed.assigns hwell redefining (hid.symm ▸ hd) hmem hkind
  obtain rfl := Option.some.inj (hname.symm.trans hcarries)
  rw [hid] at hobey
  exact ⟨session, d, s', c, next', hstart, hwell, hdefs, hobey, hassigns⟩

end State

end TermForest
