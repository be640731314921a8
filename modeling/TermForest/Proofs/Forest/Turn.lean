import Mathlib.Data.List.Flatten
import TermForest.Proofs.Forest.Revise

/-!
# Revisions, node after node

A revision whose edits leave links and slots alone goes through the nodes that it enters once, children
before parents. It hands over each of them with its children where they stand by then, and puts what it
is given above what has become of the children. This says what the forest holds at the end, whatever ids
the edits give, and that only an edit can make the revision fail.
-/

namespace TermForest

/-! ### Nodes that are entered -/

namespace Plant

mutual

/-- The nodes of a plant that are entered together with all nodes above them, children before
parents. -/
def entered (enters : Node → Bool) : Plant → List Node
  | .mk root parts => if enters root then enteredOf enters parts ++ [root] else []

/-- These nodes of some plants, one after the other. -/
def enteredOf (enters : Node → Bool) : List Plant → List Node
  | [] => []
  | t :: ts => t.entered enters ++ enteredOf enters ts

end

variable {enters : Node → Bool}

theorem enteredOf_eq_flatMap (ts : List Plant) :
    enteredOf enters ts = ts.flatMap (entered enters) := by
  induction ts with
  | nil => rfl
  | cons t ts ih => rw [enteredOf, ih, List.flatMap_cons]

theorem entered_mk (root : Node) (parts : List Plant) : (mk root parts).entered enters =
    if enters root then parts.flatMap (entered enters) ++ [root] else [] := by
  rw [entered, enteredOf_eq_flatMap]

/-- The nodes that are entered come in the order of the nodes of the plant. -/
theorem entered_sublist (t : Plant) : (t.entered enters).Sublist t.nodes := by
  induction t using induct with
  | step root parts ih =>
    rw [entered_mk, nodes_mk]
    split
    · exact (List.Sublist.flatMap_right parts ih).append (List.Sublist.refl _)
    · exact List.nil_sublist _

theorem id_mem_of_mem_entered {t : Plant} {n : Node} (h : n ∈ t.entered enters) : n.id ∈ t.ids :=
  mem_ids_iff_nodes.2 ⟨n, t.entered_sublist.subset h, rfl⟩

/-- In a plant that has no id twice no node is entered twice. -/
theorem nodup_entered {t : Plant} (h : t.ids.Nodup) : ((t.entered enters).map Node.id).Nodup :=
  h.sublist (t.map_id_nodes ▸ t.entered_sublist.map Node.id)

end Plant

/-! ### Turns -/

/-- Nodes that have been given for others, by the ids of those, the latest first. -/
abbrev Given : Type := List (NodeId × Node)

namespace Given

/-- The id under which a node stands once others have been given: that of the node given for it, if
there is one. -/
def movedTo (given : Given) (x : NodeId) : NodeId := ((given.lookup x).map Node.id).getD x

/-- The ids of the nodes that have been given. -/
def ids (given : Given) : List NodeId := given.map fun e => e.2.id

theorem lookup_eq_none_of_notMem {given : Given} {x : NodeId} (h : x ∉ given.map Prod.fst) :
    given.lookup x = none := by
  rw [List.lookup_eq_none_iff]
  intro e he
  simpa using fun hx : x = e.1 => h (hx ▸ List.mem_map_of_mem he)

/-- A node stays where it is while nothing is given for it. -/
theorem movedTo_of_notMem {given : Given} {x : NodeId} (h : x ∉ given.map Prod.fst) :
    given.movedTo x = x := by
  rw [movedTo, lookup_eq_none_of_notMem h]
  rfl

/-- What is given for other nodes does not move a node. -/
theorem movedTo_append_of_notMem {new given : Given} {x : NodeId} (h : x ∉ new.map Prod.fst) :
    movedTo (new ++ given) x = movedTo given x := by
  rw [movedTo, movedTo, List.lookup_append, lookup_eq_none_of_notMem h, Option.none_or]

end Given

/-- The same node with its children where they stand once nodes have been given. -/
def Node.redirected (n : Node) (given : Given) : Node :=
  { n with slots := n.slots.withChildren (n.slots.children.map given.movedTo) }

namespace Revision

/-- Edits a node, points its children at the node that is given for it, and puts that one in. -/
def turn (r : Revision) (given : Given) (n : Node) : Editing Given := do
  let m ← r.edit (n.redirected given)
  m.slots.entries.forM fun e => Editing.attach e.2 m.id e.1
  Editing.insert m
  return (n.id, m) :: given

/-- A moment in the course of a revision. -/
structure Stage where
  forest : Forest
  /-- What has been given so far. -/
  given : Given
  /-- The next id. -/
  next : Nat

/-- Editing some nodes one after the other leads from one moment to another. -/
def Proceeds (r : Revision) (s : Stage) (ns : List Node) (s' : Stage) : Prop :=
  ((ns.foldlM r.turn s.given).run s.forest).runFrom s.next = (.ok (s'.given, s'.forest), s'.next)

/-- Editing some nodes one after the other, a revision comes to one of them. -/
def ComesTo (r : Revision) (s : Stage) (ns : List Node) (n : Node) (s' : Stage) : Prop :=
  ∃ first rest, ns = first ++ n :: rest ∧ r.Proceeds s first s'

/-- What the edit does with a node that is handed over. -/
def answer (r : Revision) (s : Stage) (n : Node) : Except Fault (Node × Forest) × Nat :=
  ((r.edit (n.redirected s.given)).run s.forest).runFrom s.next

/-- An edit that succeeds, of a node that a revision of `F` comes to, leaves the forest alone. It
changes nothing of the node but its id, its fields and its lock. The id is that of the node or is not in
`F`, and has not been given before. -/
def EditsInPlace (r : Revision) (F : Forest) (s : Stage) (ns : List Node) : Prop :=
  ∀ n s', r.ComesTo s ns n s' → ∀ m G next, r.answer s' n = (.ok (m, G), next) →
    G = s'.forest ∧
      m = { n.redirected s'.given with id := m.id, fields := m.fields, locked := m.locked } ∧
      (m.id = n.id ∨ F.get? m.id = none) ∧ m.id ∉ s'.given.ids

/-- The edit fails at one of the nodes. -/
def FailsIn (r : Revision) (s : Stage) (ns : List Node) (e : Fault) (next : Nat) : Prop :=
  ∃ n s', r.ComesTo s ns n s' ∧ r.answer s' n = (.error e, next)

/-! ### The course of a revision -/

variable {r : Revision} {F : Forest} {s s₁ s' : Stage} {ns ms : List Node} {n m : Node} {G H : Forest}
  {e : Fault} {next : Nat}

theorem Proceeds.refl (r : Revision) (s : Stage) : r.Proceeds s [] s := rfl

theorem proceeds_append_iff :
    r.Proceeds s (ns ++ ms) s' ↔ ∃ s₁, r.Proceeds s ns s₁ ∧ r.Proceeds s₁ ms s' := by
  rw [Proceeds, List.foldlM_append, StateT.run_bind, Supply.runFrom_bind_eq_ok_iff]
  constructor
  · rintro ⟨⟨given, G⟩, next, h, h'⟩
    exact ⟨⟨G, given, next⟩, h, h'⟩
  · rintro ⟨s₁, h, h'⟩
    exact ⟨_, _, h, h'⟩

theorem Proceeds.append (h : r.Proceeds s ns s₁) (h' : r.Proceeds s₁ ms s') :
    r.Proceeds s (ns ++ ms) s' :=
  proceeds_append_iff.2 ⟨s₁, h, h'⟩

theorem proceeds_singleton_iff : r.Proceeds s [n] s' ↔
    ((r.turn s.given n).run s.forest).runFrom s.next = (.ok (s'.given, s'.forest), s'.next) := by
  simp only [Proceeds, List.foldlM_cons, List.foldlM_nil, bind_pure]

/-- A turn goes well if the edit does, and the children are there. -/
theorem proceeds_of_answer (h : r.answer s n = (.ok (m, G), next))
    (hattach : (m.slots.entries.forM fun e => Editing.attach e.2 m.id e.1).run G = pure ((), H)) :
    r.Proceeds s [n] ⟨H.insert m, (n.id, m) :: s.given, next⟩ := by
  rw [proceeds_singleton_iff, turn, StateT.run_bind, Supply.runFrom_bind, ← answer, h]
  simp only [StateT.run_bind, hattach, pure_bind, Editing.run_insert, StateT.run_pure,
    Supply.runFrom_pure]

/-- After a turn that goes well, what the edit has given is filed under the id of the node. -/
theorem Proceeds.exists_answer (h : r.Proceeds s [n] s') :
    ∃ m G next, r.answer s n = (.ok (m, G), next) ∧ s'.given = (n.id, m) :: s.given := by
  rw [proceeds_singleton_iff, turn, StateT.run_bind, Supply.runFrom_bind_eq_ok_iff] at h
  obtain ⟨⟨m, G⟩, next, hanswer, h⟩ := h
  rw [StateT.run_bind, Supply.runFrom_bind_eq_ok_iff] at h
  obtain ⟨⟨_, H⟩, next', -, h⟩ := h
  exact ⟨m, G, next, hanswer, (congrArg Prod.fst (Except.ok.inj (congrArg Prod.fst h))).symm⟩

/-- What each answer of the edit makes true of what is given is true of all that is given. -/
theorem Proceeds.forall_given {P : NodeId × Node → Prop}
    (hP : ∀ s n m G next, r.answer s n = (.ok (m, G), next) → P (n.id, m))
    (h : r.Proceeds s ns s') (hs : ∀ e ∈ s.given, P e) : ∀ e ∈ s'.given, P e := by
  induction ns generalizing s with
  | nil =>
    cases s
    cases s'
    cases h
    exact hs
  | cons n ns ih =>
    obtain ⟨s₁, hturn, hrest⟩ := proceeds_append_iff.1 (show r.Proceeds s ([n] ++ ns) s' from h)
    obtain ⟨m, G, next, hanswer, hm⟩ := hturn.exists_answer
    refine ih hrest ?_
    rw [hm]
    exact List.forall_mem_cons.2 ⟨hP s n m G next hanswer, hs⟩

/-- Each node that has been handed over adds what was given for it. -/
theorem Proceeds.exists_given (h : r.Proceeds s ns s') :
    ∃ new, s'.given = new ++ s.given ∧ new.map Prod.fst = (ns.map Node.id).reverse := by
  induction ns generalizing s with
  | nil =>
    cases s
    cases s'
    cases h
    exact ⟨[], rfl, rfl⟩
  | cons n ns ih =>
    obtain ⟨s₁, hturn, hrest⟩ := proceeds_append_iff.1 (show r.Proceeds s ([n] ++ ns) s' from h)
    obtain ⟨new, hnew, hkeys⟩ := ih hrest
    obtain ⟨m, -, -, -, hm⟩ := hturn.exists_answer
    refine ⟨new ++ [(n.id, m)], by rw [hnew, hm, List.append_assoc]; rfl, ?_⟩
    rw [List.map_append, hkeys, List.map_cons, List.map_cons, List.reverse_cons]
    rfl

/-- What is added for nodes of plants that are entered is filed under ids of the plants. -/
theorem Proceeds.exists_given_of_plants {enters : Node → Bool} {ps : List Plant}
    (h : r.Proceeds s (ps.flatMap (Plant.entered enters)) s') :
    ∃ new, s'.given = new ++ s.given ∧ ∀ e ∈ new, e.1 ∈ ps.flatMap Plant.ids := by
  obtain ⟨new, hnew, hkeys⟩ := h.exists_given
  refine ⟨new, hnew, fun e he => ?_⟩
  have hkey : e.1 ∈ (ps.flatMap (Plant.entered enters)).map Node.id :=
    List.mem_reverse.1 (hkeys ▸ List.mem_map_of_mem he)
  obtain ⟨n, hn, hid⟩ := List.mem_map.1 hkey
  obtain ⟨p, hp, hn⟩ := List.mem_flatMap.1 hn
  exact List.mem_flatMap.2 ⟨p, hp, hid ▸ Plant.id_mem_of_mem_entered hn⟩

theorem ComesTo.append_right (h : r.ComesTo s ns n s') (ms : List Node) :
    r.ComesTo s (ns ++ ms) n s' := by
  obtain ⟨first, rest, rfl, h⟩ := h
  exact ⟨first, rest ++ ms, by simp, h⟩

theorem ComesTo.after (h : r.ComesTo s₁ ms n s') (hs : r.Proceeds s ns s₁) :
    r.ComesTo s (ns ++ ms) n s' := by
  obtain ⟨first, rest, rfl, h⟩ := h
  exact ⟨ns ++ first, rest, (List.append_assoc ..).symm, hs.append h⟩

theorem Proceeds.comesTo (h : r.Proceeds s ns s') (n : Node) : r.ComesTo s (ns ++ [n]) n s' :=
  ⟨ns, [], rfl, h⟩

theorem EditsInPlace.left (h : r.EditsInPlace F s (ns ++ ms)) : r.EditsInPlace F s ns :=
  fun n s' hn => h n s' (hn.append_right ms)

theorem EditsInPlace.right (h : r.EditsInPlace F s (ns ++ ms)) (hs : r.Proceeds s ns s₁) :
    r.EditsInPlace F s₁ ms :=
  fun n s' hn => h n s' (hn.after hs)

theorem FailsIn.append_right (h : r.FailsIn s ns e next) (ms : List Node) :
    r.FailsIn s (ns ++ ms) e next := by
  obtain ⟨n, s', hn, h⟩ := h
  exact ⟨n, s', hn.append_right ms, h⟩

theorem FailsIn.after (h : r.FailsIn s₁ ms e next) (hs : r.Proceeds s ns s₁) :
    r.FailsIn s (ns ++ ms) e next := by
  obtain ⟨n, s', hn, h⟩ := h
  exact ⟨n, s', hn.after hs, h⟩

/-- When the edit fails, so does editing the nodes one after the other. -/
theorem FailsIn.runFrom_eq (h : r.FailsIn s ns e next) :
    ((ns.foldlM r.turn s.given).run s.forest).runFrom s.next = (.error e, next) := by
  obtain ⟨n, s', ⟨first, rest, rfl, hfirst⟩, hn⟩ := h
  rw [List.foldlM_append, StateT.run_bind, Supply.runFrom_bind, hfirst]
  dsimp only
  rw [List.foldlM_cons, StateT.run_bind, Supply.runFrom_bind, turn, StateT.run_bind,
    Supply.runFrom_bind, ← answer, hn]

end Revision

/-! ### Renaming nodes -/

namespace Revision

variable {r : Revision} {F : Forest} {s s' : Stage} {ns : List Node} {f : Node → Node}
  {g : NodeId → NodeId}

theorem answer_of_edit_eq_pure (hr : ∀ n, r.edit n = pure (f n)) (s : Stage) (n : Node) :
    r.answer s n = (.ok (f (n.redirected s.given), s.forest), s.next) := by
  rw [answer, hr, StateT.run_pure, Supply.runFrom_pure]

theorem not_failsIn_of_edit_eq_pure (hr : ∀ n, r.edit n = pure (f n)) {e : Fault} {next : Nat} :
    ¬r.FailsIn s ns e next := by
  rintro ⟨n, s', -, h⟩
  cases (answer_of_edit_eq_pure hr s' n).symm.trans h

/-- Giving each node an id that depends on its old one, and never one that is taken, edits nodes in
place. -/
theorem editsInPlace_of_rename (hr : ∀ n, r.edit n = pure (f n))
    (hf : ∀ n, f n = { n with id := g n.id, fields := (f n).fields, locked := (f n).locked })
    (hg : Function.Injective g) (hfree : ∀ n ∈ ns, g n.id = n.id ∨ F.get? (g n.id) = none)
    (hn : (ns.map Node.id).Nodup) (hs : s.given = []) : r.EditsInPlace F s ns := by
  have hid : ∀ n, (f n).id = g n.id := fun n => congrArg Node.id (hf n)
  rintro n s' ⟨first, rest, rfl, hfirst⟩ m G next h
  cases (answer_of_edit_eq_pure hr s' n).symm.trans h
  have hidn : (f (n.redirected s'.given)).id = g n.id := hid _
  refine ⟨rfl, by rw [hidn]; exact hf _, hidn ▸ hfree n (by simp), fun hmem => ?_⟩
  -- an id that has been given before belongs to another node
  have hgiven : ∀ e ∈ s'.given, e.2.id = g e.1 := by
    refine hfirst.forall_given (fun s n m G next h => ?_) (hs ▸ List.forall_mem_nil _)
    cases (answer_of_edit_eq_pure hr s n).symm.trans h
    exact hid _
  obtain ⟨e, he, hide⟩ := List.mem_map.1 hmem
  obtain ⟨new, hnew, hkeys⟩ := hfirst.exists_given
  rw [hs, List.append_nil] at hnew
  have hkey : n.id ∈ first.map Node.id := by
    have hsame : e.1 = n.id := hg ((hgiven e he).symm.trans (hide.trans hidn))
    rw [← List.mem_reverse, ← hkeys, ← hnew, ← hsame]
    exact List.mem_map_of_mem he
  rw [List.map_append, List.nodup_append] at hn
  exact hn.2.2 _ hkey _ (by simp) rfl

end Revision

/-! ### What a revision makes of plants -/

/-- What becomes of a plant when nodes have been given. A plant whose root is not entered stays as it is.
A root that is entered makes way for the node given for it, which differs from it in nothing but the id,
the fields and the lock; in its slots hangs, in the same order, what has become of the parts, and is
pointed at it. -/
inductive Plant.Becomes (enters : Node → Bool) (given : Given) : Plant → Plant → Prop where
  | stays {root : Node} {parts : List Plant} (out : enters root = false) :
      Becomes enters given (.mk root parts) (.mk root parts)
  | edited {root m : Node} {parts us : List Plant} (enter : enters root = true)
      (given_mem : (root.id, m) ∈ given)
      (edit : m = {
        root with
        id := m.id
        fields := m.fields
        locked := m.locked
        slots := root.slots.withChildren (us.map id) })
      (length : us.length = parts.length)
      (become : ∀ p u, (p, u) ∈ parts.zip us → Becomes enters given p u) :
      Becomes enters given (.mk root parts) (.mk m (heldIn m.id m.slots.entries us))

/-- More that is given makes no difference. -/
theorem Plant.Becomes.mono {enters : Node → Bool} {given given' : Given} {t u : Plant}
    (h : Becomes enters given t u) (hsub : given ⊆ given') : Becomes enters given' t u := by
  induction h with
  | stays out => exact .stays out
  | edited enter given_mem edit length _ ih =>
    exact .edited enter (hsub given_mem) edit length ih

namespace Revision

/-- From one moment of a revision of `F` to another some plants have become others. -/
structure Reworks (F : Forest) (enters : Node → Bool) (s s' : Stage) (ps us : List Plant) : Prop where
  become : List.Forall₂ (Plant.Becomes enters s'.given) ps us
  held : ∀ u ∈ us, s'.forest.Holds u
  nodup : (us.flatMap Plant.ids).Nodup
  /-- An id of the new plants is an old one, or it is given for the first time and not in `F`. -/
  ids : ∀ x ∈ us.flatMap Plant.ids, x ∈ ps.flatMap Plant.ids ∨
    F.get? x = none ∧ x ∉ s.given.ids ∧ x ∈ s'.given.ids
  moved : us.map Plant.id = (ps.map Plant.id).map s'.given.movedTo
  same : ∀ x, x ∉ us.flatMap Plant.ids → s'.forest.get? x = s.forest.get? x

namespace Reworks

variable {r : Revision} {F : Forest} {enters : Node → Bool} {s s₁ s' : Stage} {p u : Plant}
  {ps us : List Plant}

theorem nil (F : Forest) (enters : Node → Bool) (s : Stage) : Reworks F enters s s [] [] where
  become := .nil
  held := List.forall_mem_nil _
  nodup := .nil
  ids := List.forall_mem_nil _
  moved := rfl
  same _ _ := rfl

/-- A plant whose root is not entered is left alone. -/
theorem stays {root : Node} {parts : List Plant} (F : Forest) (hout : enters root = false)
    (hheld : s.forest.Holds (.mk root parts)) (hn : (Plant.mk root parts).ids.Nodup)
    (hgiven : ∀ e ∈ s.given, e.1 ∉ (Plant.mk root parts).ids) :
    Reworks F enters s s [.mk root parts] [.mk root parts] where
  become := .cons (.stays hout) .nil
  held := List.forall_mem_singleton.2 hheld
  nodup := by simpa using hn
  ids _ hx := .inl hx
  moved := by
    have hroot : root.id ∉ List.map Prod.fst s.given := by
      intro hmem
      obtain ⟨e, he, hid⟩ := List.mem_map.1 hmem
      exact hgiven e he (hid ▸ Plant.id_mem_ids (.mk root parts))
    simp [Given.movedTo_of_notMem hroot]
  same _ _ := rfl

/-- A plant that is reworked does not get in the way of others that `F` holds beside it. -/
theorem notMem_ids (hp : Reworks F enters s s₁ [p] [u]) (hF : ∀ q ∈ ps, F.Holds q)
    (hd : ∀ x ∈ p.ids, x ∉ ps.flatMap Plant.ids) {x : NodeId} (hx : x ∈ ps.flatMap Plant.ids) :
    x ∉ u.ids := by
  intro hu
  rcases hp.ids x (by simpa using hu) with hmem | ⟨hnone, -⟩
  · exact hd x (by simpa using hmem) hx
  · obtain ⟨q, hq, hx⟩ := List.mem_flatMap.1 hx
    exact (hF q hq).notMem_ids hnone hx

/-- Plants that are reworked one after the other are reworked together. -/
theorem cons (hp : Reworks F enters s s₁ [p] [u]) (hps : Reworks F enters s₁ s' ps us)
    (hF : ∀ q ∈ p :: ps, F.Holds q) (hd : ∀ x ∈ p.ids, x ∉ ps.flatMap Plant.ids)
    (hold : s.given ⊆ s₁.given) {new : Given} (hnew : s'.given = new ++ s₁.given)
    (hkeys : ∀ e ∈ new, e.1 ∈ ps.flatMap Plant.ids) :
    Reworks F enters s s' (p :: ps) (u :: us) := by
  have hFps : ∀ q ∈ ps, F.Holds q := fun q hq => hF q (List.mem_cons_of_mem _ hq)
  have hsub : s₁.given ⊆ s'.given := hnew ▸ List.subset_append_right _ _
  have hapart : ∀ x ∈ u.ids, x ∉ us.flatMap Plant.ids := by
    intro x hx hx'
    rcases hps.ids x hx' with hmem | ⟨hnone, hnot, -⟩
    · exact hp.notMem_ids hFps hd hmem hx
    · rcases hp.ids x (by simpa using hx) with hmem | ⟨-, -, hmem⟩
      · exact (hF p List.mem_cons_self).notMem_ids hnone (by simpa using hmem)
      · exact hnot hmem
  constructor
  case become =>
    exact .cons ((List.forall₂_cons.1 hp.become).1.mono hsub) hps.become
  case held =>
    refine List.forall_mem_cons.2 ⟨?_, hps.held⟩
    exact (hp.held u List.mem_cons_self).congr fun x hx => hps.same x (hapart x hx)
  case nodup =>
    rw [List.flatMap_cons, List.nodup_append]
    exact ⟨by simpa using hp.nodup, hps.nodup, fun x hx y hy e => hapart x hx (e ▸ hy)⟩
  case ids =>
    intro x hx
    rw [List.flatMap_cons, List.mem_append] at hx ⊢
    rcases hx with hx | hx
    · rcases hp.ids x (by simpa using hx) with hmem | ⟨hnone, hnot, hmem⟩
      · exact .inl (.inl (by simpa using hmem))
      · exact .inr ⟨hnone, hnot, List.map_subset _ hsub hmem⟩
    · rcases hps.ids x hx with hmem | ⟨hnone, hnot, hmem⟩
      · exact .inl (.inr hmem)
      · exact .inr ⟨hnone, fun hmem' => hnot (List.map_subset _ hold hmem'), hmem⟩
  case moved =>
    have hp' := hp.moved
    rw [List.map_cons, List.map_cons, List.map_cons, List.cons.injEq] at hp' ⊢
    refine ⟨?_, hps.moved⟩
    -- what is given for the other plants is not given for the root of this one
    rw [hp'.1, hnew, Given.movedTo_append_of_notMem]
    exact fun hmem => hd p.id p.id_mem_ids (by
      obtain ⟨e, he, hid⟩ := List.mem_map.1 hmem
      exact hid ▸ hkeys e he)
  case same =>
    intro x hx
    rw [List.flatMap_cons, List.mem_append, not_or] at hx
    rw [hps.same x hx.2, hp.same x (by simpa using hx.1)]

/-- A node is handed over above what its children have become. -/
theorem redirected_eq {root : Node} (hus : Reworks F enters s s₁ ps us)
    (hchildren : root.slots.children = ps.map Plant.id) :
    root.redirected s₁.given =
      { root with slots := root.slots.withChildren (us.map Plant.id) } := by
  rw [Node.redirected, hchildren, hus.moved]

/-- A node given for one whose id is its own or new does not stand among what the parts have become. -/
theorem notMem_of_given {root m : Node} {parts : List Plant} (hus : Reworks F enters s s₁ parts us)
    (hF : F.Holds (.mk root parts)) (hn : (Plant.mk root parts).ids.Nodup)
    (hfree : m.id = root.id ∨ F.get? m.id = none) (hnew : m.id ∉ s₁.given.ids) :
    m.id ∉ us.flatMap Plant.ids := by
  intro hx
  rw [Plant.ids_mk, List.nodup_append] at hn
  rcases hus.ids _ hx with hmem | ⟨-, -, hmem⟩
  · rcases hfree with hid | hnone
    · exact hn.2.2 _ hmem _ List.mem_cons_self hid
    · exact hF.notMem_ids hnone (Plant.ids_mk root parts ▸ List.mem_append_left _ hmem)
  · exact hnew hmem

/-- A root that is entered makes way for the node given for it, above what its parts have become. -/
theorem edited {root m : Node} {parts : List Plant} {H : Forest}
    (hus : Reworks F enters s s₁ parts us) (hout : m.id ∉ us.flatMap Plant.ids)
    (henter : enters root = true) (hold : s.given ⊆ s₁.given)
    (hm : m = {
      root with
      id := m.id
      fields := m.fields
      locked := m.locked
      slots := root.slots.withChildren (us.map Plant.id) })
    (hchildren : m.slots.children = us.map Plant.id)
    (hfree : m.id = root.id ∨ F.get? m.id = none) (hnew : m.id ∉ s₁.given.ids)
    (hheld : ∀ q ∈ Plant.heldIn m.id m.slots.entries us, H.Holds q)
    (hsame : ∀ x, x ∉ us.map Plant.id → H.get? x = s₁.forest.get? x) (next : Nat) :
    Reworks F enters s ⟨H.insert m, (root.id, m) :: s₁.given, next⟩ [.mk root parts]
      [.mk m (Plant.heldIn m.id m.slots.entries us)] := by
  have hparts : (Plant.heldIn m.id m.slots.entries us).flatMap Plant.ids = us.flatMap Plant.ids :=
    Plant.ids_heldIn m.id hchildren
  have hids : [Plant.mk m (Plant.heldIn m.id m.slots.entries us)].flatMap Plant.ids =
      us.flatMap Plant.ids ++ [m.id] := by
    rw [List.flatMap_singleton, Plant.ids_mk, hparts]
  constructor
  case become =>
    have hsub : s₁.given ⊆ (root.id, m) :: s₁.given := List.subset_cons_self _ _
    refine .cons (.edited henter List.mem_cons_self hm hus.become.length_eq.symm ?_) .nil
    exact fun p u hmem => ((List.forall₂_iff_zip.1 hus.become).2 hmem).mono hsub
  case held =>
    rw [List.forall_mem_singleton]
    exact Forest.holds_insert (Plant.carries_heldIn hchildren).children hheld (hparts ▸ hout)
  case nodup =>
    rw [hids, List.nodup_append]
    refine ⟨hus.nodup, List.nodup_singleton _, fun x hx y hy e => hout ?_⟩
    rwa [← List.mem_singleton.1 hy, ← e]
  case ids =>
    intro x hx
    rw [hids, List.mem_append, List.mem_singleton] at hx
    rw [List.flatMap_singleton, Plant.ids_mk, List.mem_append]
    rcases hx with hx | rfl
    · rcases hus.ids x hx with hmem | ⟨hnone, hnot, hmem⟩
      · exact .inl (.inl hmem)
      · exact .inr ⟨hnone, hnot, List.mem_cons_of_mem _ hmem⟩
    · rcases hfree with hid | hnone
      · exact .inl (.inr (List.mem_singleton.2 hid))
      · exact .inr ⟨hnone, fun hmem => hnew (List.map_subset _ hold hmem), List.mem_cons_self⟩
  case moved => simp [Given.movedTo]
  case same =>
    intro x hx
    rw [hids, List.mem_append, List.mem_singleton, not_or] at hx
    rw [Forest.get?_insert, if_neg (Ne.symm hx.2), hsame x fun hmem => hx.1 ?_, hus.same x hx.1]
    obtain ⟨u, hu, rfl⟩ := List.mem_map.1 hmem
    exact List.mem_flatMap.2 ⟨u, hu, u.id_mem_ids⟩

end Reworks

/-! ### Running a revision -/

variable {r : Revision} {F : Forest} {depth : Nat} {t : Plant} {ps : List Plant} {s : Stage}

/-- Going through a plant is editing the nodes that are entered one after the other, at whatever moment
the plant is held and none of its nodes has been given: in the end it is reworked, or an edit fails. -/
def Walks (r : Revision) (F : Forest) (depth : Nat) (t : Plant) : Prop :=
  ∀ (s : Stage) (edited : List NodeId), s.forest.Holds t → (∀ e ∈ s.given, e.1 ∉ t.ids) →
    r.EditsInPlace F s (t.entered r.entered) →
    (∃ u s', r.Proceeds s (t.entered r.entered) s' ∧
      (((r.runTo depth t.id).run edited).run s.forest).runFrom s.next =
        (.ok ((u.id, ((t.entered r.entered).map Node.id).reverse ++ edited), s'.forest), s'.next) ∧
      Reworks F r.entered s s' [t] [u]) ∨
    ∃ e next, r.FailsIn s (t.entered r.entered) e next ∧
      (((r.runTo depth t.id).run edited).run s.forest).runFrom s.next = (.error e, next)

/-- Plants with no id in common are reworked one after the other. -/
theorem walks_all (hr : ∀ p ∈ ps, r.Walks F depth p) (hF : ∀ p ∈ ps, F.Holds p)
    (hn : (ps.flatMap Plant.ids).Nodup) (edited : List NodeId) (hheld : ∀ p ∈ ps, s.forest.Holds p)
    (hgiven : ∀ e ∈ s.given, e.1 ∉ ps.flatMap Plant.ids)
    (hedits : r.EditsInPlace F s (ps.flatMap (Plant.entered r.entered))) :
    (∃ us s', r.Proceeds s (ps.flatMap (Plant.entered r.entered)) s' ∧
      ((((ps.map Plant.id).mapM fun child => r.runTo depth child).run edited).run
        s.forest).runFrom s.next =
        (.ok ((us.map Plant.id,
          ((ps.flatMap (Plant.entered r.entered)).map Node.id).reverse ++ edited), s'.forest),
          s'.next) ∧
      Reworks F r.entered s s' ps us) ∨
    ∃ e next, r.FailsIn s (ps.flatMap (Plant.entered r.entered)) e next ∧
      ((((ps.map Plant.id).mapM fun child => r.runTo depth child).run edited).run
        s.forest).runFrom s.next = (.error e, next) := by
  induction ps generalizing s edited with
  | nil => exact .inl ⟨[], s, .refl r s, rfl, .nil F _ s⟩
  | cons p ps ih =>
    rw [List.flatMap_cons, List.nodup_append] at hn
    have hd : ∀ x ∈ p.ids, x ∉ ps.flatMap Plant.ids := fun x hx hx' => hn.2.2 x hx x hx' rfl
    have hFps : ∀ q ∈ ps, F.Holds q := fun q hq => hF q (List.mem_cons_of_mem _ hq)
    simp only [List.flatMap_cons] at hedits ⊢
    have hgivenp : ∀ e ∈ s.given, e.1 ∉ p.ids := fun e he hx =>
      hgiven e he (List.flatMap_cons ▸ List.mem_append_left _ hx)
    simp only [List.map_cons, List.mapM_cons, StateT.run_bind, Supply.runFrom_bind]
    rcases hr p List.mem_cons_self s edited (hheld p List.mem_cons_self) hgivenp hedits.left with
      ⟨u, s₁, hp, hrun, hu⟩ | ⟨e, next, hfails, hrun⟩
    · obtain ⟨new, hnew, hkeys⟩ :=
        Proceeds.exists_given_of_plants (show r.Proceeds s ([p].flatMap _) s₁ by simpa using hp)
      have hheld' : ∀ q ∈ ps, s₁.forest.Holds q := fun q hq =>
        (hheld q (List.mem_cons_of_mem _ hq)).congr fun x hx =>
          hu.same x (by simpa using hu.notMem_ids hFps hd (List.mem_flatMap.2 ⟨q, hq, hx⟩))
      have hgiven' : ∀ e ∈ s₁.given, e.1 ∉ ps.flatMap Plant.ids := by
        intro e he hx
        rw [hnew, List.mem_append] at he
        rcases he with he | he
        · exact hd e.1 (by simpa using hkeys e he) hx
        · exact hgiven e he (List.flatMap_cons ▸ List.mem_append_right _ hx)
      rw [hrun]
      dsimp only
      rcases ih (fun q hq => hr q (List.mem_cons_of_mem _ hq)) hFps hn.2.1 _ hheld' hgiven'
        (hedits.right hp) with ⟨us, s', hps, hrun', hus⟩ | ⟨e, next, hfails, hrun'⟩
      · obtain ⟨new', hnew', hkeys'⟩ := hps.exists_given_of_plants
        refine .inl ⟨u :: us, s', hp.append hps, ?_, hu.cons hus hF hd ?_ hnew' hkeys'⟩
        · rw [hrun']
          simp
        · exact hnew ▸ List.subset_append_right _ _
      · refine .inr ⟨e, next, hfails.after hp, ?_⟩
        rw [hrun']
    · refine .inr ⟨e, next, hfails.append_right _, ?_⟩
      rw [hrun]

/-- A node whose edit succeeds takes its place above what its children have become. -/
theorem exists_turn {root m : Node} {parts us : List Plant} {s₁ : Stage} {G : Forest} {next : Nat}
    (hus : Reworks F r.entered s s₁ parts us) (hF : F.Holds (.mk root parts))
    (hn : (Plant.mk root parts).ids.Nodup) (henter : r.entered root = true)
    (hold : s.given ⊆ s₁.given) (hedits : r.EditsInPlace F s₁ [root])
    (hanswer : r.answer s₁ root = (.ok (m, G), next)) :
    ∃ (H : Forest) (u : Plant),
      (m.slots.entries.forM fun e => Editing.attach e.2 m.id e.1).run G = pure ((), H) ∧
      u.id = m.id ∧
      Reworks F r.entered s ⟨H.insert m, (root.id, m) :: s₁.given, next⟩ [.mk root parts] [u] := by
  obtain ⟨rfl, hm, hfree, hnew⟩ :=
    hedits root s₁ ((Proceeds.refl r s₁).comesTo root) m G next hanswer
  obtain ⟨-, hchildren, -⟩ := Forest.holds_mk_iff.1 hF
  rw [hus.redirected_eq hchildren] at hm
  have hsize : (us.map Plant.id).length = root.slots.size := by
    rw [← Slots.length_children, hchildren, hus.moved, List.length_map]
  have hslots : m.slots = root.slots.withChildren (us.map Plant.id) := congrArg Node.slots hm
  have hchildren' : m.slots.children = us.map Plant.id := by
    rw [hslots, Slots.children_withChildren hsize]
  obtain ⟨H, hattach, hparts, hsame⟩ :=
    @Editing.exists_run_attachAll s₁.forest m.id m.slots.entries us hchildren' hus.held hus.nodup
  have hout := hus.notMem_of_given hF hn hfree hnew
  exact ⟨H, _, hattach, rfl,
    hus.edited hout henter hold hm hchildren' hfree hnew hparts hsame next⟩

/-- A revision goes through every plant of `F` that is no higher than the depth it goes to. -/
theorem walks (hF : F.Holds t) (hn : t.ids.Nodup) (hd : t.nodes.length ≤ depth) :
    r.Walks F depth t := by
  induction depth generalizing t with
  | zero =>
    obtain ⟨root, parts⟩ := t
    simp at hd
  | succ depth ih =>
    obtain ⟨root, parts⟩ := t
    intro s edited hheld hgiven hedits
    obtain ⟨hget, hchildren, hparts⟩ := Forest.holds_mk_iff.1 hheld
    obtain ⟨-, -, hFparts⟩ := Forest.holds_mk_iff.1 hF
    obtain ⟨hnodup, -⟩ := List.nodup_append.1 (Plant.ids_mk root parts ▸ hn)
    rw [Plant.entered_mk] at hedits ⊢
    rw [Plant.id_mk]
    cases henter : r.entered root with
    | false =>
      rw [run_runTo_of_not_entered hget henter]
      exact .inl ⟨.mk root parts, s, .refl r s, rfl, .stays F henter hheld hn hgiven⟩
    | true =>
      rw [henter, if_pos rfl] at hedits
      rw [run_runTo_of_entered hget henter, hchildren, if_pos rfl, Supply.runFrom_bind]
      have hwalks : ∀ p ∈ parts, r.Walks F depth p := by
        intro p hp
        have hlt := Plant.length_nodes_lt root hp
        have hsub : p ∈ (Plant.mk root parts).subs := Plant.mem_subs_of_mem_parts hp
        exact ih (hFparts p hp) (Plant.nodup_ids_of_mem_subs hn hsub) (by lia)
      have hgiven' : ∀ e ∈ s.given, e.1 ∉ parts.flatMap Plant.ids := fun e he hx =>
        hgiven e he (Plant.ids_mk root parts ▸ List.mem_append_left _ hx)
      rcases walks_all hwalks hFparts hnodup edited hparts hgiven' hedits.left with
        ⟨us, s₁, hps, hrun, hus⟩ | ⟨e, next, hfails, hrun⟩
      · obtain ⟨new, hnew, -⟩ := hps.exists_given
        have hold : s.given ⊆ s₁.given := hnew ▸ List.subset_append_right _ _
        rw [hrun]
        dsimp only
        rw [← hus.redirected_eq hchildren, Supply.runFrom_bind]
        rcases h : r.answer s₁ root with ⟨e | ⟨m, G⟩, next⟩
        · refine .inr ⟨e, next, ⟨root, s₁, hps.comesTo root, h⟩, ?_⟩
          rw [answer] at h
          rw [h]
        · obtain ⟨H, u, hattach, hid, hu⟩ :=
            exists_turn hus hF hn henter hold (hedits.right hps) h
          refine .inl ⟨u, _, hps.append (proceeds_of_answer h hattach), ?_, hu⟩
          rw [answer] at h
          rw [h]
          dsimp only
          rw [hattach, pure_bind, Supply.runFrom_pure, hid, List.map_append, List.reverse_append]
          rfl
      · refine .inr ⟨e, next, hfails.append_right _, ?_⟩
        rw [hrun]

/-- Revising a plant of `F` has come to an end, and another plant has become of it. -/
structure Completes (r : Revision) (F : Forest) (next : Nat) (t u : Plant) (s : Stage) : Prop where
  /-- The nodes that are entered have been edited, children before parents. -/
  proceeds : r.Proceeds ⟨F, [], next⟩ (t.entered r.entered) s
  /-- Each of them has been edited once. -/
  once : s.given.map Prod.fst = ((t.entered r.entered).map Node.id).reverse ∧
    ((t.entered r.entered).map Node.id).Nodup
  /-- That is what running the revision does. -/
  run : ((r.run t.id).run F).runFrom next =
    (.ok (⟨u.id, (t.entered r.entered).map Node.id⟩, s.forest), s.next)
  becomes : Plant.Becomes r.entered s.given t u
  held : s.forest.Holds u
  nodup : u.ids.Nodup
  same : ∀ x, x ∉ u.ids → s.forest.get? x = F.get? x
  /-- Nodes of `F` outside the plant stay as they are. -/
  outside : ∀ x n, x ∉ t.ids → F.get? x = some n → s.forest.get? x = some n

/-- A plant that has been reworked from the start has been revised. -/
theorem Reworks.completes {u : Plant} {next : Nat} (hn : t.ids.Nodup)
    (hps : r.Proceeds ⟨F, [], next⟩ (t.entered r.entered) s)
    (hrun : ((r.run t.id).run F).runFrom next =
      (.ok (⟨u.id, (t.entered r.entered).map Node.id⟩, s.forest), s.next))
    (hu : Reworks F r.entered ⟨F, [], next⟩ s [t] [u]) : r.Completes F next t u s := by
  have hsame : ∀ x, x ∉ u.ids → s.forest.get? x = F.get? x := fun x hx =>
    hu.same x (by simpa using hx)
  constructor
  case proceeds => exact hps
  case once =>
    obtain ⟨new, hnew, hkeys⟩ := hps.exists_given
    rw [hnew, List.append_nil]
    exact ⟨hkeys, Plant.nodup_entered hn⟩
  case run => exact hrun
  case becomes => exact (List.forall₂_cons.1 hu.become).1
  case held => exact hu.held u List.mem_cons_self
  case nodup => simpa using hu.nodup
  case same => exact hsame
  case outside =>
    intro x n hx hget
    rw [hsame x fun hmem => ?_, hget]
    rcases hu.ids x (by simpa using hmem) with hmem | ⟨hnone, -⟩
    · exact hx (by simpa using hmem)
    · cases hnone.symm.trans hget

end Revision

/-- A revision that edits a plant in place completes, unless an edit fails. If one fails, so does the
revision, and no forest is left. -/
theorem Forest.Holds.revisesInTurn {r : Revision} {F : Forest} {t : Plant} {next : Nat}
    (ht : F.Holds t) (hn : t.ids.Nodup)
    (hr : r.EditsInPlace F ⟨F, [], next⟩ (t.entered r.entered)) :
    ((∀ e next', ¬r.FailsIn ⟨F, [], next⟩ (t.entered r.entered) e next') →
      ∃ u s, r.Completes F next t u s) ∧
    ∀ e next', r.FailsIn ⟨F, [], next⟩ (t.entered r.entered) e next' →
      ((r.run t.id).run F).runFrom next = (.error e, next') := by
  have hd := Revision.length_nodes_le_depth ht hn
  rcases Revision.walks ht hn hd ⟨F, [], next⟩ [] ht (List.forall_mem_nil _) hr with
    ⟨u, s, hps, hrun, hu⟩ | ⟨e, next', hfails, hrun⟩
  · refine ⟨fun _ => ⟨u, s, hu.completes hn hps ?_⟩, fun e next' hfails => ?_⟩
    · rw [Revision.run_run, Supply.runFrom_bind, hrun]
      simp
    · -- the nodes cannot both be edited and not be edited
      cases hps.symm.trans hfails.runFrom_eq
  · refine ⟨fun hnot => (hnot e next' hfails).elim, fun e' next'' hfails' => ?_⟩
    cases hfails.runFrom_eq.symm.trans hfails'.runFrom_eq
    rw [Revision.run_run, Supply.runFrom_bind, hrun]

/-- An application to an application. -/
def Plant.nested : Plant :=
  .mk { id := 1, kind := .apply, slots := ⟨[("callee", 2), ("argument", 3)], by decide⟩ }
    [.mk { id := 2, kind := .boolean, parent := some 1, parentSlot := some "callee" } [],
      .mk { id := 3, kind := .apply, parent := some 1, parentSlot := some "argument",
            slots := ⟨[("callee", 4), ("argument", 5)], by decide⟩ }
        [.mk { id := 4, kind := .boolean, parent := some 3, parentSlot := some "callee" } [],
          .mk { id := 5, kind := .boolean, parent := some 3, parentSlot := some "argument" } []]]

theorem Forest.holds_nested : (insertAll ∅ Plant.nested.nodes).Holds Plant.nested := by
  refine .mk (by rfl) rfl (List.forall_mem_cons.2 ⟨?_, List.forall_mem_singleton.2 ?_⟩)
  · exact .mk (by rfl) rfl (List.forall_mem_nil _)
  · refine .mk (by rfl) rfl (List.forall_mem_cons.2 ⟨?_, List.forall_mem_singleton.2 ?_⟩) <;>
      exact .mk (by rfl) rfl (List.forall_mem_nil _)

/-- Locks nodes and adds 100 to their ids, without entering the node 3. -/
def Revision.shifting : Revision where
  entered n := n.id != 3
  edit n := pure { n with id := n.id + 100, locked := true }

theorem Revision.editsInPlace_shifting :
    shifting.EditsInPlace (Forest.insertAll ∅ Plant.nested.nodes)
      ⟨Forest.insertAll ∅ Plant.nested.nodes, [], 6⟩ (Plant.nested.entered shifting.entered) := by
  refine editsInPlace_of_rename (g := (· + 100)) (fun n => rfl) (fun n => rfl)
    (fun _ _ => Nat.add_right_cancel) ?_ (Plant.nodup_entered (by decide)) rfl
  decide

/-- The nodes 2 and 1 are edited, in this order; the node 3 is left as it is, with all below it. -/
theorem Forest.revisesInTurn_nested :
    (insertAll ∅ Plant.nested.nodes).Holds Plant.nested ∧ Plant.nested.ids.Nodup ∧
      Revision.shifting.EditsInPlace (insertAll ∅ Plant.nested.nodes)
        ⟨insertAll ∅ Plant.nested.nodes, [], 6⟩ (Plant.nested.entered Revision.shifting.entered) ∧
      (Plant.nested.entered Revision.shifting.entered).map Node.id = [2, 1] ∧
      ∃ u s, Revision.shifting.Completes (insertAll ∅ Plant.nested.nodes) 6 Plant.nested u s := by
  have hn : Plant.nested.ids.Nodup := by decide
  refine ⟨holds_nested, hn, Revision.editsInPlace_shifting, rfl, ?_⟩
  refine (Holds.revisesInTurn holds_nested hn Revision.editsInPlace_shifting).1 fun e next => ?_
  exact Revision.not_failsIn_of_edit_eq_pure fun n => rfl

end TermForest
