import TermForest.Proofs.Forest.Share
import TermForest.Proofs.Safety

/-!
# The leftmost innermost redex

The search for a redex enters strict children only, and of these the first that is not normal. So
the path that it takes is determined by the forest, and it ends at an expression that is not normal
although all its strict children are, unless it meets a locked node or starts at a value that has
nothing left to do.
-/

namespace TermForest

open Relation (ReflTransGen)

/-! ### One level of a search -/

namespace Forest.Holds

variable {F : Forest} {S : Signature} {t : Plant} {cs : List NodeId}

/-- The unfolded tree at a plant is its root with trees below it, which show the parts as the trees
at the ids of the parts do. -/
theorem exists_below (h : F.Holds t) (hn : t.ids.Nodup) :
    ∃ below, F.tree t.id = .node t.root below ∧
      ∀ c ∈ t.root.slots.children, (below c).root? = F.get? c ∧
        ∃ p : Plant, (below c).Shows p ∧ (F.tree c).Shows p := by
  refine ⟨F.unfold F.size, by rw [Forest.tree, Forest.unfold, h.get?_id], fun c hc => ?_⟩
  have hshows := h.tree_shows hn
  rw [Forest.tree, Forest.unfold, h.get?_id] at hshows
  obtain ⟨root, parts⟩ := t
  cases hshows with
  | node children shown =>
    obtain ⟨p, hp, rfl⟩ := List.mem_map.1 (children ▸ hc)
    have hsub : p ∈ (Plant.mk root parts).subs := Plant.mem_subs_of_mem_parts hp
    have hheld := h.of_mem_subs hsub
    refine ⟨by rw [(shown p hp).root?, hheld.get?_id], p, shown p hp, ?_⟩
    exact hheld.tree_shows (Plant.nodup_ids_of_mem_subs hn hsub)

variable (h : F.Holds t) (hn : t.ids.Nodup) (hkind : S.requireKind t.root.kind = .ok ())
include h hn hkind

/-- An expression is normal if it counts as a function. -/
theorem isNormal_of_expression (hk : t.root.kind.category = .expression) :
    S.isNormal F t.id = .ok (t.root.coarseType F.get? = .lambda) := by
  obtain ⟨below, htree, hbelow⟩ := h.exists_below hn
  rw [Signature.isNormal, htree, Tree.isNormal, hkind, ok_bind, hk,
    Node.coarseType_congr fun c hc => (hbelow c hc).1.symm]
  rfl

variable (hcs : t.root.strictChildren F.get? = .ok cs)
include hcs

/-- A value is normal if its strict children are. -/
theorem isNormal_of_value (hk : t.root.kind.category = .value) :
    S.isNormal F t.id = cs.allM (S.isNormal F) := by
  obtain ⟨below, htree, hbelow⟩ := h.exists_below hn
  rw [Signature.isNormal, htree, Tree.isNormal, hkind, ok_bind, hk,
    Node.strictChildren_congr fun c hc => (hbelow c hc).1, hcs]
  refine allM_congr fun c hc => ?_
  obtain ⟨-, p, hshows, hat⟩ := hbelow c (Node.strictChildren_subset hcs hc)
  exact hat.isNormal_eq hshows S

/-- A search in a node that is not locked goes on in the first strict child that is not normal. -/
theorem redex_of_findM? (hlocked : t.root.locked = false) :
    S.redex F t.id = cs.findM? (fun c => return !(← S.isNormal F c)) >>= fun o =>
      o.elim (.ok (if t.root.kind.category = .expression then some t.id else none)) (S.redex F) := by
  obtain ⟨below, htree, hbelow⟩ := h.exists_below hn
  have hsub := Node.strictChildren_subset hcs
  rw [Signature.redex, htree, Tree.redex, if_neg (by simp [hlocked]), hkind, ok_bind,
    Node.strictChildren_congr fun c hc => (hbelow c hc).1, hcs, ok_bind,
    findM?_congr (q := fun c => return !(← S.isNormal F c)) fun c hc => ?_]
  · refine bind_congr_ok fun o ho => ?_
    cases o with
    | none => cases t.root.kind.category <;> rfl
    | some c =>
      obtain ⟨-, p, hshows, hat⟩ := hbelow c (hsub (mem_of_findM?_eq_some ho))
      exact hat.redex_eq hshows S
  · obtain ⟨-, p, hshows, hat⟩ := hbelow c (hsub hc)
    rw [hat.isNormal_eq hshows S]
    rfl

end Forest.Holds

/-! ### Strict paths -/

/-- `c` is a strict child of the node at `p`. -/
def Forest.Strict (F : Forest) (p c : NodeId) : Prop :=
  ∃ n cs, F.get? p = some n ∧ n.strictChildren F.get? = .ok cs ∧ c ∈ cs

/-- `c` is a strict child of the node at `p` and not normal, and the strict children before it are.
-/
def Signature.Enters (S : Signature) (F : Forest) (p c : NodeId) : Prop :=
  ∃ n before after, F.get? p = some n ∧ n.strictChildren F.get? = .ok (before ++ c :: after) ∧
    (∀ b ∈ before, S.isNormal F b = .ok true) ∧ S.isNormal F c = .ok false

/-- Slots and parent links are inverse to each other without circles, and every node has the fields
and slots of its kind. -/
structure Forest.WellFormed (F : Forest) : Prop where
  linked : F.Linked
  nodes : ∀ x n, F.get? x = some n → n.WellFormed

variable {F : Forest} {S : Signature} {x p c r : NodeId} {n : Node}

namespace Signature.Enters

theorem strict (h : S.Enters F p c) : F.Strict p c := by
  obtain ⟨n, before, after, hn, hcs, -⟩ := h
  exact ⟨n, _, hn, hcs, by simp⟩

theorem isNormal (h : S.Enters F p c) : S.isNormal F c = .ok false := by
  obtain ⟨n, before, after, -, -, -, hc⟩ := h
  exact hc

/-- The child that is entered is the one that a search through the strict children finds. -/
theorem findM? (h : S.Enters F p c) : ∃ n cs, F.get? p = some n ∧
    n.strictChildren F.get? = .ok cs ∧
      cs.findM? (fun c => return !(← S.isNormal F c)) = .ok (some c) := by
  obtain ⟨n, before, after, hn, hcs, hbefore, hc⟩ := h
  refine ⟨n, _, hn, hcs, findM?_eq_ok_some_iff.2 ⟨before, after, rfl, fun b hb => ?_, ?_⟩⟩
  · exact return_not_eq_ok_iff.2 (hbefore b hb)
  · exact return_not_eq_ok_iff.2 hc

/-- At most one child is entered. -/
theorem unique {c' : NodeId} (h : S.Enters F p c) (h' : S.Enters F p c') : c = c' := by
  obtain ⟨n, cs, hn, hcs, hc⟩ := h.findM?
  obtain ⟨n', cs', hn', hcs', hc'⟩ := h'.findM?
  obtain rfl := Option.some.inj (hn.symm.trans hn')
  obtain rfl := Except.ok.inj (hcs.symm.trans hcs')
  exact Option.some.inj (Except.ok.inj (hc.symm.trans hc'))

end Signature.Enters

namespace Forest

theorem Strict.mem_children (h : F.Strict p c) (hn : F.get? p = some n) :
    c ∈ n.slots.children := by
  obtain ⟨m, cs, hm, hcs, hc⟩ := h
  obtain rfl := Option.some.inj (hn.symm.trans hm)
  exact Node.strictChildren_subset hcs hc

theorem Strict.exists_part {t : Plant} (h : F.Strict t.id c) (ht : F.Holds t) :
    ∃ p ∈ t.parts, p.id = c := by
  have hc := h.mem_children ht.get?_id
  rwa [ht.children, List.mem_map] at hc

namespace WellFormed

variable (h : F.WellFormed)
include h

theorem exists_plant (hn : F.get? x = some n) :
    ∃ t : Plant, t.root = n ∧ t.id = x ∧ F.Holds t ∧ t.ids.Nodup ∧ t.Formed 0 := by
  obtain ⟨t, rfl, ht, -, hnodup, -⟩ := h.linked.exists_plant hn
  exact ⟨t, rfl, id_of_get? hn, ht, hnodup, fun m hm =>
    (h.nodes m.id m (ht.get?_of_mem_nodes hm)).formed 0⟩

/-- A strict child has its parent link to the node that it is a child of. -/
theorem parent_of_strict (hc : F.Strict p c) : ∃ m, F.get? c = some m ∧ m.parent = some p := by
  obtain ⟨n, cs, hn, -⟩ := id hc
  obtain ⟨slot, hslot⟩ := Slots.mem_children_iff.1 (hc.mem_children hn)
  obtain ⟨m, hm, hparent, -⟩ := h.linked.exists_held hn hslot
  exact ⟨m, hm, hparent⟩

/-- Going down through strict children ends. -/
theorem wellFounded_strict : WellFounded fun c p => F.Strict p c := by
  have hacc : ∀ t : Plant, F.Holds t → Acc (fun c p => F.Strict p c) t.id := by
    intro t
    induction t using Plant.induct with
    | step root parts ih =>
      refine fun ht => .intro _ fun c hc => ?_
      obtain ⟨p, hp, rfl⟩ := hc.exists_part ht
      exact ih p hp (ht.of_mem_subs (Plant.mem_subs_of_mem_parts hp))
  refine ⟨fun x => ?_⟩
  cases hx : F.get? x with
  | none =>
    refine .intro _ ?_
    rintro c ⟨n, cs, hn, -⟩
    rw [hx] at hn
    cases hn
  | some n =>
    obtain ⟨t, -, rfl, ht, -⟩ := h.exists_plant hx
    exact hacc t ht

/-- The strict children of a node are known. -/
theorem exists_strictChildren (hn : F.get? x = some n) :
    ∃ cs, n.strictChildren F.get? = .ok cs := by
  refine ((h.nodes x n hn).formed 0).exists_strictChildren _ fun c hc => ?_
  obtain ⟨slot, hslot⟩ := Slots.mem_children_iff.1 hc
  obtain ⟨m, hm, -⟩ := h.linked.exists_held hn hslot
  rw [hm]
  rfl

variable (hS : S.Full)
include hS

theorem exists_isNormal (hn : F.get? x = some n) : ∃ b, S.isNormal F x = .ok b := by
  obtain ⟨t, -, rfl, ht, hnodup, hf⟩ := h.exists_plant hn
  exact (ht.tree_shows hnodup).exists_isNormal hS hf

theorem isNormal_of_expression (hn : F.get? x = some n) (hk : n.kind.category = .expression) :
    S.isNormal F x = .ok (n.coarseType F.get? = .lambda) := by
  obtain ⟨t, rfl, rfl, ht, hnodup, -⟩ := h.exists_plant hn
  exact ht.isNormal_of_expression hnodup (hS.requireKind _) hk

theorem isNormal_of_value {cs : List NodeId} (hn : F.get? x = some n)
    (hcs : n.strictChildren F.get? = .ok cs) (hk : n.kind.category = .value) :
    S.isNormal F x = cs.allM (S.isNormal F) := by
  obtain ⟨t, rfl, rfl, ht, hnodup, -⟩ := h.exists_plant hn
  exact ht.isNormal_of_value hnodup (hS.requireKind _) hcs hk

theorem redex_of_findM? {cs : List NodeId} (hn : F.get? x = some n)
    (hcs : n.strictChildren F.get? = .ok cs) (hlocked : n.locked = false) :
    S.redex F x = cs.findM? (fun c => return !(← S.isNormal F c)) >>= fun o =>
      o.elim (.ok (if n.kind.category = .expression then some x else none)) (S.redex F) := by
  obtain ⟨t, rfl, rfl, ht, hnodup, -⟩ := h.exists_plant hn
  exact ht.redex_of_findM? hnodup (hS.requireKind _) hcs hlocked

/-- A node that is not locked has a strict child that is entered, and then its redex is the redex of
that child; or all of its strict children are normal, and then it is itself the redex if it is an
expression. -/
theorem redex_cases (hn : F.get? x = some n) (hlocked : n.locked = false) :
    (∃ c, S.Enters F x c ∧ S.redex F x = S.redex F c) ∨
    ((∀ c, F.Strict x c → S.isNormal F c = .ok true) ∧
      S.redex F x = .ok (if n.kind.category = .expression then some x else none)) := by
  obtain ⟨cs, hcs⟩ := h.exists_strictChildren hn
  have hredex := h.redex_of_findM? hS hn hcs hlocked
  obtain ⟨o, ho⟩ := exists_findM?_ok cs (p := fun c => return !(← S.isNormal F c)) fun c hc => by
    obtain ⟨m, hm, -⟩ := h.parent_of_strict ⟨_, cs, hn, hcs, hc⟩
    obtain ⟨b, hb⟩ := h.exists_isNormal hS hm
    exact ⟨!b, return_not_eq_ok_iff.2 (by rw [hb, Bool.not_not])⟩
  rw [ho, ok_bind] at hredex
  cases o with
  | some c =>
    obtain ⟨before, after, rfl, hbefore, hc⟩ := findM?_eq_ok_some_iff.1 ho
    exact .inl ⟨c, ⟨_, before, after, hn, hcs,
      fun b hb => return_not_eq_ok_iff.1 (hbefore b hb), return_not_eq_ok_iff.1 hc⟩, hredex⟩
  | none =>
    refine .inr ⟨?_, hredex⟩
    rintro c ⟨n', cs', hn', hcs', hc⟩
    obtain rfl := Option.some.inj (hn.symm.trans hn')
    obtain rfl := Except.ok.inj (hcs.symm.trans hcs')
    exact return_not_eq_ok_iff.1 (findM?_eq_ok_none_iff.1 ho c hc)

/-- Holes are not normal. -/
theorem isNormal_of_hole (hn : F.get? x = some n) (hk : n.kind = .hole) :
    S.isNormal F x = .ok false := by
  rw [h.isNormal_of_expression hS hn (by rw [hk]; rfl), Node.coarseType, hk]
  rfl

/-- Where all strict children are normal, the values are normal and the expressions are not. -/
theorem isNormal_of_strict (hn : F.get? x = some n)
    (hstrict : ∀ c, F.Strict x c → S.isNormal F c = .ok true) :
    S.isNormal F x = .ok (n.kind.category = .value) := by
  cases hk : n.kind.category with
  | value =>
    obtain ⟨cs, hcs⟩ := h.exists_strictChildren hn
    rw [h.isNormal_of_value hS hn hcs hk]
    exact allM_eq_ok_true.2 fun c hc => hstrict c ⟨_, cs, hn, hcs, hc⟩
  | expression =>
    rw [h.isNormal_of_expression hS hn hk, Except.ok.injEq, decide_eq_decide]
    refine iff_of_false (fun hlambda => ?_) (by rintro ⟨⟩)
    -- a hole in a slot of a named function would be a strict child that is not normal
    obtain ⟨href, hopen⟩ := Node.openParameter?_of_coarseType hk hlambda
    obtain ⟨e, he⟩ := Option.isSome_iff_exists.1 hopen
    obtain ⟨c, hc, m, hm, hole⟩ := Node.exists_hole_of_openParameter? he
    have hall : n.strictChildren F.get? = .ok n.slots.children := by
      rw [Node.strictChildren, href]
    have hnormal := hstrict c ⟨_, _, hn, hall, hc⟩
    rw [h.isNormal_of_hole hS hm hole] at hnormal
    cases hnormal

end WellFormed

end Forest

/-! ### What a search finds -/

/-- The path that enters the first strict child that is not normal, again and again, comes from `x`
to a locked node. -/
def Signature.Blocked (S : Signature) (F : Forest) (x : NodeId) : Prop :=
  ∃ y m, ReflTransGen (S.Enters F) x y ∧ F.get? y = some m ∧ m.locked = true

/-- `r` is the leftmost innermost redex at `x`: the path that enters the first strict child that is
not normal, again and again, leads from `x` to it over nodes that are not locked, and it is an
expression that is not normal although all its strict children are. -/
structure Signature.Innermost (S : Signature) (F : Forest) (x r : NodeId) : Prop where
  path : ReflTransGen (S.Enters F) x r
  unlocked : ∀ y n, ReflTransGen (S.Enters F) x y → ReflTransGen (S.Enters F) y r →
    F.get? y = some n → n.locked = false
  expression : ∃ n, F.get? r = some n ∧ n.kind.category = .expression
  reducible : S.isNormal F r = .ok false
  strict : ∀ c, F.Strict r c → S.isNormal F c = .ok true

namespace Signature

theorem redex_of_absent (hx : F.get? x = none) : S.redex F x = .error (.dangling x) := by
  rw [redex, Forest.tree, Forest.unfold, hx]
  rfl

theorem isNormal_of_absent (hx : F.get? x = none) : S.isNormal F x = .error (.dangling x) := by
  rw [isNormal, Forest.tree, Forest.unfold, hx]
  rfl

theorem redex_of_locked (hn : F.get? x = some n) (hlocked : n.locked = true) :
    S.redex F x = .ok none := by
  rw [redex, Forest.tree, Forest.unfold, hn]
  dsimp only
  rw [Tree.redex, if_pos hlocked]

/-- A path that leads to a node starts at a node. -/
theorem exists_start (hr : ReflTransGen (S.Enters F) x r) (hn : F.get? r = some n) :
    ∃ m, F.get? x = some m := by
  rcases ReflTransGen.cases_head hr with rfl | ⟨c, ⟨m, -, -, hm, -⟩, -⟩
  · exact ⟨n, hn⟩
  · exact ⟨m, hm⟩

/-- The path goes on from where it enters. -/
theorem Enters.reaches (hc : S.Enters F x c) (hr : ReflTransGen (S.Enters F) x r) (hne : x ≠ r) :
    ReflTransGen (S.Enters F) c r := by
  rcases ReflTransGen.cases_head hr with rfl | ⟨c', hc', hr⟩
  · exact absurd rfl hne
  · exact hc.unique hc' ▸ hr

/-- Nothing is entered where all strict children are normal. -/
theorem Enters.exists_strict (hc : S.Enters F x c) :
    ∃ c, F.Strict x c ∧ S.isNormal F c ≠ .ok true := by
  refine ⟨c, hc.strict, ?_⟩
  rw [hc.isNormal]
  rintro ⟨⟩

/-- A path does not leave a node whose strict children are all normal. -/
theorem eq_of_strict (hstrict : ∀ c, F.Strict x c → S.isNormal F c = .ok true)
    (hr : ReflTransGen (S.Enters F) x r) : r = x := by
  rcases ReflTransGen.cases_head hr with rfl | ⟨c, hc, -⟩
  · rfl
  · obtain ⟨c', hc', hnormal⟩ := hc.exists_strict
    exact absurd (hstrict c' hc') hnormal

/-- Whether a path comes to a locked node is up to the child that is entered. -/
theorem blocked_iff_of_enters (hn : F.get? x = some n) (hlocked : n.locked = false)
    (hc : S.Enters F x c) : S.Blocked F x ↔ S.Blocked F c := by
  constructor
  · rintro ⟨y, m, hy, hm, hlock⟩
    have hne : x ≠ y := by
      rintro rfl
      obtain rfl := Option.some.inj (hn.symm.trans hm)
      rw [hlocked] at hlock
      cases hlock
    exact ⟨y, m, hc.reaches hy hne, hm, hlock⟩
  · rintro ⟨y, m, hy, hm, hlock⟩
    exact ⟨y, m, .head hc hy, hm, hlock⟩

theorem not_blocked_of_strict (hn : F.get? x = some n) (hlocked : n.locked = false)
    (hstrict : ∀ c, F.Strict x c → S.isNormal F c = .ok true) : ¬S.Blocked F x := by
  rintro ⟨y, m, hy, hm, hlock⟩
  obtain rfl := eq_of_strict hstrict hy
  obtain rfl := Option.some.inj (hn.symm.trans hm)
  rw [hlocked] at hlock
  cases hlock

/-- A node and the child that is entered have the same leftmost innermost redex. -/
theorem innermost_iff_of_enters (hn : F.get? x = some n) (hlocked : n.locked = false)
    (hc : S.Enters F x c) : S.Innermost F x r ↔ S.Innermost F c r := by
  constructor
  · intro h
    have hne : x ≠ r := by
      rintro rfl
      obtain ⟨c', hstrict, hnormal⟩ := hc.exists_strict
      exact hnormal (h.strict c' hstrict)
    exact { h with
      path := hc.reaches h.path hne
      unlocked := fun y m hy => h.unlocked y m (.head hc hy) }
  · intro h
    refine { h with path := .head hc h.path, unlocked := fun y m hy hyr hm => ?_ }
    by_cases hxy : x = y
    · subst hxy
      obtain rfl := Option.some.inj (hn.symm.trans hm)
      exact hlocked
    · exact h.unlocked y m (hc.reaches hy hxy) hyr hm

end Signature

namespace Forest.WellFormed

variable (h : F.WellFormed) (hS : S.Full)
include h hS

/-- Where all strict children are normal, an expression that is not locked is the redex. -/
theorem innermost_iff_of_strict (hn : F.get? x = some n) (hlocked : n.locked = false)
    (hstrict : ∀ c, F.Strict x c → S.isNormal F c = .ok true) :
    S.Innermost F x r ↔ r = x ∧ n.kind.category = .expression := by
  constructor
  · intro hr
    obtain rfl := Signature.eq_of_strict hstrict hr.path
    obtain ⟨m, hm, hk⟩ := hr.expression
    obtain rfl := Option.some.inj (hn.symm.trans hm)
    exact ⟨rfl, hk⟩
  · rintro ⟨rfl, hk⟩
    refine ⟨.refl, fun y m hy _ hm => ?_, ⟨n, hn, hk⟩, ?_, hstrict⟩
    · obtain rfl := Signature.eq_of_strict hstrict hy
      obtain rfl := Option.some.inj (hn.symm.trans hm)
      exact hlocked
    · rw [h.isNormal_of_strict hS hn hstrict, hk]
      rfl

/-- The search finds a node exactly if it is the leftmost innermost redex. The induction is on the
strict children, so that it follows the path of the search. -/
theorem redex_eq_some_iff (x r : NodeId) : S.redex F x = .ok (some r) ↔ S.Innermost F x r := by
  induction x using h.wellFounded_strict.induction with
  | _ x ih =>
    cases hn : F.get? x with
    | none =>
      rw [Signature.redex_of_absent hn]
      refine iff_of_false (by rintro ⟨⟩) fun hr => ?_
      obtain ⟨m, hm, -⟩ := hr.expression
      obtain ⟨n, hx⟩ := Signature.exists_start hr.path hm
      rw [hn] at hx
      cases hx
    | some n =>
      cases hlocked : n.locked with
      | true =>
        rw [Signature.redex_of_locked hn hlocked]
        refine iff_of_false (by rintro ⟨⟩) fun hr => ?_
        rw [hr.unlocked x n .refl hr.path hn] at hlocked
        cases hlocked
      | false =>
        obtain ⟨c, hc, hredex⟩ | ⟨hstrict, hredex⟩ := h.redex_cases hS hn hlocked
        · rw [hredex, Signature.innermost_iff_of_enters hn hlocked hc, ih c hc.strict]
        · rw [hredex, h.innermost_iff_of_strict hS hn hlocked hstrict, Except.ok.injEq]
          by_cases hk : n.kind.category = .expression
          · rw [if_pos hk, Option.some.injEq, and_iff_left hk, eq_comm]
          · exact iff_of_false (by rw [if_neg hk]; rintro ⟨⟩) fun hr => hk hr.2

/-- The search finds nothing at a value whose strict children are normal, and where the path comes
to a locked node. -/
theorem redex_eq_none_iff (x : NodeId) : S.redex F x = .ok none ↔
    (∃ n, F.get? x = some n ∧ n.kind.category = .value ∧
      ∀ c, F.Strict x c → S.isNormal F c = .ok true) ∨ S.Blocked F x := by
  induction x using h.wellFounded_strict.induction with
  | _ x ih =>
    cases hn : F.get? x with
    | none =>
      rw [Signature.redex_of_absent hn]
      refine iff_of_false (by rintro ⟨⟩) ?_
      rintro (⟨n, hx, -⟩ | ⟨y, m, hy, hm, -⟩)
      · cases hx
      · obtain ⟨n, hx⟩ := Signature.exists_start hy hm
        rw [hn] at hx
        cases hx
    | some n =>
      cases hlocked : n.locked with
      | true =>
        exact iff_of_true (Signature.redex_of_locked hn hlocked) (.inr ⟨x, n, .refl, hn, hlocked⟩)
      | false =>
        obtain ⟨c, hc, hredex⟩ | ⟨hstrict, hredex⟩ := h.redex_cases hS hn hlocked
        · -- where a child is entered, neither it nor its parent has only normal strict children
          have hchild : ¬∃ m, F.get? c = some m ∧ m.kind.category = .value ∧
              ∀ d, F.Strict c d → S.isNormal F d = .ok true := by
            rintro ⟨m, hm, hk, hstrict⟩
            have hfalse := hc.isNormal
            rw [h.isNormal_of_strict hS hm hstrict, hk] at hfalse
            cases hfalse
          obtain ⟨d, hd, hnormal⟩ := hc.exists_strict
          rw [hredex, ih c hc.strict, or_iff_right hchild,
            or_iff_right (by rintro ⟨-, -, -, hstrict⟩; exact hnormal (hstrict d hd)),
            Signature.blocked_iff_of_enters hn hlocked hc]
        · rw [hredex, Except.ok.injEq,
            or_iff_left (Signature.not_blocked_of_strict hn hlocked hstrict)]
          cases hk : n.kind.category with
          | value => exact iff_of_true rfl ⟨n, rfl, hk, hstrict⟩
          | expression =>
            refine iff_of_false (by rintro ⟨⟩) ?_
            rintro ⟨m, hm, hvalue, -⟩
            cases hm
            rw [hk] at hvalue
            cases hvalue

end Forest.WellFormed

/-! ### Where a search does not look -/

namespace Forest

/-- The nodes that a search at `x` may look at: those to which strict children lead, and the callees
of the applications among them. -/
inductive Seen (F : Forest) (x : NodeId) : NodeId → Prop where
  | strict {y : NodeId} (path : ReflTransGen F.Strict x y) : Seen F x y
  | callee {p y : NodeId} {n : Node} (path : ReflTransGen F.Strict x p) (get : F.get? p = some n)
      (kind : n.kind = .apply) (slot : n.slots.get? "callee" = some y) : Seen F x y

theorem Seen.head {y : NodeId} (hc : F.Strict x c) (h : F.Seen c y) : F.Seen x y := by
  cases h with
  | strict path => exact .strict (.head hc path)
  | callee path get kind slot => exact .callee (.head hc path) get kind slot

end Forest

/-- The strict children of a node depend on the callee alone. -/
theorem Node.strictChildren_congr_callee {peek peek' : NodeId → Option Node}
    (h : n.kind = .apply → ∀ c, n.slots.get? "callee" = some c → peek' c = peek c) :
    n.strictChildren peek' = n.strictChildren peek := by
  unfold strictChildren
  split
  · next hk =>
    refine bind_congr_ok fun callee hcallee => bind_congr_ok fun argument _ => ?_
    rw [h hk callee (needSlot_eq_ok_iff.1 hcallee)]
  all_goals rfl

/-- The type of a node that is no named function does not depend on others. -/
theorem Node.coarseType_congr_reference {peek peek' : NodeId → Option Node}
    (h : n.kind = .reference → ∀ c ∈ n.slots.children, peek' c = peek c) :
    n.coarseType peek' = n.coarseType peek := by
  by_cases hk : n.kind = .reference
  · exact coarseType_congr (h hk)
  · cases hkind : n.kind <;> simp_all [coarseType]

/-- Strict children are up to what is seen. -/
theorem Forest.strictChildren_eq_of_seen {G : Forest}
    (hsame : ∀ y, F.Seen x y → G.get? y = F.get? y) (hn : F.get? x = some n) :
    n.strictChildren G.get? = n.strictChildren F.get? :=
  Node.strictChildren_congr_callee fun hk c hc => hsame c (.callee .refl hn hk hc)

namespace Forest.WellFormed

variable {slot : String} (h : F.WellFormed)
include h

/-- A child stands in one slot. -/
theorem slot_unique {slot' : String} (hn : F.get? p = some n) (hc : n.slots.get? slot = some c)
    (hc' : n.slots.get? slot' = some c) : slot = slot' := by
  obtain ⟨m, hm, -, hslot⟩ := h.linked.exists_held hn hc
  obtain ⟨m', hm', -, hslot'⟩ := h.linked.exists_held hn hc'
  obtain rfl := Option.some.inj (hm.symm.trans hm')
  exact Option.some.inj (hslot.symm.trans hslot')

/-- A path of strict children passes every node between its ends, and leaves it for a strict child.
The induction is on the path, from its lower end. -/
theorem strict_of_ascends {j k : ℕ} (path : ReflTransGen F.Strict x r) (hn : F.get? p = some n)
    (hc : n.slots.get? slot = some c) (hx : F.Ascends p k x) (hr : F.Ascends r j c) :
    F.Strict p c := by
  obtain ⟨m, hm, hparent, -⟩ := h.linked.exists_held hn hc
  induction path generalizing j with
  | refl =>
    have hcircle := hr.trans (.up hm hparent hx)
    exact absurd (h.linked.eq_zero_of_ascends_self hcircle) (by omega)
  | @tail b r _ hstrict ih =>
    obtain ⟨m', hm', hparent'⟩ := h.parent_of_strict hstrict
    cases hr with
    | refl =>
      obtain rfl := Option.some.inj (hm.symm.trans hm')
      obtain rfl := Option.some.inj (hparent.symm.trans hparent')
      exact hstrict
    | up get parent climb =>
      obtain rfl := Option.some.inj (hm'.symm.trans get)
      obtain rfl := Option.some.inj (hparent'.symm.trans parent)
      exact ih climb

/-- Functions and definitions have no strict children, a conditional has its condition, and an
application of a named function with parameters has its argument. -/
theorem slot_of_strict (hstrict : F.Strict p c) (hn : F.get? p = some n)
    (hc : n.slots.get? slot = some c) :
    n.kind ≠ .lambda ∧ n.kind ≠ .define ∧ (n.kind = .conditional → slot = "condition") ∧
      (n.kind = .apply → ∀ callee f, n.slots.get? "callee" = some callee → F.get? callee = some f →
        f.kind = .reference → f.parameters ≠ [] → slot = "argument") := by
  obtain ⟨n', cs, hn', hcs, hmem⟩ := hstrict
  obtain rfl := Option.some.inj (hn.symm.trans hn')
  have hempty : cs ≠ [] := List.ne_nil_of_mem hmem
  refine ⟨fun hk => ?_, fun hk => ?_, fun hk => ?_, fun hk callee f hcallee hf href hparams => ?_⟩
  · rw [Node.strictChildren, hk] at hcs
    exact hempty (Except.ok.inj hcs).symm
  · rw [Node.strictChildren, hk] at hcs
    exact hempty (Except.ok.inj hcs).symm
  · rw [Node.strictChildren, hk] at hcs
    obtain ⟨condition, hcondition, hcs⟩ := bind_eq_ok_iff.1 hcs
    cases hcs
    obtain rfl := List.mem_singleton.1 hmem
    exact h.slot_unique hn hc (Node.needSlot_eq_ok_iff.1 hcondition)
  · rw [Node.strictChildren, hk] at hcs
    obtain ⟨callee', hcallee', hcs⟩ := bind_eq_ok_iff.1 hcs
    obtain rfl := Option.some.inj (hcallee.symm.trans (Node.needSlot_eq_ok_iff.1 hcallee'))
    obtain ⟨argument, hargument, hcs⟩ := bind_eq_ok_iff.1 hcs
    rw [hf] at hcs
    dsimp only at hcs
    rw [if_pos ⟨href, hparams⟩] at hcs
    cases hcs
    obtain rfl := List.mem_singleton.1 hmem
    exact h.slot_unique hn hc (Node.needSlot_eq_ok_iff.1 hargument)

variable (hS : S.Full)
include hS

/-- Whether a node is normal is up to what is seen from it. -/
theorem isNormal_eq_of_seen {G : Forest} (hG : G.WellFormed)
    (hsame : ∀ y, F.Seen x y → G.get? y = F.get? y) : S.isNormal G x = S.isNormal F x := by
  induction x using h.wellFounded_strict.induction with
  | _ x ih =>
    have hx := hsame x (.strict .refl)
    cases hn : F.get? x with
    | none => rw [Signature.isNormal_of_absent hn, Signature.isNormal_of_absent (hx.trans hn)]
    | some n =>
      rw [hn] at hx
      cases hk : n.kind.category with
      | value =>
        obtain ⟨cs, hcs⟩ := h.exists_strictChildren hn
        rw [h.isNormal_of_value hS hn hcs hk,
          hG.isNormal_of_value hS hx ((strictChildren_eq_of_seen hsame hn).trans hcs) hk]
        refine allM_congr fun c hc => ?_
        have hstrict : F.Strict x c := ⟨n, cs, hn, hcs, hc⟩
        exact ih c hstrict fun y hy => hsame y (hy.head hstrict)
      | expression =>
        rw [h.isNormal_of_expression hS hn hk, hG.isNormal_of_expression hS hx hk,
          Node.coarseType_congr_reference fun href c hc => ?_]
        have hall : n.strictChildren F.get? = .ok n.slots.children := by
          rw [Node.strictChildren, href]
        exact hsame c (.strict (.single ⟨n, _, hn, hall, hc⟩))

/-- The search looks at nothing but what is seen. -/
theorem redex_eq_of_seen {G : Forest} (hG : G.WellFormed)
    (hsame : ∀ y, F.Seen x y → G.get? y = F.get? y) : S.redex G x = S.redex F x := by
  induction x using h.wellFounded_strict.induction with
  | _ x ih =>
    have hx := hsame x (.strict .refl)
    cases hn : F.get? x with
    | none => rw [Signature.redex_of_absent hn, Signature.redex_of_absent (hx.trans hn)]
    | some n =>
      rw [hn] at hx
      cases hlocked : n.locked with
      | true => rw [Signature.redex_of_locked hn hlocked, Signature.redex_of_locked hx hlocked]
      | false =>
        obtain ⟨cs, hcs⟩ := h.exists_strictChildren hn
        have hbelow : ∀ c ∈ cs, F.Strict x c ∧ ∀ y, F.Seen c y → G.get? y = F.get? y :=
          fun c hc => ⟨⟨n, cs, hn, hcs, hc⟩, fun y hy => hsame y (hy.head ⟨n, cs, hn, hcs, hc⟩)⟩
        rw [h.redex_of_findM? hS hn hcs hlocked,
          hG.redex_of_findM? hS hx ((strictChildren_eq_of_seen hsame hn).trans hcs) hlocked,
          findM?_congr (q := fun c => return !(← S.isNormal F c)) fun c hc => by
            rw [h.isNormal_eq_of_seen hS hG (hbelow c hc).2]]
        refine bind_congr_ok fun o ho => ?_
        cases o with
        | none => rfl
        | some c =>
          obtain ⟨hstrict, hc⟩ := hbelow c (mem_of_findM?_eq_some ho)
          exact ih c hstrict hc

end Forest.WellFormed

/-! ### The search as a whole -/

/-- What a search for a redex at `x` gives, and which nodes count for it. -/
structure Signature.FindsInnermost (S : Signature) (F : Forest) (x : NodeId) : Prop where
  /-- It has an answer wherever there is a node. -/
  answers : (F.get? x).isSome = true → ∃ o, S.redex F x = .ok o
  found : ∀ r, S.redex F x = .ok (some r) ↔ S.Innermost F x r
  unique : ∀ r r', S.Innermost F x r → S.Innermost F x r' → r = r'
  /-- It finds nothing at a value with nothing left to do, and where its path comes to a locked
  node. -/
  nothing : S.redex F x = .ok none ↔
    (∃ n, F.get? x = some n ∧ n.kind.category = .value ∧
      ∀ c, F.Strict x c → S.isNormal F c = .ok true) ∨ S.Blocked F x
  /-- What it finds does not stand in the body of a function or definition at `x` or below it, nor
  in a branch of a conditional, nor in the callee of an application if that is a named function with
  parameters. -/
  avoids : ∀ r, S.redex F x = .ok (some r) → ∀ p n slot c, F.get? p = some n →
    n.slots.get? slot = some c → (∃ k, F.Ascends p k x) → (∃ j, F.Ascends r j c) →
      n.kind ≠ .lambda ∧ n.kind ≠ .define ∧ (n.kind = .conditional → slot = "condition") ∧
        (n.kind = .apply → ∀ callee f, n.slots.get? "callee" = some callee →
          F.get? callee = some f → f.kind = .reference → f.parameters ≠ [] → slot = "argument")
  /-- Whatever else changes, the answer stays. -/
  overlooks : ∀ G : Forest, G.WellFormed → (∀ y, F.Seen x y → G.get? y = F.get? y) →
    S.redex G x = S.redex F x

/-- At every node of a well-formed forest, the search for a redex finds the leftmost innermost one.
-/
theorem Forest.WellFormed.findsInnermost (h : F.WellFormed) (hS : S.Full) (x : NodeId) :
    S.FindsInnermost F x where
  answers hx := by
    obtain ⟨n, hn⟩ := Option.isSome_iff_exists.1 hx
    obtain ⟨t, -, rfl, ht, hnodup, hf⟩ := h.exists_plant hn
    exact (ht.tree_shows hnodup).exists_redex hS hf
  found := h.redex_eq_some_iff hS x
  unique r r' hr hr' := by
    rw [← h.redex_eq_some_iff hS] at hr hr'
    exact Option.some.inj (Except.ok.inj (hr.symm.trans hr'))
  nothing := h.redex_eq_none_iff hS x
  avoids r hr p n slot c hn hc hx hbelow := by
    obtain ⟨k, hk⟩ := hx
    obtain ⟨j, hj⟩ := hbelow
    have hpath : ReflTransGen F.Strict x r :=
      ReflTransGen.mono (fun _ _ => Signature.Enters.strict) _ _
        ((h.redex_eq_some_iff hS x r).1 hr).path
    exact h.slot_of_strict (h.strict_of_ascends hpath hn hc hk hj) hn hc
  overlooks G hG hsame := h.redex_eq_of_seen hS hG hsame

theorem State.WellFormed.forest {s : State} {next : Nat} (h : s.WellFormed next) :
    s.nodes.WellFormed where
  linked := h.kept.linked
  nodes := Forest.Kept.nodes h

namespace Game

/-- A game with a function that is applied to a negation, and has one in its body. -/
def nesting : Game where
  levels := ⟨[{ board := [.apply (.lambda "x" (.not (.var "x"))) (.not (.boolean true))] }]⟩

theorem distinct_nesting : nesting.levels.Distinct := by
  simp [LevelFile.Distinct, nesting, Level.terms, Term.apply, Term.lambda, Term.binder, Term.not,
    Term.var, Term.boolean, Term.withSlot, Term.withField, Term.ofTag, Term.parts, Term.tag, Terms.set,
    Term.Distinct, Terms.Distinct, Kind.tag]

/-- The negation that the function is applied to is the redex, and no other node is. -/
theorem findsInnermost_nesting : ∃ session, nesting.start 0 = .ok session ∧
    session.present.nodes.WellFormed ∧ Signature.standard.Innermost session.present.nodes 1 6 ∧
    ∀ r, Signature.standard.Innermost session.present.nodes 1 r → r = 6 := by
  obtain ⟨session, h, hwell⟩ := Session.exists_wellFormed_start 0
    Signature.tagsReferences_standard distinct_nesting (by decide +kernel)
  have hredex : (nesting.start 0).toOption.map (fun session =>
      (Signature.standard.redex session.present.nodes 1).toOption) = some (some (some 6)) := by
    decide +kernel
  rw [h] at hredex
  have hfinds := hwell.forest.findsInnermost Signature.full_standard 1
  have hsix := (hfinds.found 6).1 (toOption_eq_some_iff.1 (Option.some.inj hredex))
  exact ⟨session, h, hwell.forest, hsix, fun r hr => hfinds.unique r 6 hr hsix⟩

end Game

end TermForest
