import TermForest.Proofs.Defeat
import TermForest.Proofs.Innermost
import TermForest.Proofs.State.Progress

/-!
# Steps at normal nodes

A step at a normal node does nothing if the node is a value. But a named function with an open
parameter is normal too, while its arguments, the open one among them, are strict. So a step at such
a function does what it does at the first argument that is not normal: it reduces that, or refuses
the hole.
-/

namespace TermForest

open Relation (ReflTransGen)

/-! ### Searches that find nothing -/

namespace Forest.Holds

variable {F : Forest} {S : Signature} {t : Plant}

/-- A node that is known to be normal, or not to be, is of a known kind. -/
theorem requireKind_of_isNormal (h : F.Holds t) (hn : t.ids.Nodup) {b : Bool}
    (hb : S.isNormal F t.id = .ok b) : S.requireKind t.root.kind = .ok () := by
  obtain ⟨below, htree, -⟩ := h.exists_below hn
  rw [Signature.isNormal, htree, Tree.isNormal] at hb
  obtain ⟨_, hkind, -⟩ := bind_eq_ok_iff.1 hb
  exact hkind

/-- A search that comes to an end at a node that is not locked has read its kind and its strict
children. -/
theorem of_redex_ok (h : F.Holds t) (hn : t.ids.Nodup) (hlocked : t.root.locked = false)
    {o : Option NodeId} (ho : S.redex F t.id = .ok o) :
    S.requireKind t.root.kind = .ok () ∧ ∃ cs, t.root.strictChildren F.get? = .ok cs := by
  obtain ⟨below, htree, hbelow⟩ := h.exists_below hn
  rw [Signature.redex, htree, Tree.redex, if_neg (by simp [hlocked]),
    Node.strictChildren_congr fun c hc => (hbelow c hc).1] at ho
  obtain ⟨_, hkind, ho⟩ := bind_eq_ok_iff.1 ho
  obtain ⟨cs, hcs, -⟩ := bind_eq_ok_iff.1 ho
  exact ⟨hkind, cs, hcs⟩

/-- A search finds nothing at a normal value, or because its path comes to a locked node. -/
theorem of_redex_none (h : F.Holds t) (hn : t.ids.Nodup) (ho : S.redex F t.id = .ok none) :
    (t.root.kind.category = .value ∧ S.isNormal F t.id = .ok true) ∨ S.Blocked F t.id := by
  induction t using Plant.induct with
  | step root parts ih =>
    cases hlocked : root.locked with
    | true => exact .inr ⟨_, root, .refl, h.get?_id, hlocked⟩
    | false =>
      obtain ⟨hkind, cs, hcs⟩ := h.of_redex_ok hn hlocked ho
      rw [h.redex_of_findM? hn hkind hcs hlocked] at ho
      obtain ⟨found, hfound, hrest⟩ := bind_eq_ok_iff.1 ho
      cases found with
      | none =>
        cases hk : root.kind.category with
        | expression =>
          rw [Option.elim_none, Plant.root_mk, hk] at hrest
          cases hrest
        | value =>
          refine .inl ⟨hk, ?_⟩
          rw [h.isNormal_of_value hn hkind hcs hk]
          exact allM_eq_ok_true.2 fun c hc =>
            return_not_eq_ok_iff.1 (findM?_eq_ok_none_iff.1 hfound c hc)
      | some c =>
        have hstrict : F.Strict root.id c :=
          ⟨root, cs, h.get?_id, hcs, mem_of_findM?_eq_some hfound⟩
        obtain ⟨p, hp, rfl⟩ := hstrict.exists_part h
        have hsub : p ∈ (Plant.mk root parts).subs := Plant.mem_subs_of_mem_parts hp
        obtain ⟨before, after, rfl, hbefore, hfalse⟩ := findM?_eq_ok_some_iff.1 hfound
        rw [return_not_eq_ok_iff] at hfalse
        obtain ⟨-, htrue⟩ | ⟨y, m, hy, hm, hlock⟩ := ih p hp (h.of_mem_subs hsub)
          (Plant.nodup_ids_of_mem_subs hn hsub) hrest
        · rw [htrue] at hfalse
          cases hfalse
        · exact .inr ⟨y, m, .head ⟨root, before, after, h.get?_id, hcs,
            fun b hb => return_not_eq_ok_iff.1 (hbefore b hb), hfalse⟩ hy, hm, hlock⟩

/-- A search whose path comes to a locked node finds nothing, if the kinds of the nodes on it are
known. -/
theorem redex_of_blocked (h : F.Holds t) (hn : t.ids.Nodup) {b : Bool}
    (hnormal : S.isNormal F t.id = .ok b) (hblocked : S.Blocked F t.id) :
    S.redex F t.id = .ok none := by
  induction t using Plant.induct generalizing b with
  | step root parts ih =>
    cases hlocked : root.locked with
    | true => exact Signature.redex_of_locked h.get?_id hlocked
    | false =>
      obtain ⟨y, m, hy, hm, hlock⟩ := hblocked
      rcases ReflTransGen.cases_head hy with rfl | ⟨c, hc, hy⟩
      · obtain rfl := Option.some.inj (h.get?_id.symm.trans hm)
        rw [Plant.root_mk, hlocked] at hlock
        cases hlock
      obtain ⟨n, cs, hget, hcs, hfound⟩ := hc.findM?
      obtain rfl := Option.some.inj (h.get?_id.symm.trans hget)
      rw [h.redex_of_findM? hn (h.requireKind_of_isNormal hn hnormal) hcs hlocked, hfound]
      obtain ⟨p, hp, rfl⟩ := hc.strict.exists_part h
      have hsub : p ∈ (Plant.mk root parts).subs := Plant.mem_subs_of_mem_parts hp
      exact ih p hp (h.of_mem_subs hsub) (Plant.nodup_ids_of_mem_subs hn hsub) hc.isNormal
        ⟨y, m, hy, hm, hlock⟩

/-- A normal node is a named function or a value, and in a value a search finds nothing. -/
theorem redex_of_isNormal (h : F.Holds t) (hn : t.ids.Nodup)
    (hnormal : S.isNormal F t.id = .ok true) (hk : t.root.kind ≠ .reference) :
    S.redex F t.id = .ok none := by
  obtain ⟨below, htree, -⟩ := h.exists_below hn
  rw [Signature.isNormal, htree] at hnormal
  rw [Signature.redex, htree]
  refine Tree.Shows.redex_of_isNormal hnormal ?_
  cases hcategory : t.root.kind.category with
  | value => rfl
  | expression =>
    rw [Tree.isNormal, hcategory] at hnormal
    obtain ⟨_, -, hlambda⟩ := bind_eq_ok_iff.1 hnormal
    exact absurd (Node.openParameter?_of_coarseType hcategory (by simpa using hlambda)).1 hk

end Forest.Holds

/-! ### Rules that apply -/

/-- Whatever a computation gives satisfies `P`. -/
def Supply.Gives {ε α : Type} (x : Supply ε α) (P : α → Prop) : Prop :=
  ∀ lo hi a, x.runFrom lo = (.ok a, hi) → P a

namespace Supply.Gives

variable {ε α β : Type} {P : α → Prop}

theorem pure {a : α} (h : P a) : (Pure.pure a : Supply ε α).Gives P := by
  rintro lo hi _ ⟨⟩
  exact h

theorem throw (e : ε) : (MonadExcept.throw e : Supply ε α).Gives P := by
  rintro lo hi _ ⟨⟩

theorem bind {x : Supply ε β} {f : β → Supply ε α} (h : ∀ b, (f b).Gives P) :
    (x >>= f).Gives P := by
  intro lo hi a ha
  rw [runFrom_bind] at ha
  rcases hx : x.runFrom lo with ⟨e | b, mid⟩ <;> rw [hx] at ha
  · cases ha
  · exact h b mid hi a ha

/-- What follows a part that only reads may use what is read. -/
theorem read_bind {x : Except ε β} {f : β → Supply ε α} (h : ∀ b, x = .ok b → (f b).Gives P) :
    ((liftM x : Supply ε β) >>= f).Gives P := by
  cases x with
  | ok b => exact h b rfl
  | error e => exact .throw e

theorem liftM {x : Supply Fault α} (h : x.Gives P) : (liftM x : Supply Failure α).Gives P := by
  intro lo hi a ha
  rw [runFrom_liftM] at ha
  rcases hx : x.runFrom lo with ⟨e | b, mid⟩ <;> rw [hx] at ha
  · cases ha
  · cases ha
    exact h lo hi a hx

end Supply.Gives

namespace State

variable {s : State} {S : Signature} {r : Node}

open Supply (Gives)

theorem gives_replaceByEdit (edit : Editing NodeId) : (s.replaceByEdit edit).Gives (· ≠ .noRule) :=
  .bind fun _ => .pure (by rintro ⟨⟩)

theorem gives_replaceBy {ε : Type} (f : NodeId → Node) :
    (do return s.replaceBy (f (← Supply.take)) : Supply ε Outcome).Gives (· ≠ .noRule) :=
  .bind fun _ => .pure (by rintro ⟨⟩)

theorem gives_calculate (op : Operator) (l n : Node) :
    (reduceBinop.calculate s r op l n).Gives (· ≠ .noRule) := by
  refine .bind fun a => .bind fun b => ?_
  split
  · exact gives_replaceBy _
  · exact gives_replaceBy _
  · split
    · exact gives_replaceBy _
    · exact .throw _

theorem gives_reduceBinop : (s.reduceBinop r).Gives (· ≠ .noRule) := by
  refine .bind fun op => .bind fun left => .bind fun right => .bind fun l => .bind fun n => ?_
  split
  · exact .bind fun _ => gives_replaceBy _
  · exact .bind fun _ => gives_replaceBy _
  · split
    · exact .bind fun _ => .bind fun _ => gives_replaceBy _
    · exact gives_calculate _ _ _
  · exact gives_calculate _ _ _
  · exact .throw _

theorem gives_apply (b : Builtin) (most : Int64) (arguments : List NodeId) :
    (b.apply most s r arguments).Gives (· ≠ .noRule) := by
  cases b with
  | eat => exact gives_replaceBy _
  | «repeat» =>
    refine .bind fun count => .bind fun times => ?_
    split
    · exact .bind fun _ => .pure (by rintro ⟨⟩)
    · exact .pure (by rintro ⟨⟩)
  | length => exact .bind fun _ => .bind fun _ => .bind fun _ => gives_replaceBy _
  | concat =>
    exact .bind fun _ => .bind fun _ => .bind fun _ => .bind fun _ => (gives_replaceByEdit _).liftM

theorem gives_reduceReference (most : Int64) :
    (s.reduceReference S most r).Gives (· ≠ .noRule) := by
  refine .bind fun name => ?_
  split
  · exact gives_apply _ _ _
  · split
    · exact .throw _
    · exact (gives_replaceByEdit _).liftM

/-- An application that passes its check has a rule. -/
theorem gives_reduceApply (hcheck : S.checkApply s r = .ok ()) :
    (s.reduceApply r).Gives (· ≠ .noRule) := by
  refine .read_bind fun callee hcallee => .bind fun argument => .read_bind fun f hf => ?_
  rw [Node.needSlot_eq_ok_iff] at hcallee
  rw [Forest.find_eq_ok_iff] at hf
  split
  · exact gives_replaceByEdit _
  · exact gives_replaceByEdit _
  · next hlambda href =>
    obtain ⟨hk, -⟩ | ⟨hk, -⟩ := Signature.checkApply_ok hcheck hcallee hf
    · exact absurd hk hlambda
    · exact absurd hk href

/-- An expression that passes its check has a rule. -/
theorem gives_reduce (most : Int64) (hk : r.kind.category = .expression)
    (hcheck : S.check s r = .ok ()) : (s.reduce S most r).Gives (· ≠ .noRule) := by
  unfold Signature.check at hcheck
  unfold reduce
  cases hkind : r.kind <;> rw [hkind] at hk hcheck <;> try cases hk
  case hole => cases hcheck
  case var =>
    obtain ⟨_, -, hcheck⟩ := bind_eq_ok_iff.1 hcheck
    cases hcheck
  case apply => exact (gives_reduceApply hcheck).liftM
  case binop => exact gives_reduceBinop
  case conditional =>
    exact Gives.liftM <| .bind fun _ => .bind fun _ => .bind fun _ => .bind fun _ =>
      gives_replaceByEdit _
  case not => exact Gives.liftM <| .bind fun _ => .bind fun _ => .bind fun _ => gives_replaceBy _
  case member =>
    exact Gives.liftM <| .bind fun _ => .bind fun _ => .bind fun _ => .bind fun _ => .bind fun _ =>
      gives_replaceByEdit _
  case reference => exact gives_reduceReference most

/-- Nothing is ready where nothing is to be reduced. -/
theorem redex_of_ready_none {target : NodeId} (h : s.ready S target = .ok none) :
    S.redex s.nodes target = .ok none := by
  simp only [ready, bind_eq_ok_iff, liftM_eq_ok_iff, Forest.find_eq_ok_iff] at h
  obtain ⟨n, hn, root, -, h⟩ := h
  split at h
  · cases h
  split at h
  · next hlocked => exact Signature.redex_of_locked hn hlocked
  · obtain ⟨o, ho, h⟩ := bind_eq_ok_iff.1 h
    cases o with
    | none => exact liftM_eq_ok_iff.1 ho
    | some redex =>
      simp only [bind_eq_ok_iff] at h
      obtain ⟨_, -, _, -, _, -, h⟩ := h
      cases h

/-- A step that does nothing has found nothing to reduce. -/
theorem redex_of_step_none {target : NodeId} {most : Int64} {lo hi : NodeId}
    (h : (s.step S most target).runFrom lo = (.ok none, hi)) :
    S.redex s.nodes target = .ok none := by
  rw [step, Supply.runFrom_bind] at h
  rcases hbegin : (s.begin S most target).runFrom lo with ⟨e | p, mid⟩ <;> rw [hbegin] at h
  · cases h
  dsimp only at h
  rw [Supply.runFrom_liftM] at h
  rcases hcomplete : (s.complete S p).runFrom mid with ⟨e | a, last⟩ <;> rw [hcomplete] at h
  · cases h
  cases h
  obtain rfl := eq_nothing_of_complete hcomplete
  rw [begin_eq, Supply.runFrom_bind] at hbegin
  cases hready : s.ready S target with
  | error e =>
    rw [hready] at hbegin
    cases hbegin
  | ok o =>
    cases o with
    | none => exact redex_of_ready_none hready
    | some r =>
      obtain ⟨hr, hredex, hcheck, -⟩ := of_ready hready
      have hrule := gives_reduce (s := s) most (Signature.expression_of_redex hredex hr) hcheck
      rw [hready, Supply.liftM_ok rfl, Supply.runFrom_pure] at hbegin
      dsimp only at hbegin
      rw [Supply.runFrom_bind] at hbegin
      rcases hreduce : (s.reduce S most r).runFrom lo with ⟨e | o, mid'⟩ <;> rw [hreduce] at hbegin
      · cases hbegin
      · have hne := hrule lo mid' o hreduce
        cases o with
        | noRule => exact absurd rfl hne
        | replaced w => cases hbegin
        | deferred e => cases hbegin

variable {next : Nat} {t u : Plant}

/-- On the board, a step at a normal node does nothing exactly if the node is no named function, or
the search comes to a locked node. -/
theorem Hung.step_normal_iff (h : s.Hung next) (hroot : t.id ∈ s.board) (ht : s.nodes.Holds t)
    (hu : u ∈ t.subs) (hnormal : S.isNormal s.nodes u.id = .ok true) (most : Int64) (lo : NodeId) :
    (s.step S most u.id).runFrom lo = (.ok none, lo) ↔
      u.root.kind ≠ .reference ∨ S.Blocked s.nodes u.id := by
  have hheld := ht.of_mem_subs hu
  have hnodup := h.nodes.nodup_ids hheld
  constructor
  · intro hstep
    obtain ⟨hvalue, -⟩ | hblocked := hheld.of_redex_none hnodup (redex_of_step_none hstep)
    · refine .inl fun href => ?_
      rw [href] at hvalue
      cases hvalue
    · exact .inr hblocked
  · intro hnone
    have hself : s.nodes.IsRoot t.id :=
      ⟨t.root, ht.get?_id, h.isRoot _ (Kept.mem_roots_of_board hroot) _ ht.get?_id⟩
    have hascends : ∃ j, s.nodes.Ascends u.id j t.id :=
      ht.ascends (h.nodes.joined ht) (Plant.mem_ids_iff.2 ⟨u, hu, rfl⟩)
    refine step_of_redex_none ⟨hself, hascends⟩ hroot ?_ most lo
    rcases hnone with hk | hblocked
    · exact hheld.redex_of_isNormal hnodup hnormal hk
    · exact hheld.redex_of_blocked hnodup hnormal hblocked

/-- Nothing on the board of a well-formed state is locked. -/
theorem WellFormed.not_blocked (h : s.WellFormed next) (hroot : t.id ∈ s.board)
    (ht : s.nodes.Holds t) (hu : u ∈ t.subs) : ¬S.Blocked s.nodes u.id := by
  have hbelow : ∀ y, ReflTransGen (S.Enters s.nodes) u.id y → ∃ k, s.nodes.Ascends y k t.id := by
    intro y hy
    induction hy with
    | refl =>
      exact ht.ascends ((h.linked.hung h.lt).joined ht) (Plant.mem_ids_iff.2 ⟨u, hu, rfl⟩)
    | tail _ hc ih =>
      obtain ⟨k, hk⟩ := ih
      obtain ⟨n, hn, hparent⟩ := h.forest.parent_of_strict hc.strict
      exact ⟨k + 1, .up hn hparent hk⟩
  rintro ⟨y, m, hy, hm, hlock⟩
  obtain ⟨k, hk⟩ := hbelow y hy
  have hself := Forest.Kept.rootOf_self h (Kept.mem_roots_of_board hroot)
  exact h.kept.board_notMem_defs hroot ((h.locked_iff y m t.id hm (hself.of_ascends hk)).1 hlock)

end State

/-! ### Reachable states -/

namespace Play

variable {g : Game} {session : Session State Move} {level : Nat} {t u : Plant}

/-- In a play that starts at a level, after any requests, executing a normal node of a tree on the
board leaves the state as it is exactly if the node is no named function, or the search for a redex
comes to a locked node, which it does not in a well-formed state. -/
theorem normal_of_start (h : g.start level = .ok session) (requests : List Request) {s : State}
    (hs : (takeAll g ⟨session, []⟩ requests).session.present = s) (hroot : t.id ∈ s.board)
    (ht : s.nodes.Holds t) (hu : u ∈ t.subs) (hnormal : g.signature.isNormal s.nodes u.id = .ok true) :
    (∀ most lo, (s.step g.signature most u.id).runFrom lo = (.ok none, lo) ↔
      u.root.kind ≠ .reference ∨ g.signature.Blocked s.nodes u.id) ∧
    ∀ next, s.WellFormed next → ¬g.signature.Blocked s.nodes u.id := by
  subst hs
  exact ⟨fun most lo => ((sound_start h).takeAll requests).states.present.step_normal_iff hroot ht hu
    hnormal most lo, fun _ hwell => hwell.not_blocked hroot ht hu⟩

/-- A game with a named function one argument of which is a sum and the other open. -/
def adding : Game where
  levels := ⟨[{
    board := [(Term.reference "f" ["a", "b"]).withSlot "arg_a"
      (.binop "+" (.number 1) (.number 2))] }]⟩

theorem distinct_adding : adding.levels.Distinct := by
  simp [LevelFile.Distinct, adding, Level.terms, Term.reference, Term.binop, Term.number,
    Term.withSlot, Term.withField, Term.ofTag, Term.parts, Term.tag, Term.fields, Terms.set,
    Term.Distinct, Terms.Distinct, Kind.tag]
  decide

/-- The function and the first number in it are both normal. Executing the number does nothing, but
executing the function does something. -/
theorem normal_of_start_adding : ∃ session, adding.start 0 = .ok session ∧
    adding.signature.isNormal session.present.nodes 1 = .ok true ∧
    adding.signature.isNormal session.present.nodes 3 = .ok true ∧
    (∀ most lo, (session.present.step adding.signature most 3).runFrom lo = (.ok none, lo)) ∧
    ∀ most lo, (session.present.step adding.signature most 1).runFrom lo ≠ (.ok none, lo) := by
  obtain ⟨session, h, hwell⟩ := Session.exists_wellFormed_start 0
    Signature.tagsReferences_standard distinct_adding (by decide +kernel)
  have hplace : (adding.start 0).toOption.map (fun session =>
      (session.present.board, (session.present.nodes.idsUnder 1).toOption)) =
        some ([1], some [3, 4, 2, 5, 1]) := by
    decide +kernel
  have hnodes : (adding.start 0).toOption.map (fun session => [1, 3].map fun x =>
      ((adding.signature.isNormal session.present.nodes x).toOption,
        (session.present.nodes.get? x).map Node.kind)) =
      some [(some true, some .reference), (some true, some .number)] := by
    decide +kernel
  rw [h] at hplace hnodes
  simp only [Except.toOption, Option.map_some, Option.some.injEq, Prod.mk.injEq, List.map_cons,
    List.map_nil, List.cons.injEq, and_true] at hplace hnodes
  obtain ⟨hboard, hids⟩ := hplace
  obtain ⟨⟨hone, hkind⟩, hthree, hkind'⟩ := hnodes
  obtain ⟨t, hid, ht, hids⟩ := Forest.exists_plant_of_idsUnder (toOption_eq_some_iff.1 hids)
  obtain ⟨u, hu, hid'⟩ := Plant.mem_ids_iff.1 (hids ▸ (by decide) : 3 ∈ t.ids)
  have hroot : t.id ∈ session.present.board := by
    rw [hid, hboard]
    exact List.mem_singleton_self 1
  rw [← hid, ht.get?_id] at hkind
  rw [← hid', (ht.of_mem_subs hu).get?_id] at hkind'
  have hnumber := normal_of_start h [] rfl hroot ht hu
    (hid' ▸ toOption_eq_some_iff.1 hthree)
  have hfunction := normal_of_start h [] rfl hroot ht t.mem_subs_self
    (hid ▸ toOption_eq_some_iff.1 hone)
  refine ⟨session, h, toOption_eq_some_iff.1 hone, toOption_eq_some_iff.1 hthree,
    fun most lo => ?_, fun most lo hstep => ?_⟩
  · rw [← hid']
    refine (hnumber.1 most lo).2 (.inl ?_)
    rw [Option.some.inj hkind']
    decide
  · rw [← hid] at hstep
    rcases (hfunction.1 most lo).1 hstep with hk | hblocked
    · exact hk (Option.some.inj hkind)
    · exact hfunction.2 _ hwell hblocked

end Play

end TermForest
