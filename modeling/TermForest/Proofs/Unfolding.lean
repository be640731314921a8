import Mathlib.Data.Multiset.DershowitzManna
import TermForest.Proofs.Rule.Calls
import TermForest.Proofs.Safety
import TermForest.Proofs.State.Apart

/-!
# Unfolding ends

A step that unfolds a definition takes away one reference and brings in those of the body, and the
check lets only names pass that do not call themselves. With the rank of its name for each reference
to such a name, an unfolding puts references of lower rank in the place of one: the ranks get
smaller in the order of Dershowitz and Manna. So no run of unfoldings goes on for ever.
-/

namespace TermForest

open Supply (Meets)

/-! ### Names in forests -/

namespace Forest

variable {F : Forest} {t : Plant}

/-- The name that the node at an id calls. -/
def calleeAt? (F : Forest) (x : NodeId) : Option String := (F.get? x).bind Node.callee?

/-- The names that are called anywhere in a forest, each as often as there are references to it. -/
def callees (F : Forest) : Multiset String := ↑(F.ids.filterMap F.calleeAt?)

theorem Holds.filterMap_calleeAt? (h : F.Holds t) : t.ids.filterMap F.calleeAt? = t.callees := by
  rw [← Plant.map_id_nodes, List.filterMap_map, Plant.callees]
  refine List.filterMap_congr fun n hn => ?_
  rw [Function.comp, calleeAt?, h.get?_of_mem_nodes hn]
  rfl

/-- The names in a forest are those outside of one of its plants and those inside. -/
theorem Holds.callees_eq (h : F.Holds t) (hn : t.ids.Nodup) :
    F.callees = ↑((F.ids.filter (· ∉ t.ids)).filterMap F.calleeAt?) + (t.callees : Multiset String) := by
  rw [callees, Multiset.coe_add, ← h.filterMap_calleeAt?, ← List.filterMap_append, Multiset.coe_eq_coe]
  refine List.Perm.filterMap _ ((List.perm_ext_iff_of_nodup F.nodup_ids ?_).2 fun x => ?_)
  · exact List.nodup_append.2 ⟨F.nodup_ids.filter _, hn, fun x hx y hy e => by
      simp only [List.mem_filter, decide_eq_true_eq] at hx
      exact hx.2 (e ▸ hy)⟩
  · have hsub : x ∈ t.ids → x ∈ F.ids := fun hx => by
      obtain ⟨n, hn, rfl⟩ := Plant.mem_ids_iff_nodes.1 hx
      exact mem_ids_iff.2 ⟨n, h.get?_of_mem_nodes hn⟩
    simp only [List.mem_append, List.mem_filter, decide_eq_true_eq]
    tauto

end Forest

namespace State

variable {s s' : State} {next next' : Nat} {S : Signature} {most : Int64} {target : NodeId}
  {name : String}

/-- A graft takes away the names of the old plant and brings in those of the new one. -/
theorem Grafts.exists_callees {t u : Plant} (h : s.Grafts t u s') :
    ∃ rest : Multiset String, s.nodes.callees = rest + t.callees ∧
      s'.nodes.callees = rest + u.callees := by
  refine ⟨_, h.old.callees_eq h.nodup_old, (h.new.callees_eq h.nodup_new).trans ?_⟩
  congr 1
  rw [Multiset.coe_eq_coe]
  have hcallee : ∀ x ∈ s.nodes.ids.filter (· ∉ t.ids),
      s'.nodes.calleeAt? x = s.nodes.calleeAt? x := by
    intro x hx
    simp only [List.mem_filter, decide_eq_true_eq, Forest.mem_ids_iff] at hx
    obtain ⟨⟨n, hn⟩, hxt⟩ := hx
    rw [Forest.calleeAt?, Forest.calleeAt?]
    by_cases hp : t.root.parent = some x
    · obtain ⟨slot, m, -, -, hm, hm'⟩ := h.holder x hp
      rw [hm, hm']
      rfl
    · rw [h.others x hxt (h.notMem_new hn) hp]
  rw [← List.filterMap_congr hcallee]
  refine List.Perm.filterMap _ ((List.perm_ext_iff_of_nodup (s'.nodes.nodup_ids.filter _)
    (s.nodes.nodup_ids.filter _)).2 fun x => ?_)
  have hhas := h.has_iff x
  rw [h.removed, h.added] at hhas
  have hfresh := h.fresh x
  simp only [Forest.has_eq_isSome, Option.isSome_iff_exists] at hhas
  simp only [List.mem_filter, decide_eq_true_eq, Forest.mem_ids_iff, hhas]
  grind

/-! ### Steps that build a plant -/

/-- A plant that sprouts is put in the place of a plant on the board. -/
theorem Kept.exists_grafts {lo hi : ℕ} (h : s.Kept lo) (hle : lo ≤ hi) {t u : Plant} {w : Replacement}
    {root : NodeId} (ht : s.nodes.Holds t) (hboard : root ∈ s.board)
    (hroot : s.nodes.RootOf t.id root) (hw : w.root = u.id) (hu : s.nodes.Sprouts w.forest lo hi u)
    (hadds : s.nodes.AddsRoot w.forest lo hi w.root) :
    ∃ s' v, s.graft t.id w = .ok s' ∧ s'.Kept hi ∧ s.Grafts t v s' ∧ v.shape = u.shape ∧
      ∀ n ∈ v.nodes, n.locked = false ∧ lo ≤ n.id ∧ n.id < hi := by
  obtain ⟨s', hs', hkept⟩ := h.exists_graft hle hroot hboard hw hu
  obtain ⟨t', u', hid, hid', hu', hgrafts, -⟩ := grafts_of_graft (h.linked.hung h.lt) hadds hs'
  obtain rfl := hgrafts.old.unique ht hid
  obtain rfl := hu'.unique hu.held (hid'.trans hw)
  refine ⟨s', _, hs', hkept, hgrafts, Plant.shape_inPlaceOf .., fun n hn => ?_⟩
  obtain ⟨k, hk, hid, hlocked⟩ := Plant.exists_of_mem_nodes_inPlaceOf hn
  have hmem : k.id ∈ u'.ids := Plant.mem_ids_iff_nodes.2 ⟨k, hk, rfl⟩
  rw [hid, hlocked]
  exact ⟨hu.grown.unlocked k hk, hu.grown.le _ hmem, hu.grown.lt _ hmem⟩

/-- If the rule for the node that is ready builds a plant of a known shape, a step puts such a plant
in the place of the node. -/
theorem Kept.exists_step (h : s.Kept next) {t : Plant} (ht : s.nodes.Holds t)
    (hready : s.ready S target = .ok (some t.root)) {shape : Shape}
    (hreduce : (s.reduce S most t.root).Meets next (fun o hi => o.Builds s.nodes next hi shape)
      fun _ => False) :
    ∃ s' next' u, (s.step S most target).runFrom next = (.ok (some s'), next') ∧ s'.Kept next' ∧
      s.Grafts t u s' ∧ u.shape = shape ∧
      ∀ n ∈ u.nodes, n.locked = false ∧ next ≤ n.id ∧ n.id < next' := by
  obtain ⟨-, hredex, -, root, hboard, htarget⟩ := of_ready hready
  have hroot : s.nodes.RootOf t.id root := h.linked.rootOf_redex htarget hredex
  have hbegin : (s.begin S most target).Meets next
      (fun p hi => ∃ o : Outcome, p = o.plan t.id ∧ o.Builds s.nodes next hi shape)
      fun _ => False := by
    rw [begin_eq, Supply.liftM_ok hready, pure_bind]
    refine hreduce.bind fun o hi _ ho => .pure ⟨o, rfl, ho⟩
  obtain ⟨p, next', hrun, hle, ⟨o, rfl, w, v, rfl, hw, hv, rfl⟩, hadds, -⟩ :=
    ((hbegin.and (addsRoot_begin (h.linked.hung h.lt) S most target)).imp (fun _ _ _ ho => ho)
      fun _ he => he.1).exists_ok
  obtain ⟨s', u, hs', hkept, hgrafts, hshape, hnew⟩ :=
    h.exists_grafts hle ht hboard hroot hw hv hadds
  refine ⟨s', next', u, ?_, hkept, hgrafts, hshape, hnew⟩
  rw [step, Supply.runFrom_bind, hrun]
  dsimp only
  rw [Outcome.plan, complete, Supply.liftM_ok hs']
  rfl

/-! ### What an unfolding does -/

/-- A reference that names no builtin passes its check if it has a definition that does not call
itself and no open parameter. -/
theorem checkReference_eq_ok_iff {r : Node} (hname : r.needText "name" = .ok name)
    (hb : S.builtin? name = none) : S.checkReference s r = .ok () ↔
      (∃ d, s.definition? name = some d) ∧ s.callsItself name = .ok false ∧
        s.nodes.openParameter? r = none := by
  rw [Signature.checkReference, liftM_eq_ok_iff.2 hname, ok_bind, hb]
  simp only [refuse_bind, ite_refuse_eq_ok_iff, bind_eq_ok_iff, liftM_eq_ok_iff]
  cases s.definition? name with
  | none => simp
  | some d =>
    cases s.nodes.openParameter? r with
    | none => simp
    | some p => simp

/-- A step that leads from `s` to `s'` has exchanged `t`, a reference to a definition, for `u`, a
copy of the body `b` that is applied to copies of the arguments. -/
structure Unfolded (s s' : State) (name : String) (d : Node) (b t u : Plant) : Prop where
  definition : s.definition? name = some d
  founded : s.callsItself name = .ok false
  callee : t.root.callee? = some name
  slot : d.slots.get? "body" = some b.id
  body : s.nodes.Holds b
  grafts : s.Grafts t u s'
  shape : u.shape = (t.parts.map Plant.shape).foldl .applied b.shape

/-- A step whose redex is a reference and no call of a builtin unfolds a definition. -/
theorem Kept.exists_unfolded (h : s.Kept next) {r : Node} (hready : s.ready S target = .ok (some r))
    (hk : r.kind = .reference) (hname : r.name? = some name) (hp : S.builtin? name = none)
    (hrun : (s.step S most target).runFrom next = (.ok (some s'), next')) :
    ∃ d b t u, s.Unfolded s' name d b t u ∧ t.root = r := by
  obtain ⟨hr, -, hcheck, -⟩ := of_ready hready
  obtain ⟨t, rfl, ht, -⟩ := h.stocked _ _ hr
  have hneed : t.root.needText "name" = .ok name := Node.needText_eq_ok_iff.2 hname
  rw [Signature.check, hk] at hcheck
  obtain ⟨⟨d, hd⟩, hfounded, -⟩ := (checkReference_eq_ok_iff hneed hp).1 hcheck
  obtain ⟨b, hbody, hslot, hb⟩ := exists_body_of_definition? h.stocked hd
  have hreduce : s.reduce S most t.root = s.reduceReference S most t.root := by rw [reduce, hk]
  obtain ⟨s'', _, u, hstep, -, hgrafts, hshape, -⟩ := h.exists_step ht hready
    (hreduce ▸ meets_unfold h.stocked ht most hneed hp hd hbody hb)
  obtain rfl : s'' = s' := by
    rw [hstep, Prod.mk.injEq, Except.ok.injEq, Option.some.injEq] at hrun
    exact hrun.1
  exact ⟨d, b, t, u, ⟨hd, hfounded, (Node.callee?_of_reference hk).trans hname, hslot, hb, hgrafts,
    hshape⟩, rfl⟩

/-! ### The ranks get smaller -/

namespace SharesDefs

variable (h : s.SharesDefs s')
include h

/-- A definition is held in both states. -/
theorem exists_holds {d : Node} (hd : s.definition? name = some d) :
    s'.definition? name = some d ∧ ∃ p : Plant, p.root = d ∧ s.nodes.Holds p ∧ s'.nodes.Holds p := by
  obtain ⟨p, hid, hheld, hheld', -⟩ := h.shares name d hd
  obtain ⟨id, hget, -⟩ := exists_of_definition? hd
  refine ⟨(h.definition? name).trans hd, p, ?_, hheld, hheld'⟩
  have hroot := hheld.get?_id
  rw [hid, Forest.id_of_get? hget, hget] at hroot
  exact (Option.some.inj hroot).symm

theorem calls_eq : s'.Calls = s.Calls := by
  funext m n
  refine propext ⟨?_, ?_⟩
  · rintro ⟨t, ht, hheld, hn⟩
    rw [h.definition?] at ht
    obtain ⟨-, u, hroot, hu, hu'⟩ := h.exists_holds ht
    obtain rfl := hu'.unique hheld (congrArg Node.id hroot)
    exact ⟨u, ht, hu, hn⟩
  · rintro ⟨t, ht, hheld, hn⟩
    obtain ⟨hd, u, hroot, hu, hu'⟩ := h.exists_holds ht
    obtain rfl := hu.unique hheld (congrArg Node.id hroot)
    exact ⟨u, hd, hu', hn⟩

theorem founded_eq : s'.Founded = s.Founded := by
  funext name
  rw [Founded, Founded, h.calls_eq, h.definition?]

theorem rank_eq : s'.rank = s.rank := by
  funext name
  simp only [rank, reach, h.calls_eq, h.definition?]

end SharesDefs

open scoped Classical in
/-- The ranks of the founded names that are called in a state, one for each reference. -/
noncomputable def burden (s : State) : Multiset ℕ := (s.nodes.callees.filter s.Founded).map s.rank

/-- A defined name calls what its body calls. -/
theorem Kept.calls_of_body (h : s.Kept next) {d : Node} {b : Plant} (hd : s.definition? name = some d)
    (hslot : d.slots.get? "body" = some b.id) (hb : s.nodes.Holds b) {n : String}
    (hn : n ∈ b.callees) : s.Calls name n := by
  obtain ⟨id, hid, -⟩ := exists_of_definition? hd
  obtain ⟨t, rfl, ht, -⟩ := h.stocked id d hid
  have hchild : b.id ∈ t.root.slots.children := Slots.mem_children_iff.2 ⟨_, hslot⟩
  rw [ht.children, List.mem_map] at hchild
  obtain ⟨p, hp, hpid⟩ := hchild
  have hsub := Plant.mem_subs_of_mem_parts hp
  obtain rfl := (ht.of_mem_subs hsub).unique hb hpid
  exact ⟨t, hd, ht, Plant.callees_subset hsub hn⟩

/-- An unfolding takes one rank out of the burden and brings in lower ones. -/
theorem Unfolded.burden_lt {d : Node} {b t u : Plant} (h : s.Unfolded s' name d b t u)
    (hs : s.Kept next) (hdefs : s.SharesDefs s') : s'.burden.IsDershowitzMannaLT s.burden := by
  classical
  obtain ⟨rest, hold, hnew⟩ := h.grafts.exists_callees
  have ht : t.callees = t.parts.flatMap Plant.callees ++ [name] := by
    obtain ⟨root, parts⟩ := t
    rw [Plant.callees_mk, show root.callee? = some name from h.callee]
    rfl
  have hu : u.callees = b.callees ++ t.parts.flatMap Plant.callees := by
    rw [← Plant.callees_shape, h.shape, Shape.callees_foldl_applied, Plant.callees_shape,
      List.flatMap_map]
    simp only [Plant.callees_shape]
  have hname : s.Founded name :=
    ⟨by rw [h.definition]; rfl, not_calls_self (hs.linked.hung hs.lt) h.founded⟩
  -- the references outside the redex and those of the arguments stay
  set stay : Multiset String := rest + t.parts.flatMap Plant.callees with hstay
  have hold : s.nodes.callees = stay + {name} := by
    rw [hold, ht, hstay, ← Multiset.coe_add, add_assoc]
    rfl
  have hnew : s'.nodes.callees = stay + b.callees := by
    rw [hnew, hu, hstay, ← Multiset.coe_add, add_assoc, add_comm (b.callees : Multiset String)]
  refine ⟨(stay.filter s.Founded).map s.rank,
    ((b.callees : Multiset String).filter s.Founded).map s.rank, {s.rank name}, by simp, ?_, ?_,
    fun y hy => ?_⟩
  · rw [burden, hdefs.founded_eq, hdefs.rank_eq, hnew, Multiset.filter_add, Multiset.map_add]
  · rw [burden, hold, Multiset.filter_add, Multiset.map_add, Multiset.filter_singleton, if_pos hname]
    rfl
  · obtain ⟨n, hn, rfl⟩ := Multiset.mem_map.1 hy
    obtain ⟨hn, hfounded⟩ := Multiset.mem_filter.1 hn
    exact ⟨_, Multiset.mem_singleton_self _,
      rank_lt (hs.calls_of_body h.definition h.slot h.body hn) hfounded⟩

end State

/-! ### Runs of unfoldings -/

namespace Game

variable {g : Game} {σ τ : State × NodeId}

/-- An `execute` command whose redex is a reference, and not a call of a builtin, leads from one
state to another. Between two commands, more ids may be handed out. -/
def Unfolds (g : Game) (σ τ : State × NodeId) : Prop :=
  ∃ target r name next, g.signature.redex σ.1.nodes target = .ok (some r) ∧
    (∃ n, σ.1.nodes.get? r = some n ∧ n.kind = .reference ∧ n.name? = some name) ∧
    g.signature.builtin? name = none ∧
    (g.obey σ.1 (.execute target)).runFrom σ.2 = (.ok (some τ.1), next) ∧ next ≤ τ.2

/-- An unfolding keeps a state and takes from its burden. -/
theorem Unfolds.decreases (h : g.Unfolds σ τ) (hσ : σ.1.Kept σ.2) :
    τ.1.Kept τ.2 ∧ τ.1.burden.IsDershowitzMannaLT σ.1.burden := by
  obtain ⟨target, r, name, next, hredex, ⟨n, hn, hk, hname⟩, hb, hrun, hle⟩ := h
  obtain ⟨m, hready⟩ := State.exists_ready_of_step hrun
  obtain ⟨hm, hredex', -, root, hboard, hroot⟩ := State.of_ready hready
  obtain rfl := Option.some.inj (Except.ok.inj (hredex.symm.trans hredex'))
  obtain rfl := Option.some.inj (hn.symm.trans hm)
  obtain ⟨d, b, t, u, hunfolded, rfl⟩ := hσ.exists_unfolded hready hk hname hb hrun
  have hkept := ((hσ.meets_step g.signature g.settings.maxRepeat target).of_ok hrun).2 τ.1 rfl
  exact ⟨hkept.mono hle, hunfolded.burden_lt hσ <|
    hunfolded.grafts.sharesDefs hσ hboard (hσ.linked.rootOf_redex hroot hredex)⟩

/-- The unfoldings from a kept state come to an end. -/
theorem acc_unfolds (hσ : σ.1.Kept σ.2) : Acc (fun τ σ => g.Unfolds σ τ) σ := by
  have hacc : Acc Multiset.IsDershowitzMannaLT σ.1.burden :=
    Multiset.wellFounded_isDershowitzMannaLT.apply _
  generalize hburden : σ.1.burden = burden at hacc
  induction hacc generalizing σ with
  | intro burden _ ih =>
    refine .intro _ fun τ hτ => ?_
    obtain ⟨hkept, hlt⟩ := hτ.decreases hσ
    exact ih _ (hburden ▸ hlt) hkept rfl

/-- Unfoldings end. From a well-formed state, whatever its definitions are, the relation of one
unfolding is well-founded, and so no endless run of them starts there. -/
theorem unfolding_ends (g : Game) {s : State} {next : NodeId} (hs : s.WellFormed next) :
    Acc (fun τ σ => g.Unfolds σ τ) (s, next) ∧
      ¬∃ run : ℕ → State × NodeId, run 0 = (s, next) ∧ ∀ i, g.Unfolds (run i) (run (i + 1)) := by
  have hacc : Acc (fun τ σ => g.Unfolds σ τ) (s, next) := acc_unfolds hs.kept
  exact ⟨hacc, fun hrun => not_acc_iff_exists_descending_chain.2 hrun hacc⟩

/-- A game with a definition that a reference on the board calls. -/
def calling : Game where
  levels := ⟨[{
    board := [.reference "k" []]
    defs := [.define "k" (.number 7)] }]⟩

/-- The reference on the board. -/
def callingNode : Node :=
  Node.withField (Node.withField { id := 1, kind := .reference } "name" (.text "k")) "params" (.list [])

theorem distinct_calling : calling.levels.Distinct := by
  simp [LevelFile.Distinct, calling, Level.terms, Term.reference, Term.number,
    Term.define, Term.withSlot, Term.withField, Term.ofTag, Term.parts, Term.tag, Terms.set,
    Term.Distinct, Terms.Distinct, Kind.tag, or_imp, forall_and]
  decide

/-- The reference is ready to be unfolded. -/
theorem ready_calling {session : Session State Move} (h : calling.start 0 = .ok session) :
    session.present.ready calling.signature 1 = .ok (some callingNode) := by
  have hplace : (calling.start 0).toOption.map (fun session => (session.present.nodes.get? 1,
      session.present.board, (session.present.nodes.rootOf 1).toOption)) =
        some (some callingNode, [1], some 1) := by
    decide +kernel
  have hredex : (calling.start 0).toOption.map (fun session =>
      ((calling.signature.redex session.present.nodes 1).toOption,
        session.present.nodes.openParameter? callingNode)) = some (some (some 1), none) := by
    decide +kernel
  have hdef : (calling.start 0).toOption.bind (fun session =>
      (session.present.definition? "k").bind fun d =>
        (session.present.nodes.findAll d.id fun n => n.kind = .reference).toOption) = some [] := by
    decide +kernel
  rw [h] at hplace hredex hdef
  simp only [Except.toOption, Option.map_some, Option.some.injEq, Prod.mk.injEq] at hplace hredex
  obtain ⟨_, ⟨⟩, hdef⟩ := Option.bind_eq_some_iff.1 hdef
  obtain ⟨d, hd, hreferences⟩ := Option.bind_eq_some_iff.1 hdef
  obtain ⟨hnode, hboard, hroot⟩ := hplace
  obtain ⟨hredex, hopen⟩ := hredex
  have hb : calling.signature.builtin? "k" = none := by decide
  refine State.ready_of_check hnode (toOption_eq_some_iff.1 hroot) (by simp [hboard]) rfl
    (toOption_eq_some_iff.1 hredex) hnode (by decide) ?_
  exact (State.checkReference_eq_ok_iff rfl hb).2
    ⟨⟨d, hd⟩, State.callsItself_of_no_reference hd (toOption_eq_some_iff.1 hreferences), hopen⟩

/-- The reference is unfolded, and unfoldings end after that. -/
theorem unfolding_ends_calling : ∃ session τ, calling.start 0 = .ok session ∧
    calling.Unfolds (session.present, session.next) τ ∧
    Acc (fun τ σ => calling.Unfolds σ τ) (session.present, session.next) := by
  cases h : calling.start 0 with
  | error fault =>
    have hstart : (calling.start 0).toOption.isSome = true := by decide +kernel
    rw [h] at hstart
    cases hstart
  | ok session =>
    have hrun : (calling.start 0).toOption.bind (fun session =>
        let reduced := (session.present.reduce calling.signature calling.settings.maxRepeat
          callingNode).runFrom session.next
        reduced.1.toOption.bind fun o =>
          ((session.present.complete calling.signature (o.plan 1)).runFrom reduced.2).1.toOption.bind
            fun o => o.map State.board) = some [4] := by
      decide +kernel
    rw [h] at hrun
    obtain ⟨_, ⟨⟩, hrun⟩ := Option.bind_eq_some_iff.1 hrun
    obtain ⟨o, ho, hrun⟩ := Option.bind_eq_some_iff.1 hrun
    obtain ⟨o', ho', hrun⟩ := Option.bind_eq_some_iff.1 hrun
    obtain ⟨s', rfl, -⟩ := Option.map_eq_some_iff.1 hrun
    rw [toOption_eq_some_iff] at ho ho'
    rcases hreduce : (session.present.reduce calling.signature calling.settings.maxRepeat
      callingNode).runFrom session.next with ⟨x, mid⟩
    rw [hreduce] at ho ho'
    obtain rfl : x = .ok o := ho
    rcases hcomplete : (session.present.complete calling.signature (o.plan 1)).runFrom mid with
      ⟨y, next'⟩
    rw [hcomplete] at ho'
    obtain rfl : y = .ok (some s') := ho'
    have hready := ready_calling h
    have hstep : (calling.obey session.present (.execute 1)).runFrom session.next =
        (.ok (some s'), next') := by
      rw [obey, State.step, State.begin_eq, Supply.liftM_ok hready, pure_bind]
      simp only [Supply.runFrom_bind, hreduce, Supply.runFrom_pure, Supply.runFrom_liftM,
        show callingNode.id = 1 from rfl, hcomplete]
    have hnext : (calling.start 0).toOption.map Session.next = some 4 := by decide +kernel
    rw [h] at hnext
    have hnext : session.next = 4 := Option.some.inj hnext
    have hkept := (Session.kept_of_start Signature.tagsReferences_standard distinct_calling
      h).states.present
    refine ⟨session, (s', next'), rfl, ⟨1, 1, "k", next', (State.of_ready hready).2.1,
      ⟨callingNode, (State.of_ready hready).1, rfl, rfl⟩, by decide, hstep, Nat.le_refl next'⟩, ?_⟩
    exact (calling.unfolding_ends (hkept.wellFormed (by rw [hnext]; decide))).1

end Game

end TermForest
