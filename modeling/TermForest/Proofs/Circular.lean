import TermForest.Proofs.Unfolding

/-!
# Circular calls

The search for circular calls comes back to a name exactly if a chain of calls does. Whatever it
puts on its stack is the name or is reached from it, so that a reference to the name, once found,
closes a chain; and a search that ends has left no name out that a chain could pass. Of all checks
only that of a reference makes the search, so a circular call is refused exactly at the references
to such names.
-/

namespace TermForest

open Relation (ReflTransGen TransGen)

/-! ### The search -/

namespace State

variable {s : State} {next : Nat} {name sought : String}

/-- References are given up on as soon as one of them carries the sought name. -/
theorem exists_of_calledBy_eq_none {references : List Node}
    (h : calledBy sought references = .ok none) : ∃ n ∈ references, n.name? = some sought := by
  induction references with
  | nil => cases h
  | cons r references ih =>
    obtain ⟨name, hname, h⟩ := bind_eq_ok_iff.1 h
    split at h
    · next heq =>
      exact ⟨r, List.mem_cons_self, heq ▸ Node.needText_eq_ok_iff.1 hname⟩
    · obtain ⟨o, ho, h⟩ := bind_eq_ok_iff.1 h
      obtain rfl := Option.map_eq_none_iff.1 (Except.ok.inj h)
      obtain ⟨n, hn, hsought⟩ := ih ho
      exact ⟨n, List.mem_cons_of_mem _ hn, hsought⟩

/-- References carry the names that are listed for them. -/
theorem exists_of_mem_calledBy {references : List Node} {names : List String}
    (h : calledBy sought references = .ok (some names)) (hm : name ∈ names) :
    ∃ n ∈ references, n.name? = some name := by
  induction references generalizing names with
  | nil =>
    cases h
    cases hm
  | cons r references ih =>
    obtain ⟨first, hfirst, h⟩ := bind_eq_ok_iff.1 h
    split at h
    · cases h
    obtain ⟨o, ho, h⟩ := bind_eq_ok_iff.1 h
    obtain ⟨others, rfl, rfl⟩ := Option.map_eq_some_iff.1 (Except.ok.inj h)
    rcases List.mem_cons.1 hm with rfl | hm
    · exact ⟨r, List.mem_cons_self, Node.needText_eq_ok_iff.1 hfirst⟩
    · obtain ⟨n, hn, hcarries⟩ := ih ho hm
      exact ⟨n, List.mem_cons_of_mem _ hn, hcarries⟩

/-- A name is called by the definition below which a reference carries it. -/
theorem calls_of_findAll (hF : s.nodes.Stocked next) {current : String} {d n : Node}
    {references : List Node} (hd : s.definition? current = some d)
    (h : s.nodes.findAll d.id (fun n => n.kind = .reference) = .ok references)
    (hn : n ∈ references) (hname : n.name? = some name) : s.Calls current name := by
  obtain ⟨t, rfl, ht, hnodup, -⟩ := hF d.id d (mem_defs_of_definition? hd).2
  rw [Plant.id_root, ht.findAll hnodup, Except.ok.injEq] at h
  subst h
  obtain ⟨hmem, hk⟩ := List.mem_filter.1 hn
  refine ⟨t, hd, ht, List.mem_filterMap.2 ⟨n, hmem, ?_⟩⟩
  rw [Node.callee?_of_reference (of_decide_eq_true hk), hname]

/-- A name is called by a definition with one reference, which carries it. -/
theorem calls_of_names (hF : s.nodes.Stocked next) {current : String}
    (h : ((s.definition? current).bind fun d =>
      (s.nodes.findAll d.id fun n => n.kind = .reference).toOption.map (List.map Node.name?)) =
        some [some name]) : s.Calls current name := by
  obtain ⟨d, hd, h⟩ := Option.bind_eq_some_iff.1 h
  obtain ⟨references, hreferences, hnames⟩ := Option.map_eq_some_iff.1 h
  obtain ⟨n, rfl, hname⟩ := List.map_eq_singleton_iff.1 hnames
  exact calls_of_findAll hF hd (toOption_eq_some_iff.1 hreferences) List.mem_cons_self hname

/-- A search whose stack is reached from a name finds none but names that are reached in the same
way. -/
theorem transGen_of_callsFrom (hF : s.nodes.Stocked next) {visited stack : List String}
    (h : s.callsFrom sought visited stack = .ok true)
    (hstack : ∀ m ∈ stack, ReflTransGen s.Calls name m) : TransGen s.Calls name sought := by
  fun_induction callsFrom s sought visited stack with
  | case1 => cases h
  | case2 _ _ _ _ ih => exact ih h fun m hm => hstack m (List.mem_cons_of_mem _ hm)
  | case3 _ _ _ _ _ ih => exact ih h fun m hm => hstack m (List.mem_cons_of_mem _ hm)
  | case4 visited current stack _ d hd ih =>
    have hcurrent := hstack current List.mem_cons_self
    obtain ⟨references, hreferences, h⟩ := bind_eq_ok_iff.1 h
    obtain ⟨o, ho, h⟩ := bind_eq_ok_iff.1 h
    cases o with
    | none =>
      obtain ⟨n, hn, hsought⟩ := exists_of_calledBy_eq_none ho
      exact .tail' hcurrent (calls_of_findAll hF hd hreferences hn hsought)
    | some names =>
      refine ih names h fun m hm => ?_
      rcases List.mem_append.1 hm with hm | hm
      · obtain ⟨n, hn, hname⟩ := exists_of_mem_calledBy ho (List.mem_reverse.1 hm)
        exact hcurrent.tail (calls_of_findAll hF hd hreferences hn hname)
      · exact hstack m (List.mem_cons_of_mem _ hm)

/-- The search ends, and it comes back to a name exactly if a chain of calls does. -/
theorem Kept.exists_callsItself (h : s.Kept next) (name : String) :
    ∃ b, s.callsItself name = .ok b ∧ (b = true ↔ TransGen s.Calls name name) := by
  obtain ⟨b, hb⟩ := exists_callsFrom h.stocked name [] [name]
  refine ⟨b, hb, ?_⟩
  cases b with
  | false => simpa using not_calls_self (h.linked.hung h.lt) hb
  | true => simpa using transGen_of_callsFrom h.stocked hb fun m hm =>
      List.mem_singleton.1 hm ▸ .refl

theorem Kept.callsItself_eq_ok_false_iff (h : s.Kept next) :
    s.callsItself name = .ok false ↔ ¬TransGen s.Calls name name := by
  obtain ⟨b, hb, hiff⟩ := h.exists_callsItself name
  rw [hb, ← hiff, Except.ok.injEq, Bool.not_eq_true]

end State

/-! ### The checks -/

/-- A failure that refuses no circular call. -/
def Failure.Straight : Failure → Prop
  | .rejected (.circularCall ..) => False
  | _ => True

/-- A computation that refuses no circular call. -/
def Straight {α : Type} (x : Except Failure α) : Prop := Ends x (fun _ => True) Failure.Straight

namespace Straight

variable {α β : Type} {F : Forest} {S : Signature} {s : State}

theorem bind {x : Except Failure α} {f : α → Except Failure β} (hx : Straight x)
    (hf : ∀ a, Straight (f a)) : Straight (x >>= f) := Ends.bind hx fun a _ => hf a

/-- What looks a node up, or reads a field or a slot, refuses nothing. -/
theorem lift (x : Except Fault α) : Straight (liftM x : Except Failure α) := by
  cases x <;> exact trivial

/-- A refusing guard. -/
theorem guard {p : Prop} [Decidable p] {why : Rejection} {x : Except Failure α}
    (hwhy : Failure.Straight (.rejected why)) (hx : Straight x) :
    Straight (if p then refuse why >>= fun _ : PUnit => x else x) :=
  Ends.guard (fun _ => hwhy) fun _ => hx

theorem requireOneOf (id : NodeId) (permitted : List CoarseType) (expected : String) :
    Straight (S.requireOneOf F id permitted expected) := by
  refine (lift _).bind fun actual => ?_
  split
  · exact trivial
  · split <;> exact trivial

theorem requireType (id : NodeId) (permitted : CoarseType) :
    Straight (S.requireType F id permitted) := requireOneOf ..

theorem checkApply (n : Node) : Straight (S.checkApply s n) := by
  refine (lift _).bind fun callee => (lift _).bind fun f => ?_
  split
  · exact trivial
  · refine (lift _).bind fun arg => (lift _).bind fun binder => ?_
    split <;> exact trivial
  · refine (lift _).bind fun name => guard trivial ?_
    split <;> exact trivial
  · exact (lift _).bind fun actual => trivial

theorem checkBinop (n : Node) : Straight (S.checkBinop s n) := by
  refine (lift _).bind fun op => (lift _).bind fun left => (lift _).bind fun right => ?_
  split
  · exact (requireOneOf ..).bind fun _ => (lift _).bind fun _ => requireType ..
  · exact (requireOneOf ..).bind fun _ => (lift _).bind fun _ => requireType ..
  · exact (requireOneOf ..).bind fun _ => (lift _).bind fun _ => requireType ..
  · refine (requireType ..).bind fun _ => (requireType ..).bind fun _ => ?_
    split
    · refine (lift _).bind fun divisor => ?_
      split <;> exact trivial
    · exact trivial
  · exact trivial

theorem checkMember (n : Node) : Straight (S.checkMember s n) := by
  refine (lift _).bind fun array => (lift _).bind fun index => (requireType ..).bind fun _ =>
    (requireType ..).bind fun _ => (lift _).bind fun position => (lift _).bind fun a =>
      (lift _).bind fun length => ?_
  split <;> exact trivial

theorem checkBuiltin (b : Builtin) (n : Node) (arguments : List NodeId) :
    Straight (b.check S F n arguments) := by
  cases b with
  | eat => exact trivial
  | «repeat» =>
    exact (lift _).bind fun count => (lift _).bind fun function =>
      (requireType ..).bind fun _ => requireType ..
  | length => exact (lift _).bind fun array => requireType ..
  | concat =>
    exact (lift _).bind fun left => (requireType ..).bind fun _ => (lift _).bind fun right =>
      requireType ..

/-- Only references are ever refused as circular calls. -/
theorem check {n : Node} (h : n.kind ≠ .reference) : Straight (S.check s n) := by
  unfold Signature.check
  split
  · exact trivial
  · exact (lift _).bind fun name => trivial
  · exact checkApply n
  · exact checkBinop n
  · exact (lift _).bind fun condition => requireType ..
  · exact (lift _).bind fun value => requireType ..
  · exact checkMember n
  · exact absurd ‹_› h
  all_goals exact trivial

/-- A straight computation does not end in the refusal of a circular call. -/
theorem ne_circularCall {x : Except Failure α} (h : Straight x) (id : NodeId) (name : String) :
    x ≠ .error (.rejected (.circularCall id name)) := by
  rintro rfl
  exact h

end Straight

namespace Signature

variable {S : Signature} {s : State} {n : Node} {name : String}

/-- The check of a reference refuses a circular call if it names no builtin, has a definition, and
the search comes back to the name. -/
theorem checkReference_eq_circularCall_iff (hname : n.needText "name" = .ok name) {id : NodeId}
    {called : String} : S.checkReference s n = .error (.rejected (.circularCall id called)) ↔
      id = n.id ∧ called = name ∧ S.builtin? name = none ∧ (s.definition? name).isSome = true ∧
        s.callsItself name = .ok true := by
  rw [checkReference, liftM_eq_ok_iff.2 hname, ok_bind]
  split
  · next p hp =>
    refine iff_of_false (Straight.ne_circularCall (.guard ?_ ?_) id called) (by simp [hp])
    · exact trivial
    split
    · exact trivial
    · exact .checkBuiltin ..
  · next hp =>
    cases hd : s.definition? name with
    | none => simp [refuse]
    | some d =>
      cases hb : s.callsItself name with
      | error fault => exact iff_of_false (by rintro ⟨⟩) (by simp)
      | ok b =>
        rw [liftM_eq_ok_iff.2 rfl]
        cases b with
        | true => simp [hp, refuse, eq_comm]
        | false =>
          cases s.nodes.openParameter? n <;> simp [refuse]

end Signature

namespace State

variable {s : State} {next : Nat}

/-- Circular calls are refused exactly for recursive definitions. The search for a chain of calls
from a name back to itself ends in every well-formed state, whatever the definitions are, and tells
whether there is one; and the check of a node refuses it as a circular call exactly if it is a
reference to such a name that is not the name of a builtin. -/
theorem WellFormed.circular_iff (h : s.WellFormed next) :
    (∀ name, ∃ b, s.callsItself name = .ok b ∧ (b = true ↔ TransGen s.Calls name name)) ∧
    ∀ (S : Signature) (x : NodeId) (n : Node), s.nodes.get? x = some n → ∀ id name,
      S.check s n = .error (.rejected (.circularCall id name)) ↔
        n.kind = .reference ∧ id = x ∧ n.name? = some name ∧ S.builtin? name = none ∧
          TransGen s.Calls name name := by
  refine ⟨h.kept.exists_callsItself, fun S x n hn id name => ?_⟩
  by_cases hk : n.kind = .reference
  · obtain ⟨own, hown, hneed⟩ := (h.kept.stocked.formed hn).exists_name (by rw [hk]; decide)
    obtain ⟨b, hb, hiff⟩ := h.kept.exists_callsItself own
    have hcheck : S.check s n = S.checkReference s n := by rw [Signature.check, hk]
    rw [hcheck, Signature.checkReference_eq_circularCall_iff hneed, hb, Except.ok.injEq, hiff,
      Forest.id_of_get? hn]
    constructor
    · rintro ⟨rfl, rfl, hp, -, hchain⟩
      exact ⟨hk, rfl, hown, hp, hchain⟩
    · rintro ⟨-, rfl, hname, hp, hchain⟩
      obtain rfl := Option.some.inj (hown.symm.trans hname)
      obtain ⟨m, hcalls, -⟩ := TransGen.head'_iff.1 hchain
      exact ⟨rfl, rfl, hp, hcalls.isSome_definition?, hchain⟩
  · exact iff_of_false ((Straight.check hk).ne_circularCall id name) fun hall => hk hall.1

end State

namespace Game

/-- A game with two definitions that call each other. -/
def circling : Game where
  levels := ⟨[{
    board := [.reference "even" []]
    defs := [.define "even" (.not (.reference "odd" [])),
      .define "odd" (.not (.reference "even" []))] }]⟩

theorem distinct_circling : circling.levels.Distinct := by
  simp [LevelFile.Distinct, circling, Level.terms, Term.reference, Term.not, Term.define,
    Term.withSlot, Term.withField, Term.ofTag, Term.parts, Term.tag, Terms.set, Term.Distinct,
    Terms.Distinct, Kind.tag, or_imp, forall_and]
  decide

/-- The search comes back to the first name through the second, and the reference on the board is
refused. -/
theorem circular_iff_circling : ∃ session, circling.start 0 = .ok session ∧
    session.present.WellFormed session.next ∧ session.present.callsItself "even" = .ok true ∧
    ∃ n, session.present.nodes.get? 1 = some n ∧ circling.signature.check session.present n =
      .error (.rejected (.circularCall 1 "even")) := by
  obtain ⟨session, h, hwell⟩ := Session.exists_wellFormed_start 0
    Signature.tagsReferences_standard distinct_circling (by decide +kernel)
  have hnode : (circling.start 0).toOption.bind (fun session =>
      (session.present.nodes.get? 1).map fun n => (n.kind, n.name?)) =
        some (.reference, some "even") := by
    decide +kernel
  have hcalls : (circling.start 0).toOption.map (fun session => ["even", "odd"].map fun name =>
      (session.present.definition? name).bind fun d =>
        (session.present.nodes.findAll d.id fun n => n.kind = .reference).toOption.map
          (List.map Node.name?)) = some [some [some "odd"], some [some "even"]] := by
    decide +kernel
  rw [h] at hnode hcalls
  obtain ⟨_, ⟨⟩, hnode⟩ := Option.bind_eq_some_iff.1 hnode
  obtain ⟨n, hn, hfields⟩ := Option.map_eq_some_iff.1 hnode
  simp only [Except.toOption, Option.map_some, Option.some.injEq, Prod.mk.injEq, List.map_cons,
    List.map_nil, List.cons.injEq] at hfields hcalls
  obtain ⟨hk, hname⟩ := hfields
  have hchain : TransGen session.present.Calls "even" "even" :=
    .tail (.single (State.calls_of_names hwell.kept.stocked hcalls.1))
      (State.calls_of_names hwell.kept.stocked hcalls.2.1)
  obtain ⟨hsearch, hcheck⟩ := hwell.circular_iff
  obtain ⟨b, hb, hiff⟩ := hsearch "even"
  exact ⟨session, h, hwell, hb.trans (congrArg _ (hiff.2 hchain)), n, hn,
    (hcheck _ 1 n hn 1 "even").2 ⟨hk, rfl, hname, by decide, hchain⟩⟩

end Game

end TermForest
