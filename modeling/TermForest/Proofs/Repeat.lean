import TermForest.Proofs.Reduction
import TermForest.Proofs.Substitution

/-!
# Repeating a function

A call of `repeat` is reduced in two phases. The first checks the count, the second builds a lambda
whose body applies the function as often as the count says. The variable of the lambda is spelled
nowhere in the function, so no variable of the function is caught, and the lambda, applied to an
argument, gives the function applied to it that many times.
-/

namespace TermForest

open Supply (Meets)

/-! ### Applications one around the other -/

namespace Shape

variable {f v body : Shape} {x : String} {scope : List (Option String)}

theorem proper_var (x : String) : (var x).Proper := .other (by decide) nofun

theorem Proper.applied (hf : f.Proper) (hv : v.Proper) : (Shape.applied f v).Proper := by
  refine .other (by decide) fun p hp => ?_
  rcases List.mem_pair.1 hp with rfl | rfl
  · exact hf
  · exact hv

theorem Proper.iterate_applied (hf : f.Proper) (hv : v.Proper) (times : ℕ) :
    ((Shape.applied f)^[times] v).Proper := by
  induction times with
  | zero => exact hv
  | succ times ih =>
    rw [Function.iterate_succ_apply']
    exact hf.applied ih

theorem bound?_lambda : (lambda x body).bound? = some x := by
  simp [lambda, binder, name?, Std.ExtTreeMap.get?_eq_getElem?, Datum.text?]

theorem read_applied : (applied f v).read scope =
    .mk .apply none ∅ ["callee", "argument"] [f.read scope, v.read scope] := by
  rw [applied, read_other (by decide), index?_of_ne_var (by decide)]
  rfl

theorem var?_var : (var x).var? = some x := by
  simp [var, Std.ExtTreeMap.get?_eq_getElem?, Datum.text?]

/-- Substituting for the variable around which a function is applied gives the applications around what
is put in, if the variable is not free in the function. -/
theorem substitute_read_iterate (hf : f.Proper) (hx : x ∉ f.free) (v : Shape) (times : ℕ) :
    (((applied f)^[times] (var x)).read []).substitute x (v.read []) =
      ((applied f)^[times] v).read [] := by
  induction times with
  | zero =>
    show ((var x).read []).substitute x (v.read []) = v.read []
    rw [var, substitute_read_other (by decide), if_pos ⟨var?_var, List.not_mem_nil⟩]
  | succ times ih =>
    rw [Function.iterate_succ_apply', Function.iterate_succ_apply', read_applied, read_applied,
      Nameless.substitute_mk, if_neg (by simp), List.map_cons, List.map_singleton, ih,
      hf.substitute_read_of_bound fun hfree => absurd hfree hx]

/-- A function reads the same below a lambda whose variable is not free in it. -/
theorem Proper.read_of_notMem_free (hf : f.Proper) (hx : x ∉ f.free) :
    f.read [some x] = f.read [] :=
  hf.read_congr fun y hy => by
    have hne : x ≠ y := fun e => hx (e ▸ hy)
    simp [List.idxOf?_cons, hne]

end Shape

/-- A lambda, or a named function with an open parameter. -/
def Plant.IsFunction (f : Plant) : Prop :=
  f.root.kind = .lambda ∨ f.root.kind = .reference ∧ 0 < f.openings

namespace State

variable {s : State} {S : Signature} {target : NodeId} {t c f l v : Plant} {n : Int64} {next : ℕ}

/-- Functions have the coarse type of lambdas. -/
theorem Kept.coarseType_of_isFunction (hs : s.Kept next) (hf : s.nodes.Holds f)
    (hfunction : f.IsFunction) : f.root.coarseType s.nodes.get? = .lambda := by
  rcases hfunction with hk | ⟨hk, hopen⟩
  · rw [Node.coarseType, hk]
  · obtain ⟨-, -, hformed⟩ := hs.stocked.of_holds hf
    rw [Node.coarseType, hk]
    exact if_pos ((hf.isSome_openParameter?_iff hk hformed.root).2 hopen)

/-! ### The first phase -/

/-- The first phase puts the call off, unless the count is out of range. It hands out no ids. -/
theorem Finds.begin_repeat (h : s.Finds S target t) (hs : s.Kept next) (hS : S.Full) (most : Int64)
    (hc : t.CallsBuiltin .repeat [c, f]) (hn : c.IsNumber n) (hf : f.IsFunction) :
    (s.begin S most target).runFrom next =
      if n < 0 ∨ most < n then (.error (.rejected (.builtin c.id
        s!"repeat count must be between 0 and {most.toInt}, got {n.toInt}")), next)
      else (.ok (.deferred t.id ⟨.repeat, t.id, [c.id, f.id]⟩), next) := by
  have hheld : s.nodes.Holds c ∧ s.nodes.Holds f :=
    ⟨h.held.of_mem_subs (Plant.mem_subs_of_mem_parts (by simp [hc.parts])),
      h.held.of_mem_subs (Plant.mem_subs_of_mem_parts (by simp [hc.parts]))⟩
  have hne : f.root.kind ≠ .hole := by
    rcases hf with hk | ⟨hk, -⟩ <;> simp [hk]
  have hchildren : t.root.slots.children = [c.id, f.id] := by
    rw [h.held.children, hc.parts]
    rfl
  have hcheck : S.check s t.root = .ok () := by
    rw [hs.check_of_callsBuiltin hS h.held hc rfl (by simp [hn.kind, hne]), Builtin.check,
      liftM_eq_ok_iff.2 (Node.argument_eq_ok_iff.2 rfl), ok_bind,
      liftM_eq_ok_iff.2 (Node.argument_eq_ok_iff.2 rfl), ok_bind,
      hS.requireType_eq_ok hheld.1.get?_id (by rw [Node.coarseType, hn.kind]) (by decide), ok_bind,
      hS.requireType_eq_ok hheld.2.get?_id (hs.coarseType_of_isFunction hheld.2 hf) (by decide)]
  rw [begin_eq, h.ready_eq hs hS, hcheck, ok_bind, Supply.liftM_ok rfl, pure_bind]
  dsimp only
  rw [reduce_of_callsBuiltin hS hc, Builtin.apply, hchildren,
    Supply.liftM_fault_ok (Node.argument_eq_ok_iff.2 rfl), pure_bind,
    Supply.liftM_fault_ok (hn.number_eq hheld.1), pure_bind]
  split <;> rfl

/-! ### The second phase -/

/-- Completing the call puts a lambda around the applications in its place. That may be later, when
more ids have been handed out. -/
theorem Kept.exists_complete_repeat (hs : s.Kept next) (hS : S.Full) (ht : s.nodes.Holds t)
    (hboard : ∃ root ∈ s.board, s.nodes.RootOf t.id root) (hc : t.CallsBuiltin .repeat [c, f])
    (hn : c.IsNumber n) :
    ∃ s' next' u, (s.complete S (.deferred t.id ⟨.repeat, t.id, [c.id, f.id]⟩)).runFrom next =
        (.ok (some s'), next') ∧ s'.Kept next' ∧ s.Grafts t u s' ∧
      u.shape = .lambda (nameOutside f.shape.spelled)
        ((Shape.applied f.shape)^[n.toInt.toNat] (.var (nameOutside f.shape.spelled))) ∧
      ∀ m ∈ u.nodes, m.locked = false ∧ next ≤ m.id ∧ m.id < next' := by
  obtain ⟨root, hmem, hroot⟩ := hboard
  have hheld : s.nodes.Holds c ∧ s.nodes.Holds f :=
    ⟨ht.of_mem_subs (Plant.mem_subs_of_mem_parts (by simp [hc.parts])),
      ht.of_mem_subs (Plant.mem_subs_of_mem_parts (by simp [hc.parts]))⟩
  obtain ⟨hnodup, -, -⟩ := hs.stocked.of_holds hheld.2
  have hfinish := Signature.builds_finish (e := ⟨.repeat, t.id, [c.id, f.id]⟩) hs.stocked
    (hS.builtins .repeat) rfl ht.get?_id rfl (hn.number_eq hheld.1) rfl hheld.2
    (hheld.2.variableNames hnodup)
  obtain ⟨w, next', hrun, hle, ⟨u, hw, hu, hshape⟩, hadds⟩ :=
    ((hfinish.and (S.addsRoot_finish (hs.linked.hung hs.lt) _)).imp (fun _ _ _ ho => ho)
      fun _ he => he.1).exists_ok
  obtain ⟨s', v, hs', hkept, hgrafts, hv, hnew⟩ := hs.exists_grafts hle ht hmem hroot hw hu hadds
  refine ⟨s', next', v, ?_, hkept, hgrafts, hv.trans hshape, hnew⟩
  rw [complete, Supply.runFrom_bind, hrun]
  dsimp only
  rw [Supply.liftM_ok hs']
  rfl

/-! ### Applying a lambda -/

/-- The application of a lambda whose shape is known is reduced to a plant that reads as its body does
with the argument in place of the variable. -/
theorem Kept.exists_meets_reduceApply (hs : s.Kept next) (ht : s.nodes.Holds t)
    (hk : t.root.kind = .apply) (hparts : t.parts = [l, v]) {x : String} {body : Shape}
    (hl : l.shape = .lambda x body) (hbody : body.Proper) (hv : v.shape.Proper) :
    ∃ shape, (s.reduceApply t.root).Meets next (fun o hi => o.Builds s.nodes next hi shape)
        (fun _ => False) ∧
      shape.read [] = (body.read []).substitute x (v.shape.read []) := by
  obtain ⟨root, parts⟩ := t
  obtain rfl : parts = [l, v] := hparts
  obtain ⟨-, -, hformed⟩ := hs.stocked.of_holds ht
  obtain ⟨hcallee, hargument⟩ := ht.needSlot_of_apply hformed.root hk
  have hheld : s.nodes.Holds l ∧ s.nodes.Holds v :=
    ⟨ht.of_mem_subs (Plant.mem_subs_of_mem_parts (by simp)),
      ht.of_mem_subs (Plant.mem_subs_of_mem_parts (by simp))⟩
  obtain ⟨-, -, hlf⟩ := hs.stocked.of_holds hheld.1
  obtain ⟨hkl, -, -, hshapes⟩ := Plant.shape_eq_mk_iff.1 hl
  obtain ⟨p, b, hlparts, -, hslot⟩ := Plant.exists_parts_of_lambda hlf.root hkl hheld.1.children
  rw [hlparts, List.map_cons, List.map_singleton, List.cons.injEq, List.cons.injEq] at hshapes
  obtain ⟨-, hb, -⟩ := hshapes
  have hbheld : s.nodes.Holds b :=
    hheld.1.of_mem_subs (Plant.mem_subs_of_mem_parts (by simp [hlparts]))
  have hmeets := Editing.meets_applyLambda hs.stocked hheld.1 hkl (hl ▸ Shape.bound?_lambda) hslot
    hbheld hheld.2
  obtain ⟨⟨_, G⟩, next', hrun, hle, u, rfl, hu, t, t', happlied⟩ := hmeets.exists_ok
  refine ⟨u.shape, ?_, (happlied.substituted (hb ▸ hbody) hv).read.trans (by rw [hb])⟩
  simp only [reduceApply, Plant.root_mk, Supply.liftM_ok hcallee, Supply.liftM_ok hargument, pure_bind,
    Supply.liftM_ok (Forest.find_eq_ok_iff.2 hheld.1.get?_id), hkl]
  refine builds_replaceByEdit ?_
  rw [Meets, hrun]
  exact ⟨hle, u, rfl, hu, rfl⟩

/-- A lambda with a binder may be applied. -/
theorem Kept.check_of_lambda (hs : s.Kept next) (ht : s.nodes.Holds t) (hk : t.root.kind = .apply)
    (hparts : t.parts = [l, v]) {x : String} {body : Shape} (hl : l.shape = .lambda x body)
    (S : Signature) : S.check s t.root = .ok () := by
  obtain ⟨root, parts⟩ := t
  obtain rfl : parts = [l, v] := hparts
  obtain ⟨-, -, hformed⟩ := hs.stocked.of_holds ht
  obtain ⟨hcallee, -⟩ := ht.needSlot_of_apply hformed.root hk
  have hheld : s.nodes.Holds l := ht.of_mem_subs (Plant.mem_subs_of_mem_parts (by simp))
  obtain ⟨-, -, hlf⟩ := hs.stocked.of_holds hheld
  obtain ⟨hkl, -, -, hshapes⟩ := Plant.shape_eq_mk_iff.1 hl
  obtain ⟨p, b, hlparts, harg, -⟩ := Plant.exists_parts_of_lambda hlf.root hkl hheld.children
  rw [hlparts, List.map_cons, List.cons.injEq] at hshapes
  obtain ⟨hkp, -⟩ := Plant.shape_eq_mk_iff.1 hshapes.1
  have hp : s.nodes.Holds p := hheld.of_mem_subs (Plant.mem_subs_of_mem_parts (by simp [hlparts]))
  rw [Signature.check, show (Plant.mk root [l, v]).root.kind = .apply from hk]
  dsimp only
  rw [Plant.root_mk, Signature.checkApply, liftM_eq_ok_iff.2 hcallee, ok_bind,
    liftM_eq_ok_iff.2 (Forest.find_eq_ok_iff.2 hheld.get?_id), ok_bind, hkl]
  dsimp only
  rw [liftM_eq_ok_iff.2 (Node.needSlot_eq_ok_iff.2 harg), ok_bind,
    liftM_eq_ok_iff.2 (Forest.find_eq_ok_iff.2 hp.get?_id), ok_bind, hkp]
  rfl

end State

/-- Lambdas of a shape compute a function: wherever one stands applied to an argument, the rule for the
application, and a step that finds it, leaves a term that differs from the value of the function in the
names of bound variables only. -/
def Shape.Computes (S : Signature) (most : Int64) (lambda : Shape) (value : Shape → Shape) : Prop :=
  ∀ (s : State) (next : ℕ) (t l v : Plant), s.WellFormed next → s.nodes.Holds t →
    t.root.kind = .apply → t.parts = [l, v] → l.shape = lambda → s.nodes.BindsIn v →
    ∃ result : Shape, result.read [] = (value v.shape).read [] ∧
      (s.reduceApply t.root).Meets next (fun o hi => o.Builds s.nodes next hi result)
        (fun _ => False) ∧
      ∀ target, s.Finds S target t → ∃ s' next' u,
        (s.step S most target).runFrom next = (.ok (some s'), next') ∧ s.Grafts t u s' ∧
        u.shape = result

/-- A lambda whose body applies a function to its variable some number of times computes the iterate of
the function, if the variable is not free in the function. -/
theorem Shape.computes_iterate {S : Signature} (hS : S.Full) (most : Int64) {f : Shape} {x : String}
    (hf : f.Proper) (hx : x ∉ f.free) (times : ℕ) :
    (lambda x ((applied f)^[times] (var x))).Computes S most (applied f)^[times] := by
  intro s next t l v hs ht hk hparts hl hv
  have hheld : s.nodes.Holds v := ht.of_mem_subs (Plant.mem_subs_of_mem_parts (by simp [hparts]))
  obtain ⟨-, -, hformed⟩ := hs.kept.stocked.of_holds hheld
  obtain ⟨result, hmeets, hread⟩ := hs.kept.exists_meets_reduceApply ht hk hparts hl
    (hf.iterate_applied (proper_var x) times) (hheld.proper hformed hv)
  rw [substitute_read_iterate hf hx] at hread
  refine ⟨result, hread, hmeets, fun target hfinds => ?_⟩
  have hreduce : (s.reduce S most t.root).Meets next
      (fun o hi => o.Builds s.nodes next hi result) fun _ => False := by
    rw [State.reduce, hk]
    exact .liftSupply (hmeets.imp (fun _ _ _ ho => ho) fun _ => False.elim)
  obtain ⟨s', next', u, hstep, -, hgrafts, hu, -⟩ :=
    hfinds.exists_step hs.kept hS (hs.kept.check_of_lambda ht hk hparts hl S) hreduce
  exact ⟨s', next', u, hstep, hgrafts, hu⟩

/-! ### Both phases -/

namespace State

variable {s : State} {S : Signature} {next : ℕ}

/-- How a call of `repeat` behaves in a state. -/
structure RepeatsFunctions (s : State) (S : Signature) (most : Int64) (next : NodeId) : Prop where
  /-- A step at a call on the board whose arguments are normal finds it. -/
  finds : ∀ t, s.Waits t → (∀ p ∈ t.parts, S.isNormal s.nodes p.id = .ok true) → s.Finds S t.id t
  /-- A count out of range is refused. -/
  outside : ∀ target t c f n, s.Finds S target t → t.CallsBuiltin .repeat [c, f] → c.IsNumber n →
    f.IsFunction → n < 0 ∨ most < n →
    (s.begin S most target).runFrom next = (.error (.rejected (.builtin c.id
      s!"repeat count must be between 0 and {most.toInt}, got {n.toInt}")), next)
  /-- Any other count puts the call off. The second phase, then or later, leaves a lambda that applies
  copies of the function to its variable, as often as the count says. The variable is spelled nowhere
  in the function, which reads there as it did before, and the lambda computes the iterate. -/
  phases : ∀ target t c f n, s.Finds S target t → t.CallsBuiltin .repeat [c, f] → c.IsNumber n →
    f.IsFunction → s.nodes.BindsIn f → 0 ≤ n → n ≤ most →
    ∃ plan, (s.begin S most target).runFrom next = (.ok plan, next) ∧ plan.isDeferred = true ∧
      ∀ later : ℕ, next ≤ later → ∃ s' next' u x,
        (s.complete S plan).runFrom later = (.ok (some s'), next') ∧ s.Grafts t u s' ∧
        u.shape = .lambda x ((Shape.applied f.shape)^[n.toInt.toNat] (.var x)) ∧
        x ∉ f.shape.spelled ∧ f.shape.read [some x] = f.shape.read [] ∧
        (∀ m ∈ u.nodes, m.locked = false ∧ later ≤ m.id ∧ m.id < next') ∧
        u.shape.Computes S most (Shape.applied f.shape)^[n.toInt.toNat]

/-- `repeat` is iteration. -/
theorem WellFormed.repeatsFunctions (h : s.WellFormed next) (hS : S.Full) (most : Int64) :
    s.RepeatsFunctions S most next where
  finds t ht hnormal := ht.finds h.kept hS hnormal
  outside target t c f n hfinds hc hn hf hout := by
    rw [hfinds.begin_repeat h.kept hS most hc hn hf, if_pos hout]
  phases target t c f n hfinds hc hn hf hbinds h0 hmost := by
    have hheld : s.nodes.Holds f :=
      hfinds.held.of_mem_subs (Plant.mem_subs_of_mem_parts (by simp [hc.parts]))
    obtain ⟨-, -, hformed⟩ := h.kept.stocked.of_holds hheld
    have hproper : f.shape.Proper := hheld.proper hformed hbinds
    refine ⟨.deferred t.id ⟨.repeat, t.id, [c.id, f.id]⟩, ?_, rfl, fun later hlater => ?_⟩
    · rw [hfinds.begin_repeat h.kept hS most hc hn hf, if_neg]
      rw [not_or]
      exact ⟨Int64.not_lt.2 h0, Int64.not_lt.2 hmost⟩
    · obtain ⟨s', next', u, hrun, -, hgrafts, hshape, hnew⟩ := (h.kept.mono hlater).exists_complete_repeat
        hS hfinds.held (hfinds.exists_rootOf h.kept) hc hn
      have hspelled := nameOutside_notMem f.shape.spelled
      have hfree : nameOutside f.shape.spelled ∉ f.shape.free := fun hx =>
        hspelled (hproper.mem_spelled_of_mem_free hx)
      exact ⟨s', next', u, _, hrun, hgrafts, hshape, hspelled, hproper.read_of_notMem_free hfree, hnew,
        hshape ▸ Shape.computes_iterate hS most hproper hfree _⟩

end State

namespace Game

/-- A game with two calls of `repeat`. Under a limit of 9 the count of one is in range. -/
def repeating : Game where
  levels := ⟨[{ board := [call 2, call 10] }]⟩
where
  /-- Repeats the function `λx. x`. -/
  call (count : Int64) : Term :=
    ((Term.reference "repeat" ["n", "f"]).withSlot "arg_n" (.number count)).withSlot "arg_f"
      (.lambda "x" (.var "x"))

theorem distinct_repeating : repeating.levels.Distinct := by
  simp [LevelFile.Distinct, repeating, repeating.call, Level.terms, Term.reference, Term.number,
    Term.lambda, Term.binder, Term.var, Term.withSlot, Term.withField, Term.ofTag, Term.parts, Term.tag,
    Terms.set, Term.Distinct, Terms.Distinct, Kind.tag, or_imp, forall_and]
  decide

section

variable {session : Session State Move} (h : repeating.start 0 = .ok session)
  (hwell : session.present.WellFormed session.next)
include h hwell

/-- Both roots on the board are calls of `repeat`. -/
theorem calls_repeating : ∃ t c f t' c' f', session.present.Finds .standard 1 t ∧
    t.CallsBuiltin .repeat [c, f] ∧ c.IsNumber 2 ∧ f.root.kind = .lambda ∧ session.present.nodes.BindsIn f ∧
    session.present.Finds .standard 6 t' ∧ t'.CallsBuiltin .repeat [c', f'] ∧ c'.IsNumber 10 ∧
    f'.root.kind = .lambda ∧ c'.id = 7 := by
  have hnodes : (repeating.start 0).toOption.map (fun session =>
      [1, 2, 3, 4, 5, 6, 7, 8].map fun x => (session.present.nodes.get? x).map fun n =>
        (n.kind, n.name?, n.slots.children)) =
      some [some (.reference, some "repeat", [2, 3]), some (.number, none, []),
        some (.lambda, none, [4, 5]), some (.binder, some "x", []), some (.var, some "x", []),
        some (.reference, some "repeat", [7, 8]), some (.number, none, []),
        some (.lambda, none, [9, 10])] := by
    decide +kernel
  have hvalues : (repeating.start 0).toOption.map (fun session => [2, 7].map fun x =>
      (session.present.nodes.get? x).bind fun n => n.int? "value") = some [some 2, some 10] := by
    decide +kernel
  have hredex : (repeating.start 0).toOption.map (fun session => (session.present.board,
      [1, 6].map fun x => (Signature.standard.redex session.present.nodes x).toOption)) =
      some ([1, 6], [some (some 1), some (some 6)]) := by
    decide +kernel
  have hpeek : (repeating.start 0).toOption.bind (fun session => (session.present.nodes.get? 3).bind
      fun n => (session.present.nodes.peek n "arg").map Node.kind) = some .binder := by
    decide +kernel
  rw [h] at hnodes hvalues hredex hpeek
  simp only [Except.toOption, Option.map_some, Option.some.injEq, List.map_cons, List.map_nil,
    List.cons.injEq, and_true, Prod.mk.injEq, Option.map_eq_some_iff, Option.bind_some,
    Option.bind_eq_some_iff] at hnodes hvalues hredex hpeek
  obtain ⟨⟨n₁, h₁, k₁, name₁, c₁⟩, ⟨n₂, h₂, k₂, -⟩, ⟨n₃, h₃, k₃, -, c₃⟩, ⟨n₄, h₄, k₄, -, c₄⟩,
    ⟨n₅, h₅, k₅, -, c₅⟩, ⟨n₆, h₆, k₆, name₆, c₆⟩, ⟨n₇, h₇, k₇, -⟩, n₈, h₈, k₈, -⟩ := hnodes
  obtain ⟨⟨_, h₂', value₂⟩, _, h₇', value₇⟩ := hvalues
  obtain rfl := Option.some.inj (h₂.symm.trans h₂')
  obtain rfl := Option.some.inj (h₇.symm.trans h₇')
  obtain ⟨hboard, hredex₁, hredex₆⟩ := hredex
  obtain ⟨_, h₃', m, hm, hmk⟩ := hpeek
  obtain rfl := Option.some.inj (h₃.symm.trans h₃')
  have hstocked := hwell.kept.stocked
  obtain ⟨t, rfl, ht, -⟩ := hstocked 1 n₁ h₁
  obtain ⟨t', rfl, ht', -⟩ := hstocked 6 n₆ h₆
  obtain ⟨c, f, hargs, rfl, rfl, -, hf⟩ := ht.exists_pair c₁ h₂ h₃
  obtain ⟨c', f', hargs', rfl, rfl, -, -⟩ := ht'.exists_pair c₆ h₇ h₈
  obtain ⟨p, q, hparts, rfl, rfl, hp, hq⟩ := hf.exists_pair c₃ h₄ h₅
  have hid : t.id = 1 := Forest.id_of_get? h₁
  have hid' : t'.id = 6 := Forest.id_of_get? h₆
  have hroot : ∀ x ∈ [1, 6], session.present.nodes.RootOf x x := fun x hx =>
    Forest.Kept.rootOf_self hwell.kept (State.Kept.mem_roots_of_board (hboard ▸ hx))
  have hbinds : session.present.nodes.BindsIn f := by
    have hp' : p.parts = [] := List.map_eq_nil_iff.1 (hp.children.symm.trans c₄)
    have hq' : q.parts = [] := List.map_eq_nil_iff.1 (hq.children.symm.trans c₅)
    obtain ⟨root, parts⟩ := f
    obtain ⟨proot, _⟩ := p
    obtain ⟨qroot, _⟩ := q
    obtain rfl : _ = _ := hp'
    obtain rfl : _ = _ := hq'
    obtain rfl : parts = _ := hparts
    intro n hn hk m' hm'
    simp only [Plant.nodes_mk, List.flatMap_cons, List.flatMap_nil, List.nil_append, List.append_nil,
      List.cons_append, List.mem_cons, List.not_mem_nil, or_false] at hn
    rcases hn with rfl | rfl | rfl
    · rw [Plant.root_mk, hk] at k₄
      cases k₄
    · rw [Plant.root_mk, hk] at k₅
      cases k₅
    · obtain rfl := Option.some.inj (hm.symm.trans hm')
      exact .inl hmk
  exact ⟨t, c, f, t', c', f',
    ⟨ht, ⟨1, by simp [hboard], hroot 1 (by simp)⟩, hid.symm ▸ toOption_eq_some_iff.1 hredex₁⟩,
    ⟨k₁, name₁, hargs⟩, ⟨k₂, value₂⟩, k₃, hbinds,
    ⟨ht', ⟨6, by simp [hboard], hroot 6 (by simp)⟩, hid'.symm ▸ toOption_eq_some_iff.1 hredex₆⟩,
    ⟨k₆, name₆, hargs'⟩, ⟨k₇, value₇⟩, k₈, Forest.id_of_get? h₇⟩

end

/-- The first call is put off and leaves a lambda with two applications in its body, the second one is
refused. -/
theorem repeatsFunctions_repeating : ∃ session, repeating.start 0 = .ok session ∧
    session.present.WellFormed session.next ∧
    (∃ plan s next u f x,
      (session.present.begin .standard 9 1).runFrom session.next = (.ok plan, session.next) ∧
      (session.present.complete .standard plan).runFrom session.next = (.ok (some s), next) ∧
      s.nodes.Holds u ∧ f.kind = .lambda ∧
      u.shape = .lambda x (.applied f (.applied f (.var x)))) ∧
    (session.present.begin .standard 9 6).runFrom session.next = (.error (.rejected
      (.builtin 7 "repeat count must be between 0 and 9, got 10")), session.next) := by
  obtain ⟨session, h, hwell⟩ := Session.exists_wellFormed_start 0
    Signature.tagsReferences_standard distinct_repeating (by decide +kernel)
  have hrepeats := hwell.repeatsFunctions Signature.full_standard 9
  obtain ⟨t, c, f, t', c', f', ht, hcalls, hc, hf, hbinds, ht', hcalls', hc', hf', hid⟩ :=
    calls_repeating h hwell
  refine ⟨session, h, hwell, ?_, ?_⟩
  · obtain ⟨plan, hbegin, -, hlater⟩ :=
      hrepeats.phases 1 t c f 2 ht hcalls hc (.inl hf) hbinds (by decide) (by decide)
    obtain ⟨s, next, u, x, hcomplete, hgrafts, hshape, -⟩ := hlater session.next (Nat.le_refl _)
    refine ⟨plan, s, next, u, f.shape, x, hbegin, hcomplete, hgrafts.new, ?_, hshape⟩
    rw [Plant.kind_shape, hf]
  · have hout := hrepeats.outside 6 t' c' f' 10 ht' hcalls' hc' (.inl hf') (.inr (by decide))
    rw [hid] at hout
    exact hout

end Game

end TermForest
