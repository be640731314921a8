import TermForest.Proofs.Forest.Share
import TermForest.Proofs.Reach

/-!
# What a defeat leaves to do

A level is lost when the terms on its board are normal and nothing is left to fill or to take. A normal
term is made of values, and the walk that finds this out enters arrays but neither lambdas nor
definitions. So nothing is left to reduce but inside of these.
-/

namespace TermForest

namespace Plant

/-- `u` stands inside a value of `t` that is no array. A node that has the slots of its kind and holds
something is a lambda or a definition then. -/
def Covers (t u : Plant) : Prop :=
  ∃ v ∈ t.subs, (∃ p ∈ v.parts, u ∈ p.subs) ∧ v.root.kind.category = .value ∧
    v.root.kind ≠ .array ∧ (v.root.WellFormed → v.root.kind = .lambda ∨ v.root.kind = .define)

theorem Covers.of_part {root : Node} {parts : List Plant} {p u : Plant} (hp : p ∈ parts)
    (h : p.Covers u) : (mk root parts).Covers u := by
  obtain ⟨v, hv, hinside⟩ := h
  exact ⟨v, mem_subs_mk.2 (.inr ⟨p, hp, hv⟩), hinside⟩

/-- Of the values, only arrays, lambdas and definitions have slots. -/
theorem kind_of_value {n : Node} (h : n.WellFormed) (hk : n.kind.category = .value)
    (ha : n.kind ≠ .array) (hc : n.slots.children ≠ []) : n.kind = .lambda ∨ n.kind = .define := by
  have hslots : n.declaredSlots ≠ [] := by
    rw [← h.slots]
    simpa [Slots.names, Slots.children] using hc
  cases hkind : n.kind <;> simp [Node.declaredSlots, hkind, Kind.category] at hslots hk ha ⊢

end Plant

namespace Tree.Shows

variable {T U : Tree} {t u : Plant} {S : Signature}

/-- An expression that is normal has a hole. -/
theorem value_of_isNormal {root : Node} {below : NodeId → Tree}
    (h : (Tree.node root below).Shows t) (hn : (Tree.node root below).isNormal S = .ok true)
    (hole : ∀ n ∈ t.nodes, n.kind ≠ .hole) : root.kind.category = .value := by
  obtain rfl : root = t.root := by simpa [Tree.root?] using h.root?
  cases h.normal_of_isNormal hn with
  | value hk _ => exact hk
  | array hk _ =>
    rw [hk]
    rfl
  | function _ hopen =>
    obtain ⟨p, hp, hk⟩ := hopen
    have hmem := Plant.mem_nodes_iff.2 ⟨p, Plant.mem_subs_of_mem_parts hp, rfl⟩
    exact absurd hk (hole _ hmem)

/-- A normal value has no redex. -/
theorem redex_of_isNormal {root : Node} {below : NodeId → Tree}
    (hn : (Tree.node root below).isNormal S = .ok true) (hk : root.kind.category = .value) :
    (Tree.node root below).redex S = .ok none := by
  rw [Tree.isNormal] at hn
  obtain ⟨_, hkind, hn⟩ := bind_eq_ok_iff.1 hn
  rw [hk] at hn
  obtain ⟨cs, hcs, hall⟩ := bind_eq_ok_iff.1 hn
  rw [Tree.redex, hkind, hcs, hk]
  split
  · rfl
  · rw [ok_bind, ok_bind, findM?_eq_ok_none]
    · rfl
    · intro c hc
      rw [allM_eq_ok_true.1 hall c hc]
      rfl

/-- Where a normal term without holes is not covered, there is nothing to reduce. -/
theorem redex_of_not_covers (h : T.Shows t) (hn : T.isNormal S = .ok true)
    (hole : ∀ n ∈ t.nodes, n.kind ≠ .hole) (hu : u ∈ t.subs) (hopen : ¬t.Covers u)
    (h' : U.Shows u) : U.redex S = .ok none := by
  induction h with
  | @node root below parts children shown ih =>
    have hvalue := value_of_isNormal (.node children shown) hn hole
    rcases Plant.mem_subs_mk.1 hu with rfl | ⟨p, hp, hu⟩
    · rw [redex_eq (.node children shown) h' S]
      exact redex_of_isNormal hn hvalue
    · have harray : root.kind = .array := by
        by_contra ha
        refine hopen ⟨_, Plant.mem_subs_self _, ⟨p, hp, hu⟩, hvalue, ha, fun hwell => ?_⟩
        refine Plant.kind_of_value hwell hvalue ha ?_
        rw [Plant.root_mk, children, ne_eq, List.map_eq_nil_iff]
        exact List.ne_nil_of_mem hp
      have helement : (below p.id).isNormal S = .ok true := by
        rw [Tree.isNormal] at hn
        obtain ⟨_, -, hn⟩ := bind_eq_ok_iff.1 hn
        rw [harray, Node.strictChildren, harray] at hn
        exact allM_eq_ok_true.1 hn p.id (children ▸ List.mem_map_of_mem hp)
      refine ih p hp helement (fun n hmem => hole n ?_) hu fun hcovers => hopen (hcovers.of_part hp)
      exact Plant.nodes_subset_of_mem_subs (Plant.mem_subs_mk.2 (.inr ⟨p, hp, p.mem_subs_self⟩)) hmem

end Tree.Shows

/-! ### Lost states -/

namespace State

variable {s s' : State} {S : Signature} {next : Nat} {root target : NodeId}

/-- A step at a node on the board that has no redex below it does nothing. -/
theorem step_of_redex_none (hroot : s.nodes.RootOf target root) (hboard : root ∈ s.board)
    (hredex : S.redex s.nodes target = .ok none) (most : Int64) (lo : NodeId) :
    (s.step S most target).runFrom lo = (.ok none, lo) := by
  have hready : s.ready S target = .ok none := by
    obtain ⟨k, hk⟩ := hroot.2
    obtain ⟨n, hn⟩ := hk.exists_start
    rw [ready, liftM_eq_ok_iff.2 (Forest.find_eq_ok_iff.2 hn), ok_bind,
      liftM_eq_ok_iff.2 hroot.rootOf_eq, ok_bind, if_neg (not_not.2 hboard)]
    split
    · rfl
    · rw [liftM_eq_ok_iff.2 hredex]
      rfl
  rw [step, begin_eq, hready]
  rfl

/-- A verdict of defeat has found the toolbox empty and every term on the board normal. -/
theorem of_defeat (h : s.detectCompletion S = .ok (some s')) (hm : s'.mode = .defeat) :
    s' = { s.settled with mode := .defeat } ∧ ∀ root ∈ s.board,
      S.isNormal s.nodes root = .ok true ∧
        s.nodes.findAll root (fun n => n.kind = .hole) = .ok [] := by
  rw [detectCompletion] at h
  split at h
  · cases h
  obtain ⟨solved, -, h⟩ := bind_eq_ok_iff.1 h
  cases solved with
  | true =>
    cases h
    cases hm
  | false =>
    obtain ⟨stuck, hstuck, h⟩ := bind_eq_ok_iff.1 h
    cases stuck with
    | false => cases h
    | true =>
      refine ⟨(Option.some.inj (Except.ok.inj h)).symm, ?_⟩
      rw [isStuck] at hstuck
      split at hstuck
      · cases hstuck
      intro root hroot
      have hall := allM_eq_ok_true.1 hstuck root hroot
      obtain ⟨normal, hnormal, hall⟩ := bind_eq_ok_iff.1 hall
      cases normal with
      | false => cases hall
      | true =>
        obtain ⟨holes, hholes, hall⟩ := bind_eq_ok_iff.1 hall
        have hnil : holes = [] := by simpa using hall
        exact ⟨hnormal, hnil ▸ hholes⟩

/-- After a defeat, a step at a node on the board does nothing unless the node stands inside a lambda
or a definition. -/
theorem Hung.rests (h : s.Hung next) (hd : s.detectCompletion S = .ok (some s'))
    (hm : s'.mode = .defeat) (hroot : root ∈ s'.board) :
    ∃ t : Plant, s'.nodes.Holds t ∧ t.id = root ∧ ∀ u ∈ t.subs, t.Covers u ∨
      ∀ most lo, (s'.step S most u.id).runFrom lo = (.ok none, lo) := by
  obtain ⟨rfl, hboard⟩ := of_defeat hd hm
  obtain ⟨hnormal, hholes⟩ := hboard root hroot
  obtain ⟨t, rfl, ht, hshows, hnil⟩ := Forest.exists_plant_of_findAll hholes
  have hole : ∀ n ∈ t.nodes, n.kind ≠ .hole := by
    intro n hn
    simpa using List.filter_eq_nil_iff.1 hnil.symm n hn
  have hself : s.nodes.IsRoot t.id :=
    ⟨t.root, ht.get?_id, h.isRoot _ (Kept.mem_roots_of_board hroot) _ ht.get?_id⟩
  refine ⟨t, ht, rfl, fun u hu => ?_⟩
  by_cases hcovers : t.Covers u
  · exact .inl hcovers
  · refine .inr fun most lo => ?_
    have hheld := ht.of_mem_subs hu
    have hredex := hshows.redex_of_not_covers hnormal hole hu hcovers
      (hheld.tree_shows (h.nodes.nodup_ids hheld))
    have hascends : ∃ j, s.nodes.Ascends u.id j t.id :=
      ht.ascends (h.nodes.joined ht) (Plant.mem_ids_iff.2 ⟨u, hu, rfl⟩)
    apply step_of_redex_none
    · exact ⟨hself, hascends⟩
    · exact hroot
    · exact hredex

end State

/-! ### Reachable states -/

namespace Play

variable {g : Game} {s' : State}

/-- In a play that starts at a level, after any requests that lead to a defeat, executing a node on the
board gives no new state unless the node stands inside a lambda or a definition. -/
theorem rests_of_start {session : Session State Move} {level : Nat} (h : g.start level = .ok session)
    (requests : List Request)
    (hd : (takeAll g ⟨session, []⟩ requests).session.present.detectCompletion g.signature =
      .ok (some s')) (hm : s'.mode = .defeat) {root : NodeId} (hroot : root ∈ s'.board) :
    ∃ t : Plant, s'.nodes.Holds t ∧ t.id = root ∧ ∀ u ∈ t.subs, t.Covers u ∨
      ∀ most next, (s'.step g.signature most u.id).runFrom next = (.ok none, next) :=
  ((sound_start h).takeAll requests).states.present.rests hd hm hroot

/-- A game whose level asks for the sum inside a lambda. -/
def folding : Game where
  levels := ⟨[{
    board := [.lambda "x" (.binop "+" (.number 1) (.number 2))]
    goal := [.lambda "x" (.number 3)] }]⟩

/-- The level counts as lost although executing the sum, which stands inside the lambda, gives a new
state that is the goal. -/
theorem rests_of_start_folding : ∃ session s', folding.start 0 = .ok session ∧
    session.present.detectCompletion folding.signature = .ok (some s') ∧ s'.mode = .defeat ∧
    (∃ t : Plant, s'.nodes.Holds t ∧ t.id = 1 ∧ ∀ u ∈ t.subs, t.Covers u ∨
      ∀ most next, (s'.step folding.signature most u.id).runFrom next = (.ok none, next)) ∧
    ∃ s'' next, (s'.step folding.signature folding.settings.maxRepeat 3).runFrom session.next =
      (.ok (some s''), next) ∧ s''.isSolved = .ok true := by
  have hstart : (folding.start 0).toOption.bind (fun session =>
      (session.present.detectCompletion folding.signature).toOption.bind fun o => o.map fun s' =>
        (s'.mode, s'.board,
          ((s'.step folding.signature folding.settings.maxRepeat 3).runFrom
            session.next).1.toOption.map (Option.map fun s'' => s''.isSolved.toOption))) =
      some (.defeat, [1], some (some (some true))) := by
    decide +kernel
  obtain ⟨session, hsession, hstart⟩ := Option.bind_eq_some_iff.1 hstart
  obtain ⟨o, hverdict, hstart⟩ := Option.bind_eq_some_iff.1 hstart
  obtain ⟨s', rfl, hread⟩ := Option.map_eq_some_iff.1 hstart
  simp only [Prod.mk.injEq, Option.map_eq_some_iff] at hread
  obtain ⟨hmode, hboard, o', hstep, s'', rfl, hsolved⟩ := hread
  rw [toOption_eq_some_iff] at hsession hverdict hstep hsolved
  have hroot : 1 ∈ s'.board := hboard ▸ List.mem_singleton_self 1
  exact ⟨session, s', hsession, hverdict, hmode, rests_of_start hsession [] hverdict hmode hroot,
    s'', _, Prod.ext hstep rfl, hsolved⟩

end Play

end TermForest
