import TermForest.Proofs.Level.Load
import TermForest.Proofs.State.Apart

/-!
# Independent steps

Steps at two nodes of which neither is below the other can be done in either order. Both orders give
the same state but for the ids of new nodes, and a step that is refused or finds nothing to do fares
the same after the other one.
-/

namespace TermForest

open Equiv (Perm)

/-- Setting two slots that are there, in either order. -/
theorem Slots.set_comm {s : Slots} {a b : String} (hne : a ≠ b) (ha : a ∈ s.names)
    (hb : b ∈ s.names) (c d : NodeId) : (s.set a c).set b d = (s.set b d).set a c := by
  refine Slots.ext_entries ?_
  rw [entries_set ((names_set ha c).symm ▸ hb), entries_set ha,
    entries_set ((names_set hb d).symm ▸ ha), entries_set hb, List.map_map, List.map_map]
  refine List.map_congr_left fun e _ => ?_
  simp only [Function.comp]
  grind

namespace Plant

variable {t u : Plant} {n : Node} {c d : NodeId}

/-- What becomes of a node when the plant at an id takes the place of another plant: the node that
held the old plant holds the new one. -/
def rehold (t : Plant) (c : NodeId) (n : Node) : Node :=
  match t.root.parent, t.root.parentSlot with
  | some p, some slot => if n.id = p then n.withSlot slot c else n
  | _, _ => n

@[simp] theorem id_rehold : (t.rehold c n).id = n.id := by
  unfold rehold
  split
  · split <;> rfl
  · rfl

theorem rehold_of_ne (h : t.root.parent ≠ some n.id) : t.rehold c n = n := by
  unfold rehold
  split
  · next p _ hp _ => exact if_neg fun e : n.id = p => h (e ▸ hp)
  · rfl

theorem rehold_of_eq {slot : String} (h : t.root.parent = some n.id)
    (hs : t.root.parentSlot = some slot) : t.rehold c n = n.withSlot slot c := by
  rw [rehold, h, hs]
  exact if_pos rfl

theorem mapIds_rehold {f : NodeId → NodeId} (h : f n.id = n.id) :
    (t.rehold c n).mapIds f = t.rehold (f c) (n.mapIds f) := by
  unfold rehold
  split
  · rw [Node.id_mapIds, h]
    split
    · exact Node.mapIds_withSlot ..
    · rfl
  · rfl

end Plant

namespace State

variable {s s' s₁ s₂ s₁₂ s₂₁ : State} {t u t₁ t₂ u₁ u₂ : Plant} {next : Nat} {x : NodeId}

/-- The node that holds each of two plants is changed in two slots, in either order. -/
theorem rehold_comm (hs : s.nodes.Linked) (h₁ : s.nodes.Holds t₁) (h₂ : s.nodes.Holds t₂)
    (hne : t₁.id ≠ t₂.id) {n : Node} (hn : s.nodes.get? n.id = some n) (c d : NodeId) :
    t₂.rehold d (t₁.rehold c n) = t₁.rehold c (t₂.rehold d n) := by
  by_cases hp₁ : t₁.root.parent = some n.id
  · by_cases hp₂ : t₂.root.parent = some n.id
    · obtain ⟨slot₁, m, hs₁, hm, hget₁⟩ := hs.exists_holder h₁.get?_id hp₁
      obtain ⟨slot₂, m', hs₂, hm', hget₂⟩ := hs.exists_holder h₂.get?_id hp₂
      obtain rfl := Option.some.inj (hn.symm.trans hm)
      obtain rfl := Option.some.inj (hn.symm.trans hm')
      rw [Plant.rehold_of_eq hp₁ hs₁, Plant.rehold_of_eq hp₂ hs₂, Plant.rehold_of_eq (by simpa) hs₁,
        Plant.rehold_of_eq (by simpa) hs₂]
      have hslot : slot₁ ≠ slot₂ := by
        rintro rfl
        exact hne (Option.some.inj (hget₁.symm.trans hget₂))
      unfold Node.withSlot
      rw [Slots.set_comm hslot (Slots.mem_names_iff.2 ⟨_, hget₁⟩) (Slots.mem_names_iff.2 ⟨_, hget₂⟩)]
    · rw [Plant.rehold_of_ne hp₂, Plant.rehold_of_ne (by simpa)]
  · rw [Plant.rehold_of_ne hp₁, Plant.rehold_of_ne (t := t₁) (by simpa)]

namespace Grafts

/-- The nodes after a graft, but for the new ones. -/
theorem get?_outside (h : s.Grafts t u s') (ht : x ∉ t.ids) (hu : x ∉ u.ids) :
    s'.nodes.get? x = (s.nodes.get? x).map (t.rehold u.id) := by
  by_cases hp : t.root.parent = some x
  · obtain ⟨slot, n, hslot, -, hn, hn'⟩ := h.holder x hp
    obtain rfl := Forest.id_of_get? hn
    rw [hn', hn, Option.map_some, Plant.rehold_of_eq hp hslot]
  · rw [h.others x ht hu hp]
    cases hn : s.nodes.get? x with
    | none => rfl
    | some n =>
      obtain rfl := Forest.id_of_get? hn
      rw [Option.map_some, Plant.rehold_of_ne hp]

/-- An id without a node has none after a graft, unless it is new. -/
theorem get?_eq_none (h : s.Grafts t u s') (hx : s.nodes.get? x = none) (hu : x ∉ u.ids) :
    s'.nodes.get? x = none := by
  rw [h.get?_outside (fun ht => ?_) hu, hx, Option.map_none]
  obtain ⟨n, hn, rfl⟩ := Plant.mem_ids_iff_nodes.1 ht
  rw [h.old.get?_of_mem_nodes hn] at hx
  cases hx

theorem board_eq (h : s.Grafts t u s') : s'.board =
    s.board.map fun x => if t.root.parent = none ∧ x = t.id then u.id else x := by
  rw [h.board]
  split
  · next hp => simp [hp]
  · next hp => simp [hp]

/-- A new plant stays when one that was there before is exchanged. -/
theorem holds_new (h : s.Grafts t u s') (hs : s.nodes.Linked) {t' u' : Plant} {s'' : State}
    (h' : s'.Grafts t' u' s'') (ht' : s.nodes.Holds t') : s''.nodes.Holds u := by
  refine h.new.congr fun x hx => h'.others x (h.notMem_old ht' hx)
    (fun hu' => h'.notMem_old h.new hu' hx) fun hp => ?_
  obtain ⟨_, n, -, hn, -⟩ := hs.exists_holder ht'.get?_id hp
  rw [h.fresh x hx] at hn
  cases hn

section Both

variable {ρ : Perm NodeId} (hs : s.Kept next) (hρ : ∀ x : Nat, x < next → ρ x = x)
  (hd : ∀ x ∈ t₁.ids, x ∉ t₂.ids) (h₁ : s.Grafts t₁ u₁ s₁) (h₁₂ : s₁.Grafts t₂ u₂ s₁₂)
  (h₂ : s.Grafts t₂ (u₂.mapIds ρ) s₂) (h₂₁ : s₂.Grafts t₁ (u₁.mapIds ρ) s₂₁)
include hs hρ hd h₁ h₁₂ h₂ h₂₁

/-- The older nodes after two grafts in either order. -/
theorem get?_older {n : Node} (hn : s.nodes.get? n.id = some n) :
    s₂₁.nodes.get? n.id = (s₁₂.nodes.get? n.id).map (Node.mapIds ρ) := by
  have hfix : ρ n.id = n.id := hρ _ (hs.lt _ n hn)
  have hu₁ : n.id ∉ u₁.ids := fun hmem => nomatch (h₁.fresh _ hmem).symm.trans hn
  have hu₂ : n.id ∉ (u₂.mapIds ρ).ids := fun hmem => nomatch (h₂.fresh _ hmem).symm.trans hn
  have hmem : ∀ u : Plant, n.id ∈ (u.mapIds ρ).ids ↔ n.id ∈ u.ids := fun u => by
    conv_lhs => rw [← hfix, Plant.ids_mapIds, List.mem_map_of_injective ρ.injective]
  have hu₁' := mt (hmem u₁).1 hu₁
  have hu₂' := mt (hmem u₂).2 hu₂
  by_cases ht₁ : n.id ∈ t₁.ids
  · rw [h₂₁.gone _ ht₁, h₁₂.get?_eq_none (h₁.gone _ ht₁) hu₂', Option.map_none]
  by_cases ht₂ : n.id ∈ t₂.ids
  · rw [h₁₂.gone _ ht₂, h₂₁.get?_eq_none (h₂.gone _ ht₂) hu₁', Option.map_none]
  rw [h₂₁.get?_outside ht₁ hu₁', h₂.get?_outside ht₂ hu₂, h₁₂.get?_outside ht₂ hu₂',
    h₁.get?_outside ht₁ hu₁, hn]
  simp only [Option.map_some, Plant.id_mapIds]
  rw [Plant.mapIds_rehold (by simpa), Plant.mapIds_rehold hfix,
    (hs.linked.hung hs.lt).mapIds_eq hn hρ,
    rehold_comm hs.linked h₁.old h₂.old (fun e => hd _ t₁.id_mem_ids (e ▸ t₂.id_mem_ids)) hn]

/-- Two grafts in either order give states of which one renames the other. -/
theorem renames : s₁₂.Renames ρ s₂₁ := by
  have hids : ∀ ids ⊆ s.roots, ids = ids.map ρ := fun ids hsub =>
    ((List.map_congr_left fun x hx => hρ x ((hs.linked.hung hs.lt).lt x _
      (Forest.Kept.exists_root hs (hsub hx)).choose_spec.1)).trans (List.map_id _)).symm
  constructor
  case nodes =>
    intro x
    by_cases hu₁ : x ∈ u₁.ids
    · obtain ⟨n, hn, rfl⟩ := Plant.mem_ids_iff_nodes.1 hu₁
      rw [(h₁.holds_new hs.linked h₁₂ h₂.old).get?_of_mem_nodes hn, Option.map_some]
      exact h₂₁.new.get?_of_mem_nodes (by simpa using ⟨n, hn, rfl⟩)
    by_cases hu₂ : x ∈ u₂.ids
    · obtain ⟨n, hn, rfl⟩ := Plant.mem_ids_iff_nodes.1 hu₂
      rw [h₁₂.new.get?_of_mem_nodes hn, Option.map_some]
      exact (h₂.holds_new hs.linked h₂₁ h₁.old).get?_of_mem_nodes (by simpa using ⟨n, hn, rfl⟩)
    cases hn : s.nodes.get? x with
    | some n =>
      obtain rfl := Forest.id_of_get? hn
      rw [hρ _ (hs.lt _ n hn)]
      exact get?_older hs hρ hd h₁ h₁₂ h₂ h₂₁ hn
    | none =>
      have hn' : s.nodes.get? (ρ x) = none := by
        rw [Option.eq_none_iff_forall_ne_some]
        intro n hm
        -- the renaming fixes the ids of older nodes, so it takes no other id to one
        have hfix : ρ (ρ x) = ρ x := hρ _ (hs.lt _ n hm)
        rw [ρ.injective hfix, hn] at hm
        cases hm
      rw [h₁₂.get?_eq_none (h₁.get?_eq_none hn hu₁) hu₂, Option.map_none]
      refine h₂₁.get?_eq_none (h₂.get?_eq_none hn' ?_) ?_ <;>
        rwa [Plant.ids_mapIds, List.mem_map_of_injective ρ.injective]
  case board =>
    rw [h₂₁.board_eq, h₂.board_eq, h₁₂.board_eq, h₁.board_eq, List.map_map, List.map_map, List.map_map]
    refine List.map_congr_left fun x hx => ?_
    obtain ⟨n, hn, -⟩ := hs.exists_board hx
    have hfix : ρ x = x := hρ _ (hs.lt _ n hn)
    have ht : t₁.id ≠ t₂.id := fun e => hd _ t₁.id_mem_ids (e ▸ t₂.id_mem_ids)
    have hu₁ : u₁.id ≠ t₂.id := fun e => h₁.notMem_old h₂.old u₁.id_mem_ids (e ▸ t₂.id_mem_ids)
    have hu₂ : ρ u₂.id ≠ t₁.id := fun e =>
      h₂.notMem_old h₁.old (u₂.mapIds ρ).id_mem_ids (by rw [Plant.id_mapIds, e]; exact t₁.id_mem_ids)
    simp only [Function.comp, Plant.id_mapIds]
    grind
  case toolbox =>
    rw [h₂₁.rest.1, h₂.rest.1, h₁₂.rest.1, h₁.rest.1]
    exact hids _ (by simp [roots])
  case defs =>
    rw [h₂₁.rest.2.1, h₂.rest.2.1, h₁₂.rest.2.1, h₁.rest.2.1]
    exact hids _ hs.defs_subset
  case goal =>
    rw [h₂₁.rest.2.2.1, h₂.rest.2.2.1, h₁₂.rest.2.2.1, h₁.rest.2.2.1]
    exact hids _ (List.subset_append_right _ _)
  case level => rw [h₂₁.rest.2.2.2.1, h₂.rest.2.2.2.1, h₁₂.rest.2.2.2.1, h₁.rest.2.2.2.1]
  case mode => rw [h₂₁.rest.2.2.2.2, h₂.rest.2.2.2.2, h₁₂.rest.2.2.2.2, h₁.rest.2.2.2.2]

end Both

end Grafts

/-! ### Either order -/

variable {S : Signature} {most : Int64} {a b : NodeId} {n₁ n₂ : Nat}

/-- A step that gives a new state exchanges a part of the plant at its target, on the board. -/
theorem Kept.grafts_of_step (hs : s.Kept next) {p : Plant} (hp : s.nodes.Holds p)
    (h : (s.step S most p.id).runFrom next = (.ok (some s₁), n₁)) :
    ∃ t u : Plant, t ∈ p.subs ∧ s.Grafts t u s₁ ∧ ∃ root ∈ s.board, s.nodes.RootOf t.id root := by
  have hhung := hs.linked.hung hs.lt
  obtain ⟨t, u, hredex, hgrafts, -⟩ := ((grafts_step hhung S most p.id).of_ok h).2 _ rfl
  obtain ⟨r, hr⟩ := exists_ready_of_step h
  obtain ⟨-, -, -, root, hboard, hroot⟩ := of_ready hr
  obtain ⟨v, hv, hid, -⟩ := (hp.tree_shows (hhung.nodup_ids hp)).redex_mem hredex
  obtain rfl := (hp.of_mem_subs hv).unique hgrafts.old hid
  exact ⟨v, u, hv, hgrafts, root, hboard,
    hs.linked.rootOf_of_mem_ids hp (Plant.mem_ids_iff.2 ⟨v, hv, rfl⟩) hroot⟩

/-- After a step that gives a new state, what a step elsewhere reads is undisturbed. -/
theorem Kept.undisturbed_of_step (hs : s.Kept next) {p q : Plant} (hp : s.nodes.Holds p)
    (hq : s.nodes.Holds q) (hd : ∀ x ∈ p.ids, x ∉ q.ids)
    (h : (s.step S most p.id).runFrom next = (.ok (some s₁), n₁)) :
    Undisturbed S q.id next n₁ s s₁ := by
  obtain ⟨t, u, ht, hgrafts, root, hboard, hroot⟩ := hs.grafts_of_step hp h
  obtain ⟨hle, hkept⟩ := (hs.meets_step S most p.id).of_ok h
  exact hgrafts.undisturbed hs (hkept _ rfl) hle hboard hroot hq
    (fun x hx => hd x (Plant.ids_subset_of_mem_subs ht hx)) S

/-- The ids of a graft on the earlier state, moved to the later one and back by the rotation. -/
theorem rotation_image {M : Mirror} {bound x : Nat} (hx : M.lo ≤ x) (hbound : x < bound) :
    rotation M.lo (M.hi - M.lo) (bound - M.lo) (M.image x) = x := by
  have hle := M.le
  obtain ⟨k, rfl⟩ := Nat.exists_eq_add_of_le hx
  rw [Mirror.image_add, rotation_second (by lia) (by lia)]
  lia

/-- When each of two steps leaves alone what the other reads, they give renamed states in either
order. -/
theorem Undisturbed.exists_renames (hb : Undisturbed S b next n₁ s s₁)
    (ha : Undisturbed S a next n₂ s s₂) (h₁ : (s.step S most a).outcome next = .ok (some s₁, n₁))
    (h₂ : (s.step S most b).outcome next = .ok (some s₂, n₂)) :
    ∃ s₁₂ s₂₁ n, (s₁.step S most b).outcome n₁ = .ok (some s₁₂, n) ∧
      (s₂.step S most a).outcome n₂ = .ok (some s₂₁, n) ∧
      ∃ ρ : Perm NodeId, (∀ x : NodeId, x < next → ρ x = x) ∧ s₁₂.Renames ρ s₂₁ := by
  obtain ⟨s₂₁, j, -, hj, h₂₁, -, t₁, u₁, -, hg₁, hg₂₁, hids₁⟩ := ha.exists_step h₁
  obtain ⟨s₁₂, k, -, hk, h₁₂, -, t₂, u₂, -, hg₂, hg₁₂, hids₂⟩ := hb.exists_step h₂
  have hs := ha.kept.linked.hung ha.kept.lt
  set ρ := rotation next (n₁ - next) (n₂ - next)
  have hρ : ∀ x : Nat, x < next → ρ x = x := fun x => rotation_of_lt
  have hparent : ∀ {t u : Plant} {s' : State}, s.Grafts t u s' →
      ∀ p : Nat, u.root.parent = some p → p < next := fun hg p hp =>
    hs.parent_lt _ _ hg.old.get?_id p (hg.parent ▸ hp)
  have hle : next ≤ n₁ := hb.le
  -- the new ids of the first step are moved as the later step moves them
  have hu₁ : u₁.mapIds ha.mirror.image = u₁.mapIds ρ :=
    hg₁.joined_new.mapIds_congr
      (fun x hx => (Mirror.rotation_eq_image (M := ha.mirror) (hids₁ x hx).2).symm)
      fun p hp => (Mirror.rotation_eq_image (M := ha.mirror)
        (Nat.lt_of_lt_of_le (hparent hg₁ p hp) hle)).symm
  -- those of the second step are moved up by the later step, and then back
  have hu₂ : (u₂.mapIds hb.mirror.image).mapIds ρ = u₂ := by
    rw [Plant.mapIds_mapIds]
    refine (hg₂.joined_new.mapIds_congr (fun x hx => ?_) fun p hp => ?_).trans Plant.mapIds_self
    · exact rotation_image (M := hb.mirror) (hids₂ x hx).1 (hids₂ x hx).2
    · have hp := hparent hg₂ p hp
      rw [Function.comp, Mirror.image_of_lt (M := hb.mirror) hp]
      exact hρ p hp
  rw [hu₁] at hg₂₁
  rw [← hu₂] at hg₂
  have hd : ∀ x ∈ t₁.ids, x ∉ t₂.ids := by
    intro x hx hx'
    obtain ⟨n, hn, rfl⟩ := Plant.mem_ids_iff_nodes.1 hx'
    cases (hg₁.gone _ hx).symm.trans (hg₁₂.old.get?_of_mem_nodes hn)
  refine ⟨s₁₂, s₂₁, n₁ + k, h₁₂, ?_, ρ, hρ, hg₁.renames ha.kept hρ hd hg₁₂ hg₂ hg₂₁⟩
  rw [h₂₁, show n₁ + k = n₂ + j by lia]

/-- Steps at two nodes of which neither is below the other commute: a step that gives a new state can
be done in either order with one that does, which leaves the same state but for the ids of new nodes.
What the other step does besides, it does all the same after the first: it finds nothing to do, or is
refused for the same reason. -/
theorem steps_commute (hs : s.WellFormed next) {below below' : List NodeId}
    (ha : s.nodes.idsUnder a = .ok below) (hb : s.nodes.idsUnder b = .ok below')
    (hd : below.Disjoint below') (h₁ : (s.step S most a).runFrom next = (.ok (some s₁), n₁)) :
    match (s.step S most b).runFrom next with
    | (.ok (some s₂), n₂) => ∃ s₁₂ s₂₁ n,
        (s₁.step S most b).runFrom n₁ = (.ok (some s₁₂), n) ∧
        (s₂.step S most a).runFrom n₂ = (.ok (some s₂₁), n) ∧
        ∃ ρ : Perm NodeId, (∀ x : NodeId, x < next → ρ x = x) ∧ s₁₂.Renames ρ s₂₁
    | (.ok none, _) => ∃ n, (s₁.step S most b).runFrom n₁ = (.ok none, n)
    | (.error (.rejected why), _) =>
        ∃ n, (s₁.step S most b).runFrom n₁ = (.error (.rejected why), n)
    | (.error (.fatal _), _) => True := by
  obtain ⟨p, rfl, hp, rfl⟩ := Forest.exists_plant_of_idsUnder ha
  obtain ⟨q, rfl, hq, rfl⟩ := Forest.exists_plant_of_idsUnder hb
  have hafter := hs.kept.undisturbed_of_step hp hq (fun _ hx hx' => hd hx hx') h₁
  split
  · next s₂ n₂ h₂ =>
    have hbefore := hs.kept.undisturbed_of_step hq hp (fun _ hx hx' => hd hx' hx) h₂
    obtain ⟨s₁₂, s₂₁, n, h₁₂, h₂₁, hrenames⟩ := hafter.exists_renames hbefore
      (Supply.outcome_eq_ok_iff.2 h₁) (Supply.outcome_eq_ok_iff.2 h₂)
    exact ⟨s₁₂, s₂₁, n, Supply.outcome_eq_ok_iff.1 h₁₂, Supply.outcome_eq_ok_iff.1 h₂₁, hrenames⟩
  · next n₂ h₂ =>
    obtain ⟨n, hn⟩ := hafter.step_nothing (Supply.outcome_eq_ok_iff.2 h₂)
    exact ⟨n, Supply.outcome_eq_ok_iff.1 hn⟩
  · next why n₂ h₂ =>
    exact Supply.outcome_eq_error_iff.1
      (hafter.step_rejected (Supply.outcome_eq_error_iff.2 ⟨_, h₂⟩))
  · trivial

/-- A level with a comparison of two negations. -/
def comparing : Level := {
  board := [.binop "==" (.not (.boolean true)) (.not (.boolean false))] }

theorem distinct_comparing : ∀ t ∈ comparing.terms, t.Distinct := by
  simp [comparing, Level.terms, Term.binop, Term.not, Term.boolean, Term.withSlot, Term.withField,
    Term.ofTag, Term.parts, Term.tag, Terms.set, Term.Distinct, Terms.Distinct, Kind.tag]

/-- The two negations are reduced in either order. -/
theorem steps_commute_comparing : ∃ s s₁ s₂ s₁₂ s₂₁ n,
    (comparing.load .standard 0).runFrom 1 = (.ok s, 6) ∧ s.WellFormed 6 ∧
    s.nodes.idsUnder 2 = .ok [3, 2] ∧ s.nodes.idsUnder 4 = .ok [5, 4] ∧
    (s.step .standard 9 2).runFrom 6 = (.ok (some s₁), 7) ∧
    (s.step .standard 9 4).runFrom 6 = (.ok (some s₂), 7) ∧
    (s₁.step .standard 9 4).runFrom 7 = (.ok (some s₁₂), n) ∧
    (s₂.step .standard 9 2).runFrom 7 = (.ok (some s₂₁), n) ∧
    ∃ ρ : Perm NodeId, (∀ x : NodeId, x < 6 → ρ x = x) ∧ s₁₂.Renames ρ s₂₁ := by
  have hrun : ((comparing.load .standard 0).runFrom 1).2 = 6 ∧
      ((comparing.load .standard 0).runFrom 1).1.toOption.map (fun s =>
        ((s.nodes.idsUnder 2).toOption, (s.nodes.idsUnder 4).toOption,
          [2, 4].map fun target =>
            (((s.step .standard 9 target).runFrom 6).1.toOption.map Option.isSome,
              ((s.step .standard 9 target).runFrom 6).2))) =
        some (some [3, 2], some [5, 4], [(some true, 7), (some true, 7)]) := by
    decide +kernel
  have hmeets := Level.meets_load Signature.tagsReferences_standard distinct_comparing 0 (Nat.le_refl 1)
  obtain ⟨hnext, hrun⟩ := hrun
  obtain ⟨s, hs, hrun⟩ := Option.map_eq_some_iff.1 hrun
  have hload : (comparing.load .standard 0).runFrom 1 = (.ok s, 6) :=
    Prod.ext (toOption_eq_some_iff.1 hs) hnext
  simp only [Prod.mk.injEq, List.map_cons, List.map_nil, List.cons.injEq, and_true,
    Option.map_eq_some_iff, toOption_eq_some_iff] at hrun
  obtain ⟨ha, hb, ⟨⟨o, h₁, ho⟩, hn₁⟩, ⟨o', h₂, ho'⟩, hn₂⟩ := hrun
  obtain ⟨s₁, rfl⟩ := Option.isSome_iff_exists.1 ho
  obtain ⟨s₂, rfl⟩ := Option.isSome_iff_exists.1 ho'
  have hwell := ((hmeets.of_ok hload).2).wellFormed (by decide)
  have hcommute := steps_commute hwell ha hb (by simp) (Prod.ext h₁ hn₁)
  rw [show (s.step .standard 9 4).runFrom 6 = (.ok (some s₂), 7) from Prod.ext h₂ hn₂] at hcommute
  obtain ⟨s₁₂, s₂₁, n, h₁₂, h₂₁, hrenames⟩ := hcommute
  exact ⟨s, s₁, s₂, s₁₂, s₂₁, n, hload, hwell, ha, hb, Prod.ext h₁ hn₁, Prod.ext h₂ hn₂, h₁₂, h₂₁,
    hrenames⟩

end State

end TermForest
