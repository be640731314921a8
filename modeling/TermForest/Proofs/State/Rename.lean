import Mathlib.Logic.Equiv.Defs
import TermForest.Proofs.Forest.Relabel
import TermForest.Proofs.State.Mirror

/-!
# Renamed states

Two runs of one step differ in the ids that they hand out. When each is done, a permutation of ids that
keeps the older ones takes the state of one run to that of the other.
-/

namespace TermForest

open Equiv (Perm)

/-! ### Rotations -/

/-- The permutation that exchanges a block of `a` ids, from `lo` on, with the `b` ids after it. -/
def rotation (lo a b : Nat) : Perm NodeId where
  toFun x := if (x : Nat) < lo then x else if (x : Nat) < lo + a then x + b
    else if (x : Nat) < lo + a + b then x - a else x
  invFun x := if (x : Nat) < lo then x else if (x : Nat) < lo + b then x + a
    else if (x : Nat) < lo + b + a then x - b else x
  left_inv x := by
    dsimp only
    simp only [NodeId] at *
    split_ifs <;> lia
  right_inv x := by
    dsimp only
    simp only [NodeId] at *
    split_ifs <;> lia

theorem rotation_of_lt {lo a b x : Nat} (h : x < lo) : rotation lo a b x = x := if_pos h

theorem rotation_first {lo a b x : Nat} (h : lo ≤ x) (h' : x < lo + a) :
    rotation lo a b x = x + b :=
  (if_neg (Nat.not_lt.2 h)).trans (if_pos h')

theorem rotation_second {lo a b x : Nat} (h : lo + a ≤ x) (h' : x < lo + a + b) :
    rotation lo a b x = x - a :=
  (if_neg (show ¬x < lo by lia)).trans ((if_neg (Nat.not_lt.2 h)).trans (if_pos h'))

/-! ### Renaming -/

/-- The second state is the first one with its ids renamed; what the last step added and removed does
not count. -/
structure State.Renames (ρ : Perm NodeId) (s s' : State) : Prop where
  nodes : ∀ x, s'.nodes.get? (ρ x) = (s.nodes.get? x).map (Node.mapIds ρ)
  board : s'.board = s.board.map ρ
  toolbox : s'.toolbox = s.toolbox.map ρ
  defs : s'.defs = s.defs.map ρ
  goal : s'.goal = s.goal.map ρ
  level : s'.level = s.level
  mode : s'.mode = s.mode

/-- Renaming a node depends on its own id and those that it links to. -/
theorem Node.mapIds_congr {f g : NodeId → NodeId} {n : Node} (hid : f n.id = g n.id)
    (hparent : ∀ p, n.parent = some p → f p = g p) (hchildren : ∀ c ∈ n.slots.children, f c = g c) :
    n.mapIds f = n.mapIds g := by
  have hp : n.parent.map f = n.parent.map g := by
    cases h : n.parent with
    | none => rfl
    | some p => rw [Option.map_some, hparent p h, Option.map_some]
  have hs : n.slots.map f = n.slots.map g :=
    Slots.ext_entries (List.map_congr_left fun e he => by
      rw [hchildren e.2 (List.mem_map_of_mem he)])
  unfold mapIds
  rw [hid, hp, hs]

theorem Node.mapIds_self (n : Node) : n.mapIds (fun x => x) = n :=
  mapIds_of_fixed rfl (fun _ _ => rfl) fun _ _ => rfl

theorem State.renames_refl (s : State) : s.Renames (.refl _) s where
  nodes x := by
    show _ = (s.nodes.get? x).map (Node.mapIds fun x => x)
    rw [funext Node.mapIds_self, Option.map_id']
    rfl
  board := (List.map_id _).symm
  toolbox := (List.map_id _).symm
  defs := (List.map_id _).symm
  goal := (List.map_id _).symm
  level := rfl
  mode := rfl

namespace Forest.Hung

variable {F : Forest} {x : NodeId} {n : Node} {next : Nat} {f g : NodeId → NodeId}

/-- Renamings that agree on the ids below a bound agree on the nodes of a forest hung below it. -/
theorem mapIds_congr (h : F.Hung next) (hx : F.get? x = some n)
    (hfg : ∀ y : Nat, y < next → f y = g y) : n.mapIds f = n.mapIds g := by
  refine Node.mapIds_congr (hfg _ ?_) (fun p hp => hfg p (h.parent_lt x n hx p hp)) fun c hc => ?_
  · exact id_of_get? hx ▸ h.lt x n hx
  · obtain ⟨m, hm, -⟩ := h.exists_child hx hc
    exact hfg c (h.lt c m hm)

theorem mapIds_eq (h : F.Hung next) (hx : F.get? x = some n)
    (hf : ∀ y : Nat, y < next → f y = y) : n.mapIds f = n :=
  (h.mapIds_congr hx (g := fun y => y) hf).trans n.mapIds_self

end Forest.Hung

/-! ### Renamed plants -/

namespace Plant

variable {t : Plant} {f g : NodeId → NodeId} {n : Node}

/-- The same plant with the images of all ids. -/
def mapIds (f : NodeId → NodeId) (t : Plant) : Plant := t.mapNodes (Node.mapIds f)

@[simp] theorem root_mapIds : (t.mapIds f).root = t.root.mapIds f := root_mapNodes t

@[simp] theorem id_mapIds : (t.mapIds f).id = f t.id := congrArg Node.id root_mapIds

@[simp] theorem nodes_mapIds : (t.mapIds f).nodes = t.nodes.map (Node.mapIds f) := nodes_mapNodes t

@[simp] theorem ids_mapIds : (t.mapIds f).ids = t.ids.map f := by
  rw [← map_id_nodes, nodes_mapIds, ← map_id_nodes, List.map_map, List.map_map]
  rfl

theorem mapIds_mapIds : (t.mapIds f).mapIds g = t.mapIds (g ∘ f) := by
  induction t using induct with
  | step root parts ih =>
    simp only [mapIds, mapNodes_mk, List.map_map] at ih ⊢
    exact congr (congrArg mk (Node.mapIds_mapIds g)) (List.map_congr_left ih)

theorem mapIds_self : t.mapIds (fun x => x) = t := by
  induction t using induct with
  | step root parts ih =>
    simp only [mapIds, mapNodes_mk] at ih ⊢
    exact congr (congrArg mk root.mapIds_self) ((List.map_congr_left ih).trans (List.map_id _))

/-- Putting a plant in another place goes together with a renaming that fixes the parent there. -/
theorem mapIds_inPlaceOf (h : ∀ p, n.parent = some p → f p = p) :
    (t.inPlaceOf n).mapIds f = (t.mapIds f).inPlaceOf n := by
  obtain ⟨root, parts⟩ := t
  have hp : n.parent.map f = n.parent := by
    cases hn : n.parent with
    | none => rfl
    | some p => rw [Option.map_some, h p hn]
  simp only [inPlaceOf, mapIds, mapNodes_mk, root_mk, parts_mk]
  rw [Node.mapIds, Node.mapIds, hp]

/-- Renamings that agree on the ids of a plant, and on the parent of its root, agree on the plant. -/
theorem Joined.mapIds_congr (h : t.Joined) (hids : ∀ x ∈ t.ids, f x = g x)
    (hparent : ∀ p, t.root.parent = some p → f p = g p) : t.mapIds f = t.mapIds g := by
  refine mapNodes_congr fun n hn => ?_
  obtain ⟨v, hv, rfl⟩ := mem_nodes_iff.1 hn
  refine Node.mapIds_congr (hids _ (mem_ids_iff.2 ⟨v, hv, rfl⟩)) (fun p hp => ?_) fun c hc => ?_
  · rcases eq_or_mem_parts hv with rfl | ⟨w, hw, hvw⟩
    · exact hparent p hp
    · obtain ⟨-, -, hp', -⟩ := (h w hw).exists_entry hvw
      rw [hp, Option.some.injEq] at hp'
      exact hids p (mem_ids_iff.2 ⟨w, hw, hp'.symm⟩)
  · rw [(h v hv).children, List.mem_map] at hc
    obtain ⟨w, hw, rfl⟩ := hc
    exact hids _ (mem_ids_iff.2 ⟨w, mem_subs_trans (mem_subs_of_mem_parts hw) hv, rfl⟩)

end Plant

/-- A forest that reflects another holds the images of the plants of which all ids are seen. -/
theorem Mirror.Reflects.holds {M : Mirror} {F F' : Forest} {t : Plant} (h : M.Reflects F F')
    (ht : F.Holds t) (hids : ∀ x ∈ t.ids, M.seen x) : F'.Holds (t.mapIds M.image) := by
  induction ht with
  | @mk root parts get children held ih =>
    rw [Plant.ids_mk] at hids
    rw [Plant.mapIds, Plant.mapNodes_mk]
    refine .mk ?_ ?_ fun p hp => ?_
    · rw [Node.id_mapIds, h.get? _ (hids _ (by simp)), get]
      rfl
    · rw [Node.slots_mapIds, Slots.children_map, children, List.map_map, List.map_map]
      exact List.map_congr_left fun p _ => Plant.id_mapIds.symm
    · obtain ⟨q, hq, rfl⟩ := List.mem_map.1 hp
      exact ih q hq fun x hx => hids x (List.mem_append_left _ (List.mem_flatMap.2 ⟨q, hq, hx⟩))

/-! ### Mirrors of one state -/

namespace Mirror

variable {M : Mirror} {s s' : State} {next : Nat}

/-- The comparison of two runs on one state: all ids are seen, and faults have to come together. -/
def twice (lo hi : Nat) (le : lo ≤ hi) : Mirror where
  lo
  hi
  le
  seen _ := True
  seen_of_le _ _ := trivial
  strict := True
  seen_of_strict _ _ := trivial

theorem reflects_self {F : Forest} (h : F.Hung next) (hn : next ≤ M.lo) (hs : M.strict) :
    M.Reflects F F where
  get? x _ := by
    have hle := M.le
    by_cases hx : (x : Nat) < M.lo
    · rw [image_of_lt hx]
      cases hn : F.get? x with
      | none => rfl
      | some n =>
        rw [Option.map_some, h.mapIds_eq hn fun y hy => image_of_lt (by lia)]
    · have himage : M.lo ≤ M.image x := by
        unfold image
        rw [if_neg hx]
        simp only [NodeId] at *
        lia
      rw [h.get?_eq_none (y := M.image x) (by lia), h.get?_eq_none (y := x) (by lia)]
      rfl
  closed _ _ _ _ c _ := M.seen_of_strict hs c
  onto _ y n hy := ⟨y, (image_of_lt (Nat.lt_of_lt_of_le (h.lt y n hy) hn)).symm⟩

theorem map_image_of_lt {ids : List NodeId} (h : ∀ x : Nat, x ∈ ids → x < M.lo) :
    ids.map M.image = ids :=
  (List.map_congr_left fun x hx => image_of_lt (h x hx)).trans (List.map_id _)

/-- A state goes together with itself when its ids are older than those that are handed out. -/
theorem matches_self (h : s.Hung next) (hn : next ≤ M.lo) (hs : M.strict) : M.Matches s s := by
  have hids : ∀ ids ⊆ s.roots, ids = ids.map M.image := fun ids hsub =>
    (map_image_of_lt fun x hx => Nat.lt_of_lt_of_le (h.lt x (hsub hx)) hn).symm
  refine ⟨reflects_self h.nodes hn hs, hids _ ?_, hids _ ?_, hids _ ?_, hids _ ?_, rfl, rfl⟩
  all_goals intro x hx; simp [State.roots, hx]

/-- Nodes of a state are their own images when they are older than the ids that are handed out. -/
theorem nodes_self {F : Forest} (h : F.Hung next) (hn : next ≤ M.lo) (hs : M.strict) {x : NodeId}
    {n : Node} (hx : F.get? x = some n) : M.Nodes n n :=
  ⟨(h.mapIds_eq hx fun y hy => image_of_lt (by lia)).symm, M.seen_of_strict hs _,
    fun c _ => M.seen_of_strict hs c⟩

theorem states_self (h : s.Hung next) (hn : next ≤ M.lo) (hs : M.strict) : M.States s s where
  nodes := reflects_self h.nodes hn hs
  definition? _ := rfl
  defined name d hd := by
    obtain ⟨r, -, hr⟩ := List.mem_filterMap.1 (List.mem_of_find?_eq_some hd)
    exact nodes_self h.nodes hn hs hr

/-- The rotation that goes on like a mirror below a bound. -/
theorem rotation_eq_image {bound x : Nat} (hx : x < bound) :
    rotation M.lo (bound - M.lo) (M.hi - M.lo) x = M.image x := by
  by_cases hlo : x < M.lo
  · rw [rotation_of_lt hlo, image_of_lt hlo]
  · rw [rotation_first (by lia) (by lia)]
    exact (if_neg hlo).symm

/-- States that go together are renamed states. -/
theorem Matches.renames (h : M.Matches s s') (hs : M.strict) (hbound : s.Hung next) :
    s.Renames (rotation M.lo (next - M.lo) (M.hi - M.lo)) s' := by
  have hids : ∀ ids ⊆ s.roots, ids.map M.image =
      ids.map (rotation M.lo (next - M.lo) (M.hi - M.lo)) := fun ids hsub =>
    List.map_congr_left fun x hx => (rotation_eq_image (hbound.lt x (hsub hx))).symm
  refine ⟨fun x => ?_, h.board.trans (hids _ ?_), h.toolbox.trans (hids _ ?_),
    h.defs.trans (hids _ ?_), h.goal.trans (hids _ ?_), h.level, h.mode⟩
  · by_cases hx : (x : Nat) < next
    · rw [rotation_eq_image hx, h.nodes.get? x (M.seen_of_strict hs x)]
      cases hn : s.nodes.get? x with
      | none => rfl
      | some n =>
        rw [Option.map_some, Option.map_some, hbound.nodes.mapIds_congr hn fun y hy =>
          (rotation_eq_image hy).symm]
    · rw [hbound.nodes.get?_eq_none (y := x) (by lia), Option.map_none]
      -- a node there would be the image of an older one
      cases hm : s'.nodes.get? (rotation M.lo (next - M.lo) (M.hi - M.lo) x) with
      | none => rfl
      | some m =>
        obtain ⟨z, hz⟩ := h.nodes.onto hs _ m hm
        rw [hz, h.nodes.get? z (M.seen_of_strict hs z), Option.map_eq_some_iff] at hm
        obtain ⟨n, hn, -⟩ := hm
        have hlt := hbound.nodes.lt z n hn
        rw [← rotation_eq_image hlt, EmbeddingLike.apply_eq_iff_eq] at hz
        exact absurd (hz ▸ hlt) hx
  all_goals intro x hx; simp [State.roots, hx]

end Mirror

end TermForest
