import TermForest.Proofs.Except
import TermForest.Proofs.Forest.Plant
import TermForest.Proofs.Node
import TermForest.Normal
import TermForest.Rule.Names

/-!
# Walks over plants

The unfolded tree at an id of which a forest holds a plant shows this plant to its full depth. A walk
over the tree is then a walk over the plant, and gives an answer.
-/

namespace TermForest

/-- Every node of a plant has the fields and slots of its kind. -/
def Plant.Formed (next : Nat) (t : Plant) : Prop := ∀ n ∈ t.nodes, n.Formed next

namespace Plant

variable {next : Nat} {t u : Plant}

theorem formed_mk_iff {root : Node} {parts : List Plant} :
    (mk root parts).Formed next ↔ root.Formed next ∧ ∀ p ∈ parts, p.Formed next := by
  simp only [Formed, nodes_mk, List.mem_append, List.mem_flatMap, List.mem_singleton]
  constructor
  · intro h
    exact ⟨h root (.inr rfl), fun p hp n hn => h n (.inl ⟨p, hp, hn⟩)⟩
  · rintro ⟨hroot, hparts⟩ n (⟨p, hp, hn⟩ | rfl)
    · exact hparts p hp n hn
    · exact hroot

theorem Formed.mono {next' : Nat} (h : t.Formed next) (hn : next ≤ next') : t.Formed next' :=
  fun n hm => (h n hm).mono hn

theorem Formed.of_mem_subs (h : t.Formed next) (hu : u ∈ t.subs) : u.Formed next :=
  fun n hn => h n (nodes_subset_of_mem_subs hu hn)

theorem Formed.root (h : t.Formed next) : t.root.Formed next := h _ t.root_mem_nodes

end Plant

/-- An unfolded tree shows a plant to its full depth. -/
inductive Tree.Shows : Tree → Plant → Prop where
  | node {root : Node} {below : NodeId → Tree} {parts : List Plant}
      (children : root.slots.children = parts.map Plant.id)
      (shown : ∀ p ∈ parts, Shows (below p.id) p) : Shows (.node root below) (.mk root parts)

namespace Forest

variable {F : Forest} {t : Plant}

theorem Holds.shows (h : F.Holds t) {depth : Nat} (hd : t.nodes.length ≤ depth) :
    (F.unfold depth t.id).Shows t := by
  induction h generalizing depth with
  | @mk root parts get children held ih =>
    cases depth with
    | zero => simp at hd
    | succ depth =>
      rw [Plant.id_mk, unfold, get]
      refine .node children fun p hp => ih p hp ?_
      have := Plant.length_nodes_lt root hp
      omega

/-- The tree at an id shows the plant that is held there. -/
theorem Holds.tree_shows (h : F.Holds t) (hn : t.ids.Nodup) : (F.tree t.id).Shows t :=
  h.shows (Nat.le_succ_of_le (h.length_nodes_le hn))

end Forest

namespace Tree.Shows

variable {T : Tree} {t : Plant}

theorem root? (h : T.Shows t) : T.root? = some t.root := by
  cases h
  rfl

/-! ### Searching -/

theorem selectOnto (h : T.Shows t) (wanted : Node → Bool) (found : List Node) :
    T.selectOnto wanted (fun _ => true) found =
      .ok ((t.nodes.filter wanted).reverse ++ found) := by
  induction h generalizing found with
  | @node root below parts children shown ih =>
    have hfold : ∀ ps ⊆ parts, ∀ found : List Node,
        (ps.map Plant.id).foldlM
          (fun found child => (below child).selectOnto wanted (fun _ => true) found) found =
        .ok (((ps.flatMap Plant.nodes).filter wanted).reverse ++ found) := by
      intro ps hps found
      induction ps generalizing found with
      | nil => rfl
      | cons p ps ihp =>
        rw [List.cons_subset] at hps
        rw [List.map_cons, List.foldlM_cons, ih p hps.1, ok_bind, ihp hps.2]
        simp
    simp only [Tree.selectOnto, if_true, children, hfold parts (List.Subset.refl _) found]
    by_cases hw : wanted root <;> simp [hw]

theorem select (h : T.Shows t) (wanted : Node → Bool) :
    T.select wanted (fun _ => true) = .ok (t.nodes.filter wanted) := by
  rw [Tree.select, h.selectOnto]
  simp

end Tree.Shows

namespace Forest

variable {F : Forest} {t : Plant}

theorem Holds.findAll (h : F.Holds t) (hn : t.ids.Nodup) (wanted : Node → Bool) :
    F.findAll t.id wanted = .ok (t.nodes.filter wanted) :=
  (h.tree_shows hn).select wanted

theorem Holds.idsUnder (h : F.Holds t) (hn : t.ids.Nodup) : F.idsUnder t.id = .ok t.ids := by
  have hall : t.nodes.filter (fun _ => true) = t.nodes := by simp
  rw [Forest.idsUnder, h.findAll hn, hall, ← Plant.map_id_nodes]
  rfl

end Forest

end TermForest
