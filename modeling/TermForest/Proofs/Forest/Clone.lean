import TermForest.Proofs.Forest.Circle
import TermForest.Proofs.Forest.Copy
import TermForest.Proofs.Forest.Listing

/-!
# Copies in any forest

Everything that hangs below an id can be copied, in whatever forest: a node may stand in several slots
and is then copied for each path to it, and the parents that nodes name need not be those that hold
them. It is enough that the slots below the id run in no circle, and lead to no id without a node; where
they lead to one there is no copy.
-/

namespace TermForest

open Relation (ReflTransGen TransGen)
open Supply (Meets)

namespace Forest

variable {F G : Forest} {x y c : NodeId} {n : Node} {depth : Nat} {e : Fault}

/-! ### Paths -/

/-- A slot of the node at `x` leads to `c`. -/
def LeadsTo (F : Forest) (x c : NodeId) : Prop := ∃ n, F.get? x = some n ∧ c ∈ n.slots.children

/-- The slots below `x` lead to `y`, one after the other. -/
def Reaches (F : Forest) (x y : NodeId) : Prop := ReflTransGen F.LeadsTo x y

/-- The slots below `x` run in no circle. -/
def AcyclicBelow (F : Forest) (x : NodeId) : Prop := ∀ y, F.Reaches x y → ¬TransGen F.LeadsTo y y

/-- The slots below `x` lead to no id without a node. -/
def WholeBelow (F : Forest) (x : NodeId) : Prop := ∀ y, F.Reaches x y → ∃ n, F.get? y = some n

/-- A path below an id is no longer than there are nodes. -/
theorem AcyclicBelow.length_le (h : F.AcyclicBelow x) {path : List NodeId}
    (hpath : (x :: path).IsChain F.LeadsTo) : path.length ≤ F.size := by
  by_contra hsize
  have hnodes : ∀ y z, F.LeadsTo y z → ∃ n, F.get? y = some n := fun y z ⟨n, hn, _⟩ => ⟨n, hn⟩
  obtain ⟨y, hy, hcircle⟩ := exists_circle_of_size_lt hnodes hpath (Nat.lt_of_not_le hsize)
  exact h y hy hcircle

/-! ### Walks that break off -/

/-- Why a walk below an id breaks off: a path leads to an id without a node, or is too long. -/
def BreaksOff (F : Forest) (depth : Nat) (x : NodeId) (e : Fault) : Prop :=
  (∃ y, e = .dangling y ∧ F.Reaches x y ∧ F.get? y = none) ∨
    ∃ path : List NodeId, path.length = depth ∧ (x :: path).IsChain F.LeadsTo

theorem BreaksOff.of_leadsTo (h : F.LeadsTo x c) (hc : F.BreaksOff depth c e) :
    F.BreaksOff (depth + 1) x e := by
  rcases hc with ⟨y, rfl, hy, hnone⟩ | ⟨path, rfl, hpath⟩
  · exact .inl ⟨y, rfl, .head h hy, hnone⟩
  · exact .inr ⟨c :: path, rfl, .cons_cons h hpath⟩

/-- Where the slots run in no circle, no path is too long. -/
theorem AcyclicBelow.exists_dangling (h : F.AcyclicBelow x) (hb : F.BreaksOff (F.size + 1) x e) :
    ∃ y, e = .dangling y ∧ F.Reaches x y ∧ F.get? y = none := by
  rcases hb with hb | ⟨path, hlength, hpath⟩
  · exact hb
  · exact absurd (h.length_le hpath) (by lia)

/-- The slots below a plant that is held lead to its parts. -/
theorem Holds.exists_of_reaches {t : Plant} (h : F.Holds t) (hy : F.Reaches t.id y) :
    ∃ v ∈ t.subs, v.id = y := by
  induction hy with
  | refl => exact ⟨t, t.mem_subs_self, rfl⟩
  | tail _ hstep ih =>
    obtain ⟨v, hv, rfl⟩ := ih
    obtain ⟨n, hn, hc⟩ := hstep
    have hheld := h.of_mem_subs hv
    obtain rfl := Option.some.inj (hheld.get?_id.symm.trans hn)
    rw [hheld.children, List.mem_map] at hc
    obtain ⟨p, hp, rfl⟩ := hc
    exact ⟨p, Plant.mem_subs_trans (Plant.mem_subs_of_mem_parts hp) hv, rfl⟩

/-- Below a plant that is held no node is missing. -/
theorem Holds.wholeBelow {t : Plant} (h : F.Holds t) : F.WholeBelow t.id := by
  intro y hy
  obtain ⟨v, hv, rfl⟩ := h.exists_of_reaches hy
  exact ⟨v.root, (h.of_mem_subs hv).get?_id⟩

/-! ### Copies that end -/

/-- Cloning has walked over a plant, or the walk breaks off. -/
theorem meets_clone_shows (depth : Nat) (id : NodeId) (locked : Bool)
    (holder : Option (NodeId × String)) (clones : List Node) (next : Nat) :
    (((F.unfold depth id).clone locked holder).run clones).Meets next
      (fun _ _ => ∃ t : Plant, t.id = id ∧ F.Holds t ∧ (F.unfold depth id).Shows t)
      (F.BreaksOff depth id) := by
  induction depth generalizing id holder clones next with
  | zero => exact .throw (.inr ⟨[], rfl, .singleton id⟩)
  | succ depth ih =>
    cases hn : F.get? id with
    | none =>
      rw [unfold, hn]
      exact .throw (.inl ⟨id, rfl, .refl, hn⟩)
    | some n =>
      have hloop : ∀ entries ⊆ n.slots.entries, ∀ (clone : NodeId) (clones : List Node) (next : Nat),
          ((entries.mapM fun e => do
            let child ← (F.unfold depth e.2).clone locked (some (clone, e.1))
            modify (child :: ·)
            return child.id : Cloning (List NodeId)).run clones).Meets next
            (fun _ _ => ∀ c ∈ entries.map Prod.snd,
              ∃ t : Plant, t.id = c ∧ F.Holds t ∧ (F.unfold depth c).Shows t)
            (F.BreaksOff (depth + 1) id) := by
        intro entries hsub
        induction entries with
        | nil => exact fun _ _ _ => .pure (List.forall_mem_nil _)
        | cons e entries ihe =>
          intro clone clones next
          rw [List.cons_subset] at hsub
          have hleads : F.LeadsTo id e.2 := ⟨n, hn, List.mem_map_of_mem hsub.1⟩
          rw [List.mapM_cons, StateT.run_bind, StateT.run_bind, bind_assoc]
          refine Meets.bind ((ih e.2 (some (clone, e.1)) clones next).imp (fun _ _ _ ht => ht)
            fun _ => .of_leadsTo hleads) ?_
          rintro ⟨child, clones'⟩ mid - ht
          refine (ihe hsub.2 clone (child :: clones') mid).bind ?_
          rintro _ next' - hts
          exact .pure (List.forall_mem_cons.2 ⟨ht, hts⟩)
      have hshows := exists_shows (F := F) depth hn
      rw [unfold, hn] at hshows ⊢
      simp only [Tree.clone, StateT.run_bind, StateT.run_lift, bind_assoc, pure_bind]
      refine .take_bind ((hloop _ (List.Subset.refl _) next clones (next + 1)).bind ?_)
      rintro _ next' - hts
      exact .pure (hshows hts)

/-- A copy that is made is a clone of a plant. -/
theorem meets_copy (F : Forest) (id : NodeId) (locked : Bool) (next : Nat) :
    (F.copy id locked).Meets next
      (fun c next' => ∃ t u : Plant, t.id = id ∧ F.Holds t ∧ (F.tree id).Shows t ∧ c.root = u.root ∧
        c.below = u.parts.flatMap Plant.nodes ∧ c.forest = F.insertAll u.nodes ∧
        t.CloneOf locked next next' u ∧ u.Free)
      (F.BreaksOff (F.size + 1) id) := by
  by_cases h : ∃ t : Plant, t.id = id ∧ F.Holds t ∧ (F.tree id).Shows t
  · obtain ⟨t, hid, ht, hshows⟩ := h
    exact (hshows.copy locked next).imp
      (fun _ _ _ ⟨u, hroot, hbelow, hforest, hu, hfree⟩ =>
        ⟨t, u, hid, ht, hshows, hroot, hbelow, hforest, hu, hfree⟩) fun _ => False.elim
  · exact (meets_clone_shows (F := F) (F.size + 1) id locked none [] next).bind
      fun _ _ _ ht => absurd ht h

section clone

variable {t u : Plant} {locked : Bool} {next next' : Nat}
  (hlt : ∀ (x : Nat) n, F.get? x = some n → x < next) (hu : t.CloneOf locked next next' u)
include hlt hu

theorem get?_eq_none_of_clone (hy : y ∈ u.ids) : F.get? y = none := by
  rw [Option.eq_none_iff_forall_ne_some]
  exact fun n hn => absurd (hlt y n hn) (Nat.not_lt.2 (hu.le y hy))

/-- The forest with a clone has its ids and the new ones. -/
theorem ids_insertAll_clone :
    (F.insertAll u.nodes).ids = F.ids ++ List.range' next t.nodes.length := by
  have hlt' : ∀ y ∈ F.ids, y < next := fun y hy => by
    obtain ⟨n, hn⟩ := mem_ids_iff.1 hy
    exact hlt y n hn
  have hfresh : ∀ y ∈ u.ids, F.get? y = none := fun y => get?_eq_none_of_clone hlt hu
  refine ids_eq_of_mem_iff (List.pairwise_append.2 ⟨pairwise_ids F, List.pairwise_lt_range',
    fun y hy z hz => ?_⟩) fun y => ?_
  · exact Nat.lt_of_lt_of_le (hlt' y hy) (List.mem_range'_1.1 hz).1
  · rw [List.mem_append, ← hu.preorder, u.perm_preorder.mem_iff, mem_ids_iff, mem_ids_iff]
    constructor
    · rintro ⟨n, hn⟩
      rcases get?_insertAll_cases hu.nodup hn with ⟨v, hv, rfl, -⟩ | hn
      · exact .inr (Plant.mem_ids_iff.2 ⟨v, hv, rfl⟩)
      · exact .inl ⟨n, hn⟩
    · rintro (⟨n, hn⟩ | hy)
      · exact ⟨n, get?_insertAll_of_get? hfresh hn⟩
      · obtain ⟨v, hv, rfl⟩ := Plant.mem_ids_iff.1 hy
        exact ⟨v.root, get?_insertAll_nodes hu.nodup hv⟩

end clone

/-- `c` is the copy of the plant `t`: it has put `u` into the forest. -/
structure Duplicates (F : Forest) (t : Plant) (locked : Bool) (next : Nat) (c : Copy) (u : Plant) :
    Prop where
  source : F.Holds t
  copy : c.forest.Holds u
  root : c.root = u.root
  /-- The clones below the root are listed children before parents, and the root comes last. -/
  nodes : c.below ++ [c.root] = u.nodes
  same : sameShape F t.id c.forest u.id = .ok true
  shape : u.shape = t.shape
  /-- The copy has no parent, and all clones in it name the clones and slots that hold them. -/
  free : u.Free
  joined : u.Joined
  locked : ∀ n ∈ u.nodes, n.locked = locked
  /-- The new ids are the next ones, given to parents before children. -/
  preorder : u.preorder = List.range' next t.nodes.length
  kept : ∀ x n, F.get? x = some n → c.forest.get? x = some n
  ids : c.forest.ids = F.ids ++ List.range' next t.nodes.length

/-- Where the slots below an id run in no circle, everything that hangs below it is copied, under the next
ids. If the slots lead to an id without a node, there is no copy, and the fault names such an id. -/
theorem AcyclicBelow.duplicates (h : F.AcyclicBelow x) {next : Nat}
    (hlt : ∀ (y : Nat) n, F.get? y = some n → y < next) (locked : Bool) :
    (F.WholeBelow x → ∃ (t u : Plant) (c : Copy), t.id = x ∧
      (F.copy x locked).runFrom next = (.ok c, next + t.nodes.length) ∧
      F.Duplicates t locked next c u) ∧
    (¬F.WholeBelow x → ∃ y next', F.Reaches x y ∧ F.get? y = none ∧
      (F.copy x locked).runFrom next = (.error (.dangling y), next')) := by
  have hcopy := F.meets_copy x locked next
  rcases hrun : (F.copy x locked).runFrom next with ⟨e | c, next'⟩
  · obtain ⟨y, rfl, hy, hnone⟩ := h.exists_dangling (hcopy.of_error hrun).2
    refine ⟨fun hwhole => ?_, fun _ => ⟨y, next', hy, hnone, rfl⟩⟩
    obtain ⟨n, hn⟩ := hwhole y hy
    cases hnone.symm.trans hn
  · obtain ⟨-, t, u, rfl, ht, hshows, hroot, hbelow, hforest, hu, hfree⟩ := hcopy.of_ok hrun
    obtain rfl := hu.stop
    refine ⟨fun _ => ⟨t, u, c, rfl, rfl, ?_⟩, fun hnot => absurd ht.wholeBelow hnot⟩
    have hheld : c.forest.Holds u := hforest ▸ holds_insertAll hu.joined hu.nodup
    obtain ⟨same, hsame, hiff⟩ := hshows.sameShape (hheld.tree_shows hu.nodup)
    constructor
    case source => exact ht
    case copy => exact hheld
    case root => exact hroot
    case nodes =>
      obtain ⟨root, parts⟩ := u
      rw [hbelow, hroot, Plant.nodes_mk]
      rfl
    case same => exact hsame.trans (congrArg _ (hiff.2 hu.shape.symm))
    case shape => exact hu.shape
    case free => exact hfree
    case joined => exact hu.joined
    case locked => exact hu.locked
    case preorder => exact hu.preorder
    case kept =>
      intro y n hn
      rw [hforest]
      exact get?_insertAll_of_get? (fun y => get?_eq_none_of_clone hlt hu) hn
    case ids =>
      rw [hforest]
      exact ids_insertAll_clone hlt hu

/-- An application whose slots hold one and the same node. -/
def doubled : Plant :=
  .mk { id := 1, kind := .apply, slots := ⟨[("callee", 2), ("argument", 2)], by decide⟩ }
    [.mk { id := 2, kind := .boolean } [], .mk { id := 2, kind := .boolean } []]

theorem holds_doubled : (insertAll ∅ doubled.nodes).Holds doubled := by
  have hleaf : (insertAll ∅ doubled.nodes).Holds (.mk { id := 2, kind := .boolean } []) :=
    .mk (by rfl) rfl (List.forall_mem_nil _)
  exact .mk (by rfl) rfl (List.forall_mem_cons.2 ⟨hleaf, List.forall_mem_singleton.2 hleaf⟩)

theorem get?_doubled_cases (h : (insertAll ∅ doubled.nodes).get? x = some n) :
    x = 1 ∧ n = doubled.root ∨ x = 2 ∧ n = { id := 2, kind := .boolean } := by
  simp only [doubled, Plant.nodes_mk, Plant.root_mk, List.flatMap_cons, List.flatMap_nil,
    List.nil_append, List.append_nil, List.cons_append, insertAll, List.foldl_cons,
    List.foldl_nil, get?_insert, get?_empty] at h ⊢
  grind

/-- The slots of the application lead to its leaf, and those of the leaf to nothing. -/
theorem leadsTo_doubled (h : (insertAll ∅ doubled.nodes).LeadsTo x y) : x = 1 ∧ y = 2 := by
  obtain ⟨n, hn, hc⟩ := h
  rcases get?_doubled_cases hn with ⟨rfl, rfl⟩ | ⟨rfl, rfl⟩
  · exact ⟨rfl, by simpa [doubled, Slots.children] using hc⟩
  · cases hc

/-- A node that stands in two slots is copied twice. -/
theorem duplicates_doubled : ∃ t u c, t.nodes.length = 3 ∧
    ((insertAll ∅ doubled.nodes).copy 1 true).runFrom 3 = (.ok c, 6) ∧
    (insertAll ∅ doubled.nodes).Duplicates t true 3 c u := by
  have hacyclic : (insertAll ∅ doubled.nodes).AcyclicBelow 1 := fun y _ hloop => by
    obtain ⟨_, hout, -⟩ := TransGen.head'_iff.1 hloop
    obtain ⟨_, -, hin⟩ := TransGen.tail'_iff.1 hloop
    exact absurd ((leadsTo_doubled hout).1.symm.trans (leadsTo_doubled hin).2) (by decide)
  have hlt : ∀ (y : Nat) n, (insertAll ∅ doubled.nodes).get? y = some n → y < 3 := fun y n hn => by
    rcases get?_doubled_cases hn with ⟨rfl, -⟩ | ⟨rfl, -⟩ <;> decide
  obtain ⟨t, u, c, hid, hrun, hc⟩ :=
    (AcyclicBelow.duplicates hacyclic hlt true).1 holds_doubled.wholeBelow
  obtain rfl := hc.source.unique holds_doubled hid
  have hlength : doubled.nodes.length = 3 := by decide
  exact ⟨_, u, c, hlength, hlength ▸ hrun, hc⟩

end Forest

end TermForest
