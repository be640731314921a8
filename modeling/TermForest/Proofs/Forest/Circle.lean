import Mathlib.Data.List.Chain
import Mathlib.Logic.Relation
import TermForest.Proofs.Forest.Hung

/-!
# Links that run in a circle

Following links of one sort from node to node, a chain that passes more nodes than there are comes to
one of them twice. So the count of moves on the way up from a node, in whatever forest, gives up on
circles alone: each way up comes to a root, leaves the forest at an id without a node, or runs in a
circle, and looking for the root tells which.
-/

namespace TermForest

open Relation (ReflTransGen TransGen)

namespace Forest

variable {F : Forest} {x y p r : NodeId} {e : Fault}

/-! ### Chains -/

/-- A chain of links between nodes that is longer than there are nodes runs into a circle. -/
theorem exists_circle_of_size_lt {R : NodeId → NodeId → Prop}
    (hR : ∀ y z, R y z → ∃ n, F.get? y = some n) {path : List NodeId}
    (hpath : (x :: path).IsChain R) (hsize : F.size < path.length) :
    ∃ y, ReflTransGen R x y ∧ TransGen R y y := by
  by_contra hno
  have hlater : (x :: path).Pairwise (TransGen R) := (hpath.imp fun _ _ => TransGen.single).pairwise
  have hreaches : ∀ y ∈ x :: path, ReflTransGen R x y := fun y hy => by
    rcases List.mem_cons.1 hy with rfl | hy
    · exact .refl
    · exact (List.rel_of_pairwise_cons hlater hy).to_reflTransGen
  have hnodup : (x :: path).Nodup := hlater.imp_of_mem fun {a b} ha _ hab e => by
    subst e
    exact hno ⟨a, hreaches a ha, hab⟩
  rcases List.eq_nil_or_concat path with rfl | ⟨init, last, rfl⟩
  · exact Nat.not_lt_zero _ hsize
  -- all ids on the chain but the last have nodes
  have hnodes : ∀ y ∈ x :: init, ∃ n, F.get? y = some n := fun y hy => by
    rw [List.concat_eq_append, ← List.cons_append, List.pairwise_append] at hlater
    obtain ⟨z, hz, -⟩ := TransGen.head'_iff.1 (hlater.2.2 y hy last List.mem_cons_self)
    exact hR y z hz
  rw [List.concat_eq_append, ← List.cons_append] at hnodup
  have hle := length_le_size hnodup.of_append_left hnodes
  rw [List.concat_eq_append, List.length_append, List.length_singleton] at hsize
  rw [List.length_cons] at hle
  lia

/-! ### Ways up -/

/-- The node at `x` names `p` as its parent. -/
def LeadsUp (F : Forest) (x p : NodeId) : Prop := ∃ n, F.get? x = some n ∧ n.parent = some p

/-- The parent links lead from `x` up to `y`, one after the other. -/
def Rises (F : Forest) (x y : NodeId) : Prop := ReflTransGen F.LeadsUp x y

theorem rightUnique_leadsUp : Relator.RightUnique F.LeadsUp := by
  rintro x p q ⟨n, hn, hp⟩ ⟨m, hm, hq⟩
  obtain rfl := Option.some.inj (hn.symm.trans hm)
  exact Option.some.inj (hp.symm.trans hq)

theorem rises_iff_ascends (hy : ∃ n, F.get? y = some n) : F.Rises x y ↔ ∃ k, F.Ascends x k y := by
  constructor
  · intro h
    induction h using ReflTransGen.head_induction_on with
    | refl => exact ⟨0, .refl hy.choose_spec⟩
    | head h _ ih =>
      obtain ⟨n, hn, hp⟩ := h
      obtain ⟨k, hk⟩ := ih
      exact ⟨k + 1, .up hn hp hk⟩
  · rintro ⟨k, hk⟩
    induction hk with
    | refl => exact .refl
    | up get parent _ ih => exact .head ⟨_, get, parent⟩ (ih hy)

theorem rootOf_eq_ok_iff : F.rootOf x = .ok r ↔ F.Rises x r ∧ F.IsRoot r := by
  have hroot : F.rootOf x = .ok r ↔ F.RootOf x r := ⟨rootOf_of_rootOf_eq, RootOf.rootOf_eq⟩
  rw [hroot, RootOf, and_comm]
  exact and_congr_left fun ⟨n, hn, _⟩ => (rises_iff_ascends ⟨n, hn⟩).symm

/-- The way up ends at an id whose node has no parent, or is not there. -/
def EndsAt (F : Forest) (y : NodeId) : Prop := ∀ p, ¬F.LeadsUp y p

theorem IsRoot.endsAt (h : F.IsRoot r) : F.EndsAt r := by
  rintro p ⟨n, hn, hp⟩
  obtain ⟨m, hm, hnone⟩ := h
  obtain rfl := Option.some.inj (hn.symm.trans hm)
  cases hnone.symm.trans hp

theorem endsAt_of_get?_eq_none (h : F.get? p = none) : F.EndsAt p := by
  rintro q ⟨n, hn, -⟩
  cases h.symm.trans hn

namespace Rises

variable {z : NodeId}

/-- A way up has one end. -/
theorem end_unique (hy : F.Rises x y) (hz : F.Rises x z) (hend : F.EndsAt y) (hend' : F.EndsAt z) :
    y = z := by
  rcases hy.total_of_right_unique rightUnique_leadsUp hz with h | h
  · rcases ReflTransGen.cases_head h with rfl | ⟨p, hp, -⟩
    · rfl
    · exact absurd hp (hend p)
  · rcases ReflTransGen.cases_head h with rfl | ⟨p, hp, -⟩
    · rfl
    · exact absurd hp (hend' p)

/-- A way up that ends does not start on a circle. -/
theorem not_circle (h : F.Rises x y) (hend : F.EndsAt y) : ¬TransGen F.LeadsUp x x := by
  induction h using ReflTransGen.head_induction_on with
  | refl =>
    intro hcircle
    obtain ⟨p, hp, -⟩ := TransGen.head'_iff.1 hcircle
    exact hend p hp
  | head hxz _ ih =>
    intro hcircle
    obtain ⟨z', hxz', hback⟩ := TransGen.head'_iff.1 hcircle
    obtain rfl := rightUnique_leadsUp hxz hxz'
    exact ih (.tail' hback hxz)

/-- A way up that ends comes to no circle. -/
theorem not_circle_of_rises (hy : F.Rises x y) (hend : F.EndsAt y) (hz : F.Rises x z) :
    ¬TransGen F.LeadsUp z z := by
  rcases hy.total_of_right_unique rightUnique_leadsUp hz with h | h
  · rcases ReflTransGen.cases_head h with rfl | ⟨p, hp, -⟩
    · exact not_circle .refl hend
    · exact absurd hp (hend p)
  · exact not_circle h hend

end Rises

/-! ### Looking for the root -/

/-- A climb that fails has come to an id without a node, or has made more moves than it may. -/
theorem cases_of_climb_eq_error {start : NodeId} {moves : Nat} {n : Node}
    (hn : F.get? n.id = some n) (h : F.climb start moves n = .error e) :
    (∃ p, e = .dangling p ∧ F.Rises n.id p ∧ F.get? p = none) ∨
      e = .broken (.endlessParents start) ∧
        ∃ path : List NodeId, path.length = moves + 1 ∧ (n.id :: path).IsChain F.LeadsUp := by
  fun_induction Forest.climb F start moves n with
  | case1 moves n hp => cases h
  | case2 moves n p hp ih =>
    have hup : F.LeadsUp n.id p := ⟨n, hn, hp⟩
    rcases bind_eq_error_iff.1 h with hfind | ⟨m, hm, hclimb⟩
    · obtain ⟨rfl, hnone⟩ := find_eq_error_iff.1 hfind
      exact .inl ⟨p, rfl, .single hup, hnone⟩
    · rw [find_eq_ok_iff] at hm
      obtain rfl := id_of_get? hm
      cases moves with
      | zero =>
        cases hclimb
        exact .inr ⟨rfl, [m.id], rfl, .cons_cons hup (.singleton _)⟩
      | succ moves =>
        rcases ih m hm hclimb with ⟨q, rfl, hq, hnone⟩ | ⟨rfl, path, hlen, hpath⟩
        · exact .inl ⟨q, rfl, .head hup hq, hnone⟩
        · exact .inr ⟨rfl, m.id :: path, congrArg (· + 1) hlen, .cons_cons hup hpath⟩

/-- A search for the root that fails has left the forest, or run into a circle. -/
theorem cases_of_rootOf_eq_error (h : F.rootOf x = .error e) :
    (∃ p, e = .dangling p ∧ F.Rises x p ∧ F.get? p = none) ∨
      e = .broken (.endlessParents x) ∧ ∃ y, F.Rises x y ∧ TransGen F.LeadsUp y y := by
  rcases bind_eq_error_iff.1 h with hfind | ⟨n, hn, hclimb⟩
  · obtain ⟨rfl, hnone⟩ := find_eq_error_iff.1 hfind
    exact .inl ⟨x, rfl, .refl, hnone⟩
  · rw [find_eq_ok_iff] at hn
    obtain rfl := id_of_get? hn
    rcases cases_of_climb_eq_error hn hclimb with hleft | ⟨rfl, path, hlen, hpath⟩
    · exact .inl hleft
    · have hnodes : ∀ y z, F.LeadsUp y z → ∃ n, F.get? y = some n :=
        fun y z ⟨n, hn, _⟩ => ⟨n, hn⟩
      exact .inr ⟨rfl, exists_circle_of_size_lt hnodes hpath (by lia)⟩

/-- Looking for the root of a node follows the parent links to their end, whatever they are: to the
node without a parent that they lead up to, or to the id without a node at which they leave the forest.
It is given up where they run in a circle, and nowhere else. -/
theorem rootOf_follows_parents (F : Forest) (x : NodeId) :
    (∀ r, F.rootOf x = .ok r ↔ F.Rises x r ∧ F.IsRoot r) ∧
      (∀ p, F.rootOf x = .error (.dangling p) ↔ F.Rises x p ∧ F.get? p = none) ∧
      (F.rootOf x = .error (.broken (.endlessParents x)) ↔
        ∃ y, F.Rises x y ∧ TransGen F.LeadsUp y y) ∧
      ∀ e, F.rootOf x = .error e →
        (∃ p, e = .dangling p) ∨ e = .broken (.endlessParents x) := by
  refine ⟨fun r => rootOf_eq_ok_iff, fun p => ⟨fun h => ?_, fun ⟨hp, hnone⟩ => ?_⟩,
    ⟨fun h => ?_, fun ⟨y, hy, hcircle⟩ => ?_⟩, fun e h => ?_⟩
  · rcases cases_of_rootOf_eq_error h with ⟨q, hq, hleft⟩ | ⟨hendless, -⟩
    · cases hq
      exact hleft
    · cases hendless
  · have hend := endsAt_of_get?_eq_none hnone
    cases h : F.rootOf x with
    | ok r =>
      obtain ⟨hr, hroot⟩ := rootOf_eq_ok_iff.1 h
      obtain ⟨n, hn, -⟩ := hr.end_unique hp hroot.endsAt hend ▸ hroot
      cases hnone.symm.trans hn
    | error e =>
      rcases cases_of_rootOf_eq_error h with ⟨q, rfl, hq, hnone'⟩ | ⟨-, y, hy, hcircle⟩
      · rw [hq.end_unique hp (endsAt_of_get?_eq_none hnone') hend]
      · exact absurd hcircle (hp.not_circle_of_rises hend hy)
  · rcases cases_of_rootOf_eq_error h with ⟨q, hq, -⟩ | ⟨-, hcircle⟩
    · cases hq
    · exact hcircle
  · cases h : F.rootOf x with
    | ok r =>
      obtain ⟨hr, hroot⟩ := rootOf_eq_ok_iff.1 h
      exact absurd hcircle (hr.not_circle_of_rises hroot.endsAt hy)
    | error e =>
      rcases cases_of_rootOf_eq_error h with ⟨q, rfl, hq, hnone⟩ | ⟨rfl, -⟩
      · exact absurd hcircle (hq.not_circle_of_rises (endsAt_of_get?_eq_none hnone) hy)
      · rfl
  · exact (cases_of_rootOf_eq_error h).imp (fun ⟨p, hp, _⟩ => ⟨p, hp⟩) fun h => h.1

end Forest

end TermForest
