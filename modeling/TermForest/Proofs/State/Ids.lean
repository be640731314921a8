import TermForest.Proofs.Reach
import TermForest.Proofs.State.Inversion

/-!
# Ids that come in

A command brings in no ids but those that are handed out to it. So the ids of the new state were there
before, or are no smaller than the next id was.
-/

namespace TermForest

open Supply (Meets)

namespace Forest

variable {F G : Forest} {lo : Nat} {n : Node} {x : NodeId}

/-- The ids that `G` has and `F` lacks are `lo` or above. -/
def AddsFrom (F G : Forest) (lo : Nat) : Prop := ∀ x : Nat, G.has x = true → F.has x = true ∨ lo ≤ x

namespace AddsFrom

theorem refl (F : Forest) (lo : Nat) : F.AddsFrom F lo := fun _ => .inl

theorem insert (h : F.AddsFrom G lo) (hn : F.has n.id = true ∨ lo ≤ n.id) :
    F.AddsFrom (G.insert n) lo := fun x hx => by
  rcases (has_insert G n x).1 hx with rfl | hx
  · exact hn
  · exact h x hx

theorem insert_of_get? (h : F.AddsFrom G lo) (hn : F.get? n.id = some n) {m : Node}
    (hm : m.id = n.id) : F.AddsFrom (G.insert m) lo :=
  h.insert (.inl (hm ▸ has_of_get? hn))

theorem erase (h : F.AddsFrom G lo) (x : NodeId) : F.AddsFrom (G.erase x) lo :=
  fun y hy => h y ((has_erase G x y).1 hy).2

theorem eraseAll (h : F.AddsFrom G lo) (ids : List NodeId) : F.AddsFrom (G.eraseAll ids) lo :=
  fun x hx => h x (by
    rw [has_eq_isSome, get?_eraseAll] at hx
    rw [has_eq_isSome]
    split at hx
    · cases hx
    · exact hx)

theorem insertAll (h : F.AddsFrom G lo) {t : Plant} (ht : ∀ x : Nat, x ∈ t.ids → lo ≤ x) :
    F.AddsFrom (G.insertAll t.nodes) lo := fun x hx => by
  by_cases hmem : x ∈ t.ids
  · exact .inr (ht x hmem)
  · rw [has_eq_isSome, get?_insertAll_of_notMem (by rwa [Plant.map_id_nodes]), ← has_eq_isSome] at hx
    exact h x hx

end AddsFrom

end Forest

namespace State

variable {s s' : State} {next : Nat}

theorem Grafts.addsFrom {t u : Plant} (h : s.Grafts t u s') (hu : ∀ x : Nat, x ∈ u.ids → next ≤ x) :
    s.nodes.AddsFrom s'.nodes next := fun x hx => by
  rcases (h.has_iff x).1 hx with ⟨hx, -⟩ | hx
  · exact .inl hx
  · exact .inr (hu x (h.added ▸ hx))

theorem addsFrom_detach (s : State) (id : NodeId) (next : Nat) :
    (s.detach id).Meets next (fun o _ => ∀ s', o = some s' → s.nodes.AddsFrom s'.nodes next)
      fun _ => True := by
  refine (s.meets_detaches id next).imp (fun o _ _ ho s' hs' => ?_) fun _ _ => trivial
  obtain ⟨-, n, p, slot, root, rfl, h⟩ := ho s' hs'
  rw [h.eq]
  refine Forest.AddsFrom.insert_of_get? (.insert_of_get? (.insert (.refl _ _) ?_) h.holder ?_)
    h.child ?_
  · exact .inr (Nat.le_refl next)
  · rfl
  · rfl

theorem addsFrom_moveToBoard (s : State) (id : NodeId) (next : Nat) :
    Ends (s.moveToBoard id) (fun o => ∀ s', o = some s' → s.nodes.AddsFrom s'.nodes next)
      fun _ => True := by
  refine (s.ends_moveToBoard id).imp (fun o ho s' hs' => ?_) fun _ _ => trivial
  obtain ⟨-, -, rfl⟩ := ho s' hs'
  exact .refl _ _

theorem addsFrom_moveToSlot (s : State) (S : Signature) (id hole : NodeId) (next : Nat) :
    Ends (s.moveToSlot S id hole)
      (fun o => ∀ s', o = some s' → s.nodes.AddsFrom s'.nodes next) fun _ => True := by
  refine (s.ends_fills S id hole).imp (fun o ho s' hs' => ?_) fun _ _ => trivial
  obtain ⟨n, m, p, slot, root, rfl, rfl, h⟩ := ho s' hs'
  rw [h.eq]
  refine Forest.AddsFrom.insert_of_get? (.insert_of_get? (.erase (.refl _ _) m.id) h.holder ?_)
    h.node ?_
  · rfl
  · rfl

theorem addsFrom_moveToDefs (s : State) (S : Signature) (id : NodeId) (next : Nat) :
    (s.moveToDefs S id).Meets next
      (fun o _ => ∀ s', o = some s' → s.nodes.AddsFrom s'.nodes next) fun _ => True := by
  refine (s.meets_redefining S id next).imp (fun o _ _ ho s' hs' => ?_) fun _ _ => trivial
  obtain ⟨n, t, u, F, added, -, -, -, hu, -, h⟩ := ho s' hs'
  obtain ⟨gone, rfl, -⟩ := exists_of_uprootAll h.dropped
  rw [h.eq]
  exact ((Forest.AddsFrom.refl s.nodes next).insertAll hu.le).eraseAll gone

theorem addsFrom_cleanup (s : State) (next : Nat) :
    Ends s.cleanup (fun o => ∀ s', o = some s' → s.nodes.AddsFrom s'.nodes next)
      fun _ => True := by
  refine s.ends_clears.imp (fun o ho s' hs' => ?_) fun _ _ => trivial
  obtain ⟨used, F, h⟩ := ho s' hs'
  obtain ⟨gone, rfl, -⟩ := exists_of_uprootAll h.dropped
  rw [h.eq]
  exact (Forest.AddsFrom.refl s.nodes next).eraseAll gone

theorem addsFrom_detectCompletion (s : State) (S : Signature) (next : Nat) :
    Ends (s.detectCompletion S) (fun o => ∀ s', o = some s' → s.nodes.AddsFrom s'.nodes next)
      fun _ => True := by
  refine (s.ends_detectCompletion S).imp (fun o ho s' hs' => ?_) fun _ _ => trivial
  obtain ⟨-, mode, -, rfl⟩ := ho s' hs'
  exact .refl _ _

end State

/-- A command brings in no ids but new ones. -/
theorem Game.addsFrom_obey (g : Game) {s : State} {next : Nat} (h : s.nodes.Hung next) (c : Command) :
    (g.obey s c).Meets next (fun o _ => ∀ s', o = some s' → s.nodes.AddsFrom s'.nodes next)
      fun _ => True := by
  cases c with
  | execute x =>
    refine (State.grafts_step h g.signature g.settings.maxRepeat x).imp
      (fun o _ _ ho s' hs' => ?_) fun _ => id
    obtain ⟨t, u, -, hg, hids⟩ := ho s' hs'
    exact hg.addsFrom fun x hx => (hids x hx).1
  | detach x => exact s.addsFrom_detach x next
  | moveToBoard x => exact .of_ends (s.addsFrom_moveToBoard x next)
  | moveToDefs x => exact s.addsFrom_moveToDefs g.signature x next
  | moveToSlot x hole => exact .of_ends (s.addsFrom_moveToSlot g.signature x hole next)
  | cleanup =>
    exact .liftFault (fun o ho => (s.addsFrom_cleanup next).of_ok ho) fun _ _ => trivial
  | detectCompletion =>
    exact .liftFault (fun o ho => (s.addsFrom_detectCompletion g.signature next).of_ok ho)
      fun _ _ => trivial
  | raiseError why => exact .throw trivial
  | startLevel _ => exact .pure nofun
  | undo => exact .pure nofun
  | redo => exact .pure nofun
  | clearError => exact .pure nofun

end TermForest
