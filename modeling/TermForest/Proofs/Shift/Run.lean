import TermForest.Forest.Editing
import TermForest.Proofs.Mirror.Relator
import TermForest.Proofs.Shift.Basic

/-!
# Runs on shifted ids

A run on shifted ids goes like the run on the ids themselves: it gives what was given before, shifted,
or fails with the same failure at shifted ids. A run that takes ids from a shifted supply takes equally
many, also when it fails.
-/

namespace TermForest

/-- The second value is the image of the first. -/
abbrev Image {α β : Type} (g : α → β) (a : α) (b : β) : Prop := b = g a

/-! ### Mapped loops -/

namespace Relator

variable {m : Type → Type} [Monad m] (R : Relator m) {α β γ δ : Type} {e : α → β} {h : γ → δ}
  {as : List α}

theorem rel_mapM_map [LawfulMonad m] {f : α → m γ} {g : β → m δ}
    (hfg : ∀ a ∈ as, R.rel (Image h) (f a) (g (e a))) :
    R.rel (Image (List.map h)) (as.mapM f) ((as.map e).mapM g) := by
  refine R.rel_imp (R.rel_mapM (Q := Image h) ?_) fun cs ds hcs => ?_
  · rw [List.forall₂_map_right_iff, List.forall₂_same]
    exact hfg
  · induction hcs with
    | nil => rfl
    | cons hc _ ih => exact congrArg₂ List.cons hc ih

theorem rel_mapM_same [LawfulMonad m] {f : α → m γ} {g : α → m δ}
    (hfg : ∀ a ∈ as, R.rel (Image h) (f a) (g a)) :
    R.rel (Image (List.map h)) (as.mapM f) (as.mapM g) := by
  have := R.rel_mapM_map (e := id) hfg
  rwa [List.map_id] at this

theorem rel_foldlM_map {f : γ → α → m γ} {g : δ → β → m δ}
    (hfg : ∀ a ∈ as, ∀ c, R.rel (Image h) (f c a) (g (h c) (e a))) (c : γ) :
    R.rel (Image h) (as.foldlM f c) ((as.map e).foldlM g (h c)) := by
  refine R.rel_foldlM (Q := Image h) ?_ rfl
  rw [List.forall₂_map_right_iff, List.forall₂_same]
  rintro a ha c _ rfl
  exact hfg a ha c

theorem rel_forM_map {f : α → m PUnit} {g : β → m PUnit}
    (hfg : ∀ a ∈ as, R.rel (fun _ _ => True) (f a) (g (e a))) :
    R.rel (fun _ _ => True) (as.forM f) ((as.map e).forM g) := by
  refine R.rel_forM ?_
  rw [List.forall₂_map_right_iff, List.forall₂_same]
  exact hfg

theorem rel_forIn_map {f : α → PUnit → m (ForInStep PUnit)} {g : β → PUnit → m (ForInStep PUnit)}
    (hfg : ∀ a ∈ as, R.rel Eq (f a ⟨⟩) (g (e a) ⟨⟩)) :
    R.rel (fun _ _ => True) (forIn as ⟨⟩ f) (forIn (as.map e) ⟨⟩ g) := by
  induction as with
  | nil => exact R.rel_pure trivial
  | cons a as ih =>
    rw [List.forall_mem_cons] at hfg
    rw [List.map_cons, List.forIn_cons, List.forIn_cons]
    refine R.rel_bind hfg.1 ?_
    rintro step _ rfl
    cases step with
    | done _ => exact R.rel_pure trivial
    | yield _ => exact ih hfg.2

theorem rel_allM_map {f : α → m Bool} {g : β → m Bool}
    (hfg : ∀ a ∈ as, R.rel Eq (f a) (g (e a))) : R.rel Eq (as.allM f) ((as.map e).allM g) := by
  refine R.rel_allM ?_
  rw [List.forall₂_map_right_iff, List.forall₂_same]
  exact hfg

theorem rel_findM?_map {f : α → m Bool} {g : β → m Bool}
    (hfg : ∀ a ∈ as, R.rel Eq (f a) (g (e a))) :
    R.rel (Image (Option.map e)) (as.findM? f) ((as.map e).findM? g) := by
  induction as with
  | nil => exact R.rel_pure rfl
  | cons a as ih =>
    rw [List.forall_mem_cons] at hfg
    rw [List.map_cons, List.findM?, List.findM?]
    refine R.rel_bind hfg.1 ?_
    rintro found _ rfl
    cases found with
    | true => exact R.rel_pure rfl
    | false => exact ih hfg.2

theorem rel_filterM_map {f : α → m Bool} {g : β → m Bool}
    (hfg : ∀ a ∈ as, R.rel Eq (f a) (g (e a))) :
    R.rel (Image (List.map e)) (as.filterM f) ((as.map e).filterM g) := by
  have haux : ∀ found, R.rel (Image (List.map e)) (List.filterAuxM f as found)
      (List.filterAuxM g (as.map e) (found.map e)) := by
    induction as with
    | nil => exact fun _ => R.rel_pure rfl
    | cons a as ih =>
      rw [List.forall_mem_cons] at hfg
      intro found
      refine R.rel_bind hfg.1 ?_
      rintro wanted _ rfl
      cases wanted with
      | true => exact ih hfg.2 (a :: found)
      | false => exact ih hfg.2 found
  refine R.rel_bind (haux []) ?_
  rintro found _ rfl
  exact R.rel_pure List.map_reverse.symm

/-- A test that fails before the rest of a computation. -/
theorem rel_unless {P : γ → δ → Prop} {p q : Prop} [Decidable p] [Decidable q] {x y : m PUnit}
    {f : PUnit → m γ} {g : PUnit → m δ} (hpq : p ↔ q) (h : R.rel (fun _ _ => False) x y)
    (hfg : R.rel P (f ⟨⟩) (g ⟨⟩)) :
    R.rel P (if p then x >>= f else f ⟨⟩) (if q then y >>= g else g ⟨⟩) :=
  R.rel_ite hpq (fun _ _ => R.rel_bind h fun _ _ => False.elim) fun _ _ => hfg

end Relator

/-! ### Failing alike -/

/-- Two computations give what is related, or the second fails with the image of the failure of the
first. -/
inductive Alike {ε : Type} (f : ε → ε) {α β : Type} (Q : α → β → Prop) :
    Except ε α → Except ε β → Prop where
  | ok {a : α} {b : β} (h : Q a b) : Alike f Q (.ok a) (.ok b)
  | error (e : ε) : Alike f Q (.error e) (.error (f e))

namespace Relator

variable {ε : Type}

/-- Computations that may fail run alike when they end alike. -/
def fails (f : ε → ε) : Relator (Except ε) where
  rel := Alike f
  rel_pure := .ok
  rel_bind h hf := by
    cases h with
    | ok h => exact hf _ _ h
    | error e => exact .error e

/-- Computations that take ids run alike when, from next ids of which one is shifted against the
other, they end alike and the next ids afterwards are shifted as much. -/
def shifts (k : Nat) (f : ε → ε) : Relator (Supply ε) where
  rel Q x y := ∀ next, Alike f Q (x.runFrom next).1 (y.runFrom (next + k)).1 ∧
    (y.runFrom (next + k)).2 = (x.runFrom next).2 + k
  rel_pure h _ := ⟨.ok h, rfl⟩
  rel_bind {_ _ _ _ _ _ x y _ _} h hf next := by
    obtain ⟨hend, hnext⟩ := h next
    rw [Supply.runFrom_bind, Supply.runFrom_bind]
    revert hend hnext
    rcases x.runFrom next with ⟨ox, nx⟩
    rcases y.runFrom (next + k) with ⟨oy, ny⟩
    rintro hend rfl
    cases hend with
    | ok hab => exact hf _ _ hab nx
    | error e => exact ⟨.error e, rfl⟩

end Relator

namespace Shift

variable {k : Nat} {α β : Type} {Q : α → β → Prop}

/-- Computations that can only end in a fault, on ids and shifted ids. -/
def reads (k : Nat) : Relator (Except Fault) := .fails (Fault.shift k)

/-- Computations that can be refused too, on ids and shifted ids. -/
def checks (k : Nat) : Relator (Except Failure) := .fails (Failure.shift k)

/-- Computations that take ids, on ids and shifted ids. -/
def takes (k : Nat) : Relator (Supply Fault) := .shifts k (Fault.shift k)

/-- Computations that take ids and can be refused, on ids and shifted ids. -/
def tries (k : Nat) : Relator (Supply Failure) := .shifts k (Failure.shift k)

/-- Edits of a forest and of the shifted one. -/
def edits (k : Nat) : Relator Editing := (takes k).stateT (Image (Forest.shift k))

/-- Computations that make clones, of nodes and of shifted ones. -/
def clones (k : Nat) : Relator Cloning := (takes k).stateT (Image (List.map (Node.shift k)))

/-- What a computation gives from a shifted next id on. -/
theorem runFrom_eq {ε : Type} {f : ε → ε} {g : α → β} {x : Supply ε α} {y : Supply ε β}
    (h : (Relator.shifts k f).rel (Image g) x y) (next : NodeId) :
    y.runFrom (next + k) =
      Prod.map (fun o => (o.map g).mapError f) (· + k) (x.runFrom next) := by
  obtain ⟨hend, hnext⟩ := h next
  revert hend hnext
  rcases x.runFrom next with ⟨ox, nx⟩
  rcases y.runFrom (next + k) with ⟨oy, ny⟩
  rintro hend rfl
  cases hend with
  | ok hab => exact hab ▸ rfl
  | error e => rfl

/-! ### Failures -/

theorem reads_error (fault : Fault) :
    (reads k).rel Q (.error fault) (.error (fault.shift k)) :=
  Alike.error fault

theorem checks_refuse (why : Rejection) :
    (checks k).rel Q (refuse why) (refuse (why.shift k)) :=
  Alike.error (Failure.rejected why)

theorem takes_throw (fault : Fault) :
    (takes k).rel Q (throw fault) (throw (fault.shift k)) := fun _ => ⟨.error fault, rfl⟩

theorem tries_throw (e : Failure) :
    (tries k).rel Q (throw e) (throw (e.shift k)) := fun _ => ⟨.error e, rfl⟩

/-! ### Parts of computations -/

theorem checks_read {x : Except Fault α} {y : Except Fault β} (h : (reads k).rel Q x y) :
    (checks k).rel Q (liftM x) (liftM y) := by
  cases h with
  | ok h => exact .ok h
  | error fault => exact Alike.error (Failure.fatal fault)

theorem takes_read {x : Except Fault α} {y : Except Fault β} (h : (reads k).rel Q x y) :
    (takes k).rel Q (liftM x) (liftM y) := by
  intro next
  cases h with
  | ok h => exact ⟨.ok h, rfl⟩
  | error fault => exact ⟨.error fault, rfl⟩

theorem tries_check {x : Except Failure α} {y : Except Failure β} (h : (checks k).rel Q x y) :
    (tries k).rel Q (liftM x) (liftM y) := by
  intro next
  cases h with
  | ok h => exact ⟨.ok h, rfl⟩
  | error e => exact ⟨.error e, rfl⟩

theorem tries_read {x : Except Fault α} {y : Except Fault β} (h : (reads k).rel Q x y) :
    (tries k).rel Q (liftM x) (liftM y) :=
  tries_check (checks_read h)

theorem tries_take {x : Supply Fault α} {y : Supply Fault β} (h : (takes k).rel Q x y) :
    (tries k).rel Q (liftM x) (liftM y) := by
  intro next
  obtain ⟨hend, hnext⟩ := h next
  rw [Supply.runFrom_liftM, Supply.runFrom_liftM]
  revert hend hnext
  rcases x.runFrom next with ⟨ox, nx⟩
  rcases y.runFrom (next + k) with ⟨oy, ny⟩
  rintro hend rfl
  cases hend with
  | ok h => exact ⟨.ok h, rfl⟩
  | error fault => exact ⟨Alike.error (Failure.fatal fault), rfl⟩

theorem edits_read {x : Except Fault α} {y : Except Fault β} (h : (reads k).rel Q x y) :
    (edits k).rel Q (liftM x) (liftM y) :=
  Relator.rel_lift _ (takes_read h)

/-! ### New ids -/

theorem shifts_take {ε : Type} {f : ε → ε} :
    (Relator.shifts k f).rel (Image (· + k)) Supply.take Supply.take := fun next =>
  ⟨.ok rfl, Nat.add_right_comm next k 1⟩

theorem edits_newId : (edits k).rel (Image (· + k)) Editing.newId Editing.newId :=
  Relator.rel_lift _ shifts_take

end Shift

end TermForest
