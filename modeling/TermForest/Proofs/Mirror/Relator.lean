import Mathlib.Data.List.Forall2
import TermForest.Proofs.Supply

/-!
# Two runs side by side

A relator says when two computations of one monad run alike: what they give is related, and so it is
after any continuations that take related values to computations that run alike. The relators here are
for computations that may fail and for those that take ids; a state that is carried along adds a
relation of its own.
-/

namespace TermForest

/-- When two computations run alike, for each relation between what they give. -/
structure Relator (m : Type → Type) [Monad m] where
  rel : {α β : Type} → (α → β → Prop) → m α → m β → Prop
  rel_pure : ∀ {α β : Type} {Q : α → β → Prop} {a : α} {b : β}, Q a b → rel Q (pure a) (pure b)
  rel_bind : ∀ {α β γ δ : Type} {P : α → β → Prop} {Q : γ → δ → Prop} {x : m α} {y : m β}
    {f : α → m γ} {g : β → m δ}, rel P x y → (∀ a b, P a b → rel Q (f a) (g b)) →
      rel Q (x >>= f) (y >>= g)

namespace Relator

variable {m : Type → Type} [Monad m] (R : Relator m)
  {α β γ δ σ : Type} {P P' : α → β → Prop} {Q : γ → δ → Prop}

theorem rel_imp [LawfulMonad m] {x : m α} {y : m β} (h : R.rel P x y) (hP : ∀ a b, P a b → P' a b) :
    R.rel P' x y := by
  rw [← bind_pure x, ← bind_pure y]
  exact R.rel_bind h fun a b hab => R.rel_pure (hP a b hab)

theorem rel_ite {p q : Prop} [Decidable p] [Decidable q] {x x' : m α} {y y' : m β} (hpq : p ↔ q)
    (h : p → q → R.rel P x y) (h' : ¬p → ¬q → R.rel P x' y') :
    R.rel P (if p then x else x') (if q then y else y') := by
  by_cases hp : p
  · rw [if_pos hp, if_pos (hpq.1 hp)]
    exact h hp (hpq.1 hp)
  · rw [if_neg hp, if_neg (mt hpq.2 hp)]
    exact h' hp (mt hpq.2 hp)

/-! ### Loops -/

theorem rel_mapM [LawfulMonad m] {f : α → m γ} {g : β → m δ} {as : List α} {bs : List β}
    (h : List.Forall₂ (fun a b => R.rel Q (f a) (g b)) as bs) :
    R.rel (List.Forall₂ Q) (as.mapM f) (bs.mapM g) := by
  induction h with
  | nil => exact R.rel_pure .nil
  | cons h _ ih =>
    rw [List.mapM_cons, List.mapM_cons]
    refine R.rel_bind h fun c d hcd => R.rel_bind ih fun cs ds hcds => ?_
    exact R.rel_pure (.cons hcd hcds)

theorem rel_foldlM {f : γ → α → m γ} {g : δ → β → m δ} {as : List α} {bs : List β}
    (h : List.Forall₂ (fun a b => ∀ c d, Q c d → R.rel Q (f c a) (g d b)) as bs) {c : γ} {d : δ}
    (hcd : Q c d) : R.rel Q (as.foldlM f c) (bs.foldlM g d) := by
  induction h generalizing c d with
  | nil => exact R.rel_pure hcd
  | cons h _ ih =>
    rw [List.foldlM_cons, List.foldlM_cons]
    exact R.rel_bind (h c d hcd) fun c' d' => ih

theorem rel_forM {f : α → m PUnit} {g : β → m PUnit} {as : List α} {bs : List β}
    (h : List.Forall₂ (fun a b => R.rel (fun _ _ => True) (f a) (g b)) as bs) :
    R.rel (fun _ _ => True) (as.forM f) (bs.forM g) := by
  induction h with
  | nil => exact R.rel_pure trivial
  | cons h _ ih => exact R.rel_bind h fun _ _ _ => ih

theorem rel_allM {f : α → m Bool} {g : β → m Bool} {as : List α} {bs : List β}
    (h : List.Forall₂ (fun a b => R.rel Eq (f a) (g b)) as bs) :
    R.rel Eq (as.allM f) (bs.allM g) := by
  induction h with
  | nil => exact R.rel_pure rfl
  | cons h _ ih =>
    rw [List.allM_cons, List.allM_cons]
    refine R.rel_bind h fun c d hcd => ?_
    subst hcd
    cases c
    · exact R.rel_pure rfl
    · exact ih

/-! ### Carrying a state -/

/-- Two computations on a state run alike when related states stay related. -/
def stateT (S : σ → σ → Prop) : Relator (StateT σ m) where
  rel P x y := ∀ s s', S s s' → R.rel (fun o o' => P o.1 o'.1 ∧ S o.2 o'.2) (x.run s) (y.run s')
  rel_pure h s s' hs := R.rel_pure ⟨h, hs⟩
  rel_bind h hf s s' hs := by
    rw [StateT.run_bind, StateT.run_bind]
    exact R.rel_bind (h s s' hs) fun o o' ho => hf _ _ ho.1 _ _ ho.2

variable {S : σ → σ → Prop}

theorem rel_get : (R.stateT S).rel S get get := fun _ _ hs => R.rel_pure ⟨hs, hs⟩

theorem rel_set {s s' : σ} (h : S s s') : (R.stateT S).rel (fun _ _ => True) (set s) (set s') :=
  fun _ _ _ => R.rel_pure ⟨trivial, h⟩

theorem rel_modify {f g : σ → σ} (h : ∀ s s', S s s' → S (f s) (g s')) :
    (R.stateT S).rel (fun _ _ => True) (modify f) (modify g) :=
  fun s s' hs => R.rel_pure ⟨trivial, h s s' hs⟩

theorem rel_lift {x : m α} {y : m β} (h : R.rel P x y) :
    (R.stateT S).rel P (StateT.lift x) (StateT.lift y) := fun _ _ hs =>
  R.rel_bind h fun _ _ hab => R.rel_pure ⟨hab, hs⟩

end Relator

/-! ### Failing alike -/

/-- Failures of which some are faults and some are refusals. That a step is put in place too late
counts as neither. -/
class Faulty (ε : Type) where
  fatal : ε → Prop
  refusal : ε → Prop

instance : Faulty Fault where
  fatal e := ∀ target, e ≠ .staleStep target
  refusal _ := False

theorem fatal_dangling (id : NodeId) : Faulty.fatal (Fault.dangling id) := nofun

theorem fatal_broken (breach : Breach) : Faulty.fatal (Fault.broken breach) := nofun

instance : Faulty Failure where
  fatal e := ∃ fault : Fault, e = .fatal fault ∧ Faulty.fatal fault
  refusal := Failure.IsRefusal

/-- Two computations give what is related, or they are refused for the same reason, or both end in
faults, which need not be the same. Where the comparison is not strict, one side may end in a fault
alone. -/
inductive Agree (strict : Prop) {ε α β : Type} [Faulty ε] (Q : α → β → Prop) :
    Except ε α → Except ε β → Prop where
  | ok {a : α} {b : β} (h : Q a b) : Agree strict Q (.ok a) (.ok b)
  | refused {e : ε} (he : Faulty.refusal e) : Agree strict Q (.error e) (.error e)
  | fatal {e e' : ε} (he : Faulty.fatal e) (he' : Faulty.fatal e') :
    Agree strict Q (.error e) (.error e')
  | left {e : ε} {y : Except ε β} (hs : ¬strict) (he : Faulty.fatal e) : Agree strict Q (.error e) y
  | right {x : Except ε α} {e : ε} (hs : ¬strict) (he : Faulty.fatal e) :
    Agree strict Q x (.error e)

namespace Agree

variable {strict : Prop} {ε α β γ δ : Type} [Faulty ε] {P : α → β → Prop} {Q : γ → δ → Prop}

theorem bind {x : Except ε α} {y : Except ε β} {f : α → Except ε γ} {g : β → Except ε δ}
    (h : Agree strict P x y) (hf : ∀ a b, P a b → Agree strict Q (f a) (g b)) :
    Agree strict Q (x >>= f) (y >>= g) := by
  cases h with
  | ok h => exact hf _ _ h
  | refused he => exact .refused he
  | fatal he he' => exact .fatal he he'
  | left hs he => exact .left hs he
  | right hs he => exact .right hs he

theorem map {x : Except ε α} {y : Except ε β} {f : α → γ} {g : β → δ} (h : Agree strict P x y)
    (hfg : ∀ a b, P a b → Q (f a) (g b)) : Agree strict Q (x.map f) (y.map g) := by
  cases h with
  | ok h => exact .ok (hfg _ _ h)
  | refused he => exact .refused he
  | fatal he he' => exact .fatal he he'
  | left hs he => exact .left hs he
  | right hs he => exact .right hs he

/-- What is given may be used to tell more of how it is related. -/
theorem imp_of_ok {P' : α → β → Prop} {x : Except ε α} {y : Except ε β} (h : Agree strict P x y)
    (hP : ∀ a b, x = .ok a → P a b → P' a b) : Agree strict P' x y := by
  cases h with
  | ok h => exact .ok (hP _ _ rfl h)
  | refused he => exact .refused he
  | fatal he he' => exact .fatal he he'
  | left hs he => exact .left hs he
  | right hs he => exact .right hs he

/-- Faults of a part are faults of the whole. -/
theorem liftFault {x : Except Fault α} {y : Except Fault β} (h : Agree strict P x y) :
    Agree strict P (liftM x : Except Failure α) (liftM y) := by
  cases h with
  | ok h => exact .ok h
  | refused he => exact he.elim
  | fatal he he' => exact .fatal ⟨_, rfl, he⟩ ⟨_, rfl, he'⟩
  | left hs he => exact .left hs ⟨_, rfl, he⟩
  | right hs he => exact .right hs ⟨_, rfl, he⟩

/-- What is given when no fault comes between. -/
theorem exists_ok {a : α} {y : Except ε β} (h : Agree strict P (.ok a) y)
    (hy : strict ∨ ∀ e, y = .error e → ¬Faulty.fatal e) : ∃ b, y = .ok b ∧ P a b := by
  cases h with
  | ok h => exact ⟨_, rfl, h⟩
  | right hs he =>
    rcases hy with hy | hy
    · exact absurd hy hs
    · exact absurd he (hy _ rfl)

end Agree

/-- Computations that may fail run alike when they agree. -/
def Relator.reads (strict : Prop) (ε : Type) [Faulty ε] : Relator (Except ε) where
  rel := Agree strict
  rel_pure := .ok
  rel_bind := .bind

/-! ### Taking ids alike -/

namespace Supply

variable {ε α β : Type}

/-- What a computation gives from a next id on, with the next id afterwards. -/
def outcome (x : Supply ε α) (next : NodeId) : Except ε (α × NodeId) :=
  match x.runFrom next with
  | (.ok a, next') => .ok (a, next')
  | (.error e, _) => .error e

@[simp] theorem outcome_pure (a : α) (next : NodeId) :
    (pure a : Supply ε α).outcome next = .ok (a, next) := rfl

theorem outcome_bind (x : Supply ε α) (f : α → Supply ε β) (next : NodeId) :
    (x >>= f).outcome next = x.outcome next >>= fun o => (f o.1).outcome o.2 := by
  unfold outcome
  rw [runFrom_bind]
  rcases x.runFrom next with ⟨e | a, next'⟩ <;> rfl

theorem outcome_lift (x : Except ε α) (next : NodeId) :
    (liftM x : Supply ε α).outcome next = x.map fun a => (a, next) := by
  cases x <;> rfl

theorem outcome_liftM (x : Supply Fault α) (next : NodeId) :
    (liftM x : Supply Failure α).outcome next = liftM (x.outcome next) := by
  unfold outcome
  rw [runFrom_liftM]
  rcases x.runFrom next with ⟨e | a, next'⟩ <;> rfl

theorem outcome_eq_ok_iff {x : Supply ε α} {a : α} {next next' : NodeId} :
    x.outcome next = .ok (a, next') ↔ x.runFrom next = (.ok a, next') := by
  unfold outcome
  rcases x.runFrom next with ⟨e | a, next'⟩ <;> simp

theorem outcome_eq_error_iff {x : Supply ε α} {e : ε} {next : NodeId} :
    x.outcome next = .error e ↔ ∃ next', x.runFrom next = (.error e, next') := by
  unfold outcome
  rcases x.runFrom next with ⟨e | a, next'⟩ <;> simp

end Supply

namespace Relator

variable {strict : Prop} {ε α β : Type} [Faulty ε] {lo hi : Nat} {P : α → β → Prop}

/-- Computations that take ids run alike when, from next ids that lie as far above `lo` and `hi`, they
agree and take equally many. -/
def takes (strict : Prop) (lo hi : Nat) (ε : Type) [Faulty ε] : Relator (Supply ε) where
  rel P x y := ∀ k, Agree strict
    (fun o o' => P o.1 o'.1 ∧ ∃ j, o.2 = lo + j ∧ o'.2 = hi + j)
    (x.outcome (lo + k)) (y.outcome (hi + k))
  rel_pure h k := .ok ⟨h, k, rfl, rfl⟩
  rel_bind h hf k := by
    rw [Supply.outcome_bind, Supply.outcome_bind]
    refine (h k).bind ?_
    rintro ⟨a, _⟩ ⟨b, _⟩ ⟨hab, j, rfl, rfl⟩
    exact hf a b hab j

theorem takes_take : (takes strict lo hi ε).rel (fun i j => ∃ k, i = lo + k ∧ j = hi + k)
    Supply.take Supply.take :=
  fun k => .ok ⟨⟨k, rfl, rfl⟩, k + 1, rfl, rfl⟩

theorem takes_refuse (why : Rejection) :
    (takes strict lo hi Failure).rel P (throw (.rejected why)) (throw (.rejected why)) :=
  fun _ => .refused ⟨why, rfl⟩

/-- A part that takes no ids. -/
theorem takes_lift {x : Except ε α} {y : Except ε β} (h : Agree strict P x y) :
    (takes strict lo hi ε).rel P (liftM x) (liftM y) := by
  intro k
  cases h with
  | ok h => exact .ok ⟨h, k, rfl, rfl⟩
  | refused he => exact .refused he
  | fatal he he' => exact .fatal he he'
  | left hs he => exact .left hs he
  | right hs he => exact .right hs he

theorem takes_liftFault {x : Except Fault α} {y : Except Fault β} (h : Agree strict P x y) :
    (takes strict lo hi Failure).rel P (liftM x) (liftM y) :=
  takes_lift h.liftFault

theorem takes_liftSupply {x : Supply Fault α} {y : Supply Fault β}
    (h : (takes strict lo hi Fault).rel P x y) :
    (takes strict lo hi Failure).rel P (liftM x) (liftM y) := by
  intro k
  rw [Supply.outcome_liftM, Supply.outcome_liftM]
  exact (h k).liftFault

end Relator

end TermForest
