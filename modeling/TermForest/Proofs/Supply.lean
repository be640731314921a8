import TermForest.Forest.Editing
import TermForest.Proofs.Except

/-!
# Triples for supplies of ids

`x.Meets next Q E` says what a computation does from a next id on: it hands out ids upwards, what it
gives satisfies `Q` together with the next id afterwards, and the way in which it fails satisfies
`E`. Each operation gets one such triple; callers put them together with `Meets.bind`.
-/

namespace TermForest

/-- A failure that is a refusal. -/
def Failure.IsRefusal (e : Failure) : Prop := ∃ why, e = .rejected why

namespace Supply

variable {ε ε' α β : Type}

theorem runFrom_bind_eq_ok_iff {x : Supply ε α} {f : α → Supply ε β} {b : β} {next next' : NodeId} :
    (x >>= f).runFrom next = (.ok b, next') ↔
      ∃ a mid, x.runFrom next = (.ok a, mid) ∧ (f a).runFrom mid = (.ok b, next') := by
  rw [runFrom_bind]
  rcases x.runFrom next with ⟨e | a, mid⟩
  · simp
  · simp [and_assoc]

/-- From `next` on, a computation ends well in `Q` or fails in `E`, and takes ids upwards. -/
def Meets (x : Supply ε α) (next : Nat) (Q : α → Nat → Prop) (E : ε → Prop) : Prop :=
  match x.runFrom next with
  | (.ok a, next') => next ≤ next' ∧ Q a next'
  | (.error e, next') => next ≤ next' ∧ E e

theorem liftM_ok {x : Except ε α} {a : α} (h : x = .ok a) :
    (liftM x : Supply ε α) = pure a := by
  subst h
  rfl

theorem liftM_fault_ok {x : Except Fault α} {a : α} (h : x = .ok a) :
    (liftM x : Supply Failure α) = pure a := by
  subst h
  rfl

namespace Meets

variable {x : Supply ε α} {next next' : Nat} {Q Q' : α → Nat → Prop} {E E' : ε → Prop}

/-! ### Reading a triple -/

theorem of_ok (h : x.Meets next Q E) {a : α} (hx : x.runFrom next = (.ok a, next')) :
    next ≤ next' ∧ Q a next' := by
  simpa only [Meets, hx] using h

theorem of_error (h : x.Meets next Q E) {e : ε} (hx : x.runFrom next = (.error e, next')) :
    next ≤ next' ∧ E e := by
  simpa only [Meets, hx] using h

/-- A computation that cannot fail gives a result. -/
theorem exists_ok (h : x.Meets next Q fun _ => False) :
    ∃ a next', x.runFrom next = (.ok a, next') ∧ next ≤ next' ∧ Q a next' := by
  unfold Meets at h
  split at h
  · next a next' hx => exact ⟨a, next', hx, h⟩
  · exact h.2.elim

/-! ### Putting triples together -/

theorem imp (h : x.Meets next Q E) (hQ : ∀ a next', next ≤ next' → Q a next' → Q' a next')
    (hE : ∀ e, E e → E' e) : x.Meets next Q' E' := by
  unfold Meets at h ⊢
  split
  · next a next' hx =>
    rw [hx] at h
    exact ⟨h.1, hQ a next' h.1 h.2⟩
  · next e next' hx =>
    rw [hx] at h
    exact ⟨h.1, hE e h.2⟩

theorem and (h : x.Meets next Q E) (h' : x.Meets next Q' E') :
    x.Meets next (fun a next' => Q a next' ∧ Q' a next') fun e => E e ∧ E' e := by
  unfold Meets at h h' ⊢
  split
  · next a next' hx =>
    rw [hx] at h h'
    exact ⟨h.1, h.2, h'.2⟩
  · next e next' hx =>
    rw [hx] at h h'
    exact ⟨h.1, h.2, h'.2⟩

theorem pure {a : α} (h : Q a next) : (Pure.pure a : Supply ε α).Meets next Q E :=
  ⟨Nat.le_refl _, h⟩

theorem throw {e : ε} (h : E e) : (MonadExcept.throw e : Supply ε α).Meets next Q E :=
  ⟨Nat.le_refl _, h⟩

theorem take {Q : NodeId → Nat → Prop} (h : Q next (next + 1)) :
    (Supply.take : Supply ε NodeId).Meets next Q E :=
  ⟨Nat.le_succ _, h⟩

theorem bind {f : α → Supply ε β} {R : β → Nat → Prop} (hx : x.Meets next Q E)
    (hf : ∀ a next', next ≤ next' → Q a next' → (f a).Meets next' R E) :
    (x >>= f).Meets next R E := by
  unfold Meets at hx ⊢
  rw [runFrom_bind]
  rcases hrun : x.runFrom next with ⟨e | a, next'⟩
  · simpa only [hrun] using hx
  · rw [hrun] at hx
    have h := hf a next' hx.1 hx.2
    unfold Meets at h
    dsimp only
    rcases hy : (f a).runFrom next' with ⟨e | b, next''⟩ <;> rw [hy] at h <;>
      exact ⟨Nat.le_trans hx.1 h.1, h.2⟩

theorem take_bind {f : NodeId → Supply ε β} {R : β → Nat → Prop}
    (h : (f next).Meets (next + 1) R E) : (Supply.take >>= f).Meets next R E :=
  Meets.bind (Q := fun id next' => id = next ∧ next' = next + 1) (take ⟨rfl, rfl⟩) (by
    rintro _ _ - ⟨rfl, rfl⟩
    exact h)

theorem throw_bind {e : ε} {f : α → Supply ε β} {R : β → Nat → Prop} (h : E e) :
    (MonadExcept.throw e >>= f).Meets next R E :=
  ⟨Nat.le_refl _, h⟩

/-- What follows a guard may use that the guard let it through. -/
theorem guard {p : Prop} [Decidable p] {e : ε} {y : Supply ε α} (he : p → E e)
    (hy : ¬p → y.Meets next Q E) :
    (if p then MonadExcept.throw e >>= fun _ : PUnit => y else y).Meets next Q E := by
  split
  · next hp => exact throw_bind (he hp)
  · next hp => exact hy hp

/-! ### Parts that only read -/

theorem lift {y : Except ε α} (hok : ∀ a, y = .ok a → Q a next) (he : ∀ e, y = .error e → E e) :
    (liftM y : Supply ε α).Meets next Q E := by
  cases y with
  | ok a => exact ⟨Nat.le_refl _, hok a rfl⟩
  | error e => exact ⟨Nat.le_refl _, he e rfl⟩

theorem liftFault {y : Except Fault α} {E : Failure → Prop} (hok : ∀ a, y = .ok a → Q a next)
    (he : ∀ e, y = .error e → E (.fatal e)) : (liftM y : Supply Failure α).Meets next Q E := by
  cases y with
  | ok a => exact ⟨Nat.le_refl _, hok a rfl⟩
  | error e => exact ⟨Nat.le_refl _, he e rfl⟩

/-- A part that takes no ids ends as it does by itself. -/
theorem of_ends {y : Except ε α} {Q : α → Prop} (h : Ends y Q E) :
    (liftM y : Supply ε α).Meets next (fun a _ => Q a) E :=
  .lift (fun _ => h.of_ok) fun _ => h.of_error

theorem liftSupply {y : Supply Fault α} {E : Failure → Prop}
    (h : y.Meets next Q fun e => E (.fatal e)) : (liftM y : Supply Failure α).Meets next Q E := by
  unfold Meets at h ⊢
  rw [runFrom_liftM]
  split at h
  · next hy => simpa only [hy] using h
  · next hy => simpa only [hy] using h

end Meets

end Supply

/-! ### Editing -/

namespace Editing

open Supply (Meets)

variable {α β : Type} {F : Forest} {next : Nat}

theorem run_find {id : NodeId} {n : Node} (h : F.get? id = some n) :
    (find id).run F = pure (n, F) := by
  have hfind : F.find id = .ok n := by rw [Forest.find, h]
  show (liftM (F.find id) : Editing Node).run F = _
  rw [hfind]
  rfl

theorem run_liftM_ok {x : Except Fault α} {a : α} (h : x = .ok a) :
    (liftM x : Editing α).run F = pure (a, F) := by
  subst h
  rfl

@[simp] theorem run_insert (n : Node) : (insert n).run F = pure ((), F.insert n) := rfl

@[simp] theorem run_newId : newId.run F = Supply.take >>= fun id => pure (id, F) := rfl

theorem run_attach {child parent : NodeId} {slot : String} {n : Node}
    (h : F.get? child = some n) :
    (attach child parent slot).run F = pure ((), F.insert (n.heldBy parent slot)) := by
  have hattach : F.attach child parent slot = .ok (F.insert (n.heldBy parent slot)) := by
    simp [Forest.attach, Forest.find, h]
  show (do set (← (liftM (F.attach child parent slot) : Editing Forest)) : Editing Unit).run F = _
  rw [hattach]
  rfl

theorem run_fill {parent m : Node} {slot : String} {child : NodeId} (h : F.get? child = some m) :
    (fill parent slot child).run F =
      pure (parent.withSlot slot child, F.insert (m.heldBy parent.id slot)) := by
  rw [fill, StateT.run_bind, run_attach h, pure_bind]
  rfl

theorem meets_lift {x : Except Fault α} {Q : α × Forest → Nat → Prop} {E : Fault → Prop}
    (hok : ∀ a, x = .ok a → Q (a, F) next) (he : ∀ e, x = .error e → E e) :
    ((liftM x : Editing α).run F).Meets next Q E := by
  cases x with
  | ok a => exact ⟨Nat.le_refl _, hok a rfl⟩
  | error e => exact ⟨Nat.le_refl _, he e rfl⟩

/-- A part that only reads either fails or hands over what it reads. -/
theorem meets_liftM_bind {x : Except Fault α} {f : α → Editing β} {Q : β × Forest → Nat → Prop}
    {E : Fault → Prop} (he : ∀ e, x = .error e → E e)
    (hf : ∀ a, x = .ok a → ((f a).run F).Meets next Q E) :
    (((liftM x : Editing α) >>= f).run F).Meets next Q E := by
  cases x with
  | ok a => exact hf a rfl
  | error e => exact .throw (he e rfl)

end Editing

end TermForest
