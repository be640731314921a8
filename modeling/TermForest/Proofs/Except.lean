/-!
# Computations that succeed

When sequences and loops of computations that may fail give a result.
-/

namespace TermForest

variable {ε α β : Type}

@[simp] theorem ok_bind (a : α) (f : α → Except ε β) : (Except.ok a >>= f) = f a := rfl

@[simp] theorem error_bind (e : ε) (f : α → Except ε β) :
    (Except.error e >>= f) = .error e := rfl

theorem bind_eq_ok_iff {x : Except ε α} {f : α → Except ε β} {b : β} :
    x >>= f = .ok b ↔ ∃ a, x = .ok a ∧ f a = .ok b := by
  cases x <;> simp

theorem bind_eq_error_iff {x : Except ε α} {f : α → Except ε β} {e : ε} :
    x >>= f = .error e ↔ x = .error e ∨ ∃ a, x = .ok a ∧ f a = .error e := by
  cases x <;> simp

theorem toOption_eq_some_iff {x : Except ε α} {a : α} : x.toOption = some a ↔ x = .ok a := by
  cases x <;> simp [Except.toOption]

/-- What comes after a computation counts only for the answer it gives. -/
theorem bind_congr_ok {x : Except ε α} {f g : α → Except ε β} (h : ∀ a, x = .ok a → f a = g a) :
    x >>= f = x >>= g := by
  cases x with
  | error e => rfl
  | ok a => exact h a rfl

@[simp] theorem pure_eq_ok (a : α) : (pure a : Except ε α) = .ok a := rfl

@[simp] theorem throw_eq_error (e : ε) : (throw e : Except ε α) = .error e := rfl

theorem return_not_eq_ok_iff {x : Except ε Bool} {b : Bool} :
    (do return !(← x) : Except ε Bool) = .ok b ↔ x = .ok !b := by
  cases x with
  | error e => simp
  | ok a => cases a <;> cases b <;> simp

/-! ### Both ends at once -/

/-- What a computation gives satisfies `Q`, or the way in which it fails satisfies `E`. -/
def Ends (x : Except ε α) (Q : α → Prop) (E : ε → Prop) : Prop :=
  match x with
  | .ok a => Q a
  | .error e => E e

namespace Ends

variable {x : Except ε α} {Q Q' : α → Prop} {E E' : ε → Prop}

theorem pure {a : α} (h : Q a) : Ends (Pure.pure a : Except ε α) Q E := h

theorem of_ok (h : Ends x Q E) {a : α} (hx : x = .ok a) : Q a := by
  subst hx
  exact h

theorem of_error (h : Ends x Q E) {e : ε} (hx : x = .error e) : E e := by
  subst hx
  exact h

theorem imp (h : Ends x Q E) (hQ : ∀ a, Q a → Q' a) (hE : ∀ e, E e → E' e) : Ends x Q' E' := by
  cases x with
  | ok a => exact hQ a h
  | error e => exact hE e h

/-- However it fails. -/
theorem of_forall_ok (h : ∀ a, x = .ok a → Q a) : Ends x Q fun _ => True := by
  cases x with
  | ok a => exact h a rfl
  | error e => exact trivial

/-- What is known of a failure leaves open what is given. -/
theorem self (h : Ends x Q E) : Ends x (fun a => x = .ok a) E := by
  cases x with
  | ok a => exact rfl
  | error e => exact h

theorem bind {f : α → Except ε β} {R : β → Prop} (hx : Ends x Q E) (hf : ∀ a, Q a → Ends (f a) R E) :
    Ends (x >>= f) R E := by
  cases x with
  | ok a => exact hf a hx
  | error e => exact hx

/-- What follows a guard may use that the guard let it through. -/
theorem guard {p : Prop} [Decidable p] {y : Except ε α} {e : ε} (he : p → E e)
    (hy : ¬p → Ends y Q E) :
    Ends (if p then MonadExcept.throw e >>= fun _ : PUnit => y else y) Q E := by
  split
  · next hp => exact he hp
  · next hp => exact hy hp

end Ends

/-! ### Loops -/

/-- In a loop that succeeds every step does. -/
theorem exists_ok_of_foldlM_ok {f : β → α → Except ε β} {as : List α} {b b' : β}
    (h : as.foldlM f b = .ok b') {a : α} (ha : a ∈ as) : ∃ c c', f c a = .ok c' := by
  induction as generalizing b with
  | nil => cases ha
  | cons a' as ih =>
    rw [List.foldlM_cons, bind_eq_ok_iff] at h
    obtain ⟨c, hc, h⟩ := h
    rcases List.mem_cons.1 ha with rfl | ha
    · exact ⟨b, c, hc⟩
    · exact ih h ha

theorem exists_allM_ok {p : α → Except ε Bool} {as : List α}
    (h : ∀ a ∈ as, ∃ b, p a = .ok b) : ∃ b, as.allM p = .ok b := by
  induction as with
  | nil => exact ⟨true, rfl⟩
  | cons a as ih =>
    obtain ⟨b, hb⟩ := h a List.mem_cons_self
    rw [List.allM_cons, hb]
    cases b
    · exact ⟨false, rfl⟩
    · exact ih fun a ha => h a (List.mem_cons_of_mem _ ha)

theorem allM_eq_ok_true {p : α → Except ε Bool} {as : List α} :
    as.allM p = .ok true ↔ ∀ a ∈ as, p a = .ok true := by
  induction as with
  | nil => simp
  | cons a as ih =>
    rw [List.allM_cons, List.forall_mem_cons, ← ih]
    cases p a with
    | error e => simp
    | ok b => cases b <;> simp

theorem exists_allM_ok_iff {p : α → Except ε Bool} {P : α → Prop} {as : List α}
    (h : ∀ a ∈ as, ∃ b, p a = .ok b ∧ (b = true ↔ P a)) :
    ∃ b, as.allM p = .ok b ∧ (b = true ↔ ∀ a ∈ as, P a) := by
  obtain ⟨b, hb⟩ := exists_allM_ok fun a ha => (h a ha).imp fun _ hb => hb.1
  refine ⟨b, hb, ?_⟩
  have hall : as.allM p = .ok true ↔ ∀ a ∈ as, p a = .ok true := allM_eq_ok_true
  rw [hb, Except.ok.injEq] at hall
  refine hall.trans (forall₂_congr fun a ha => ?_)
  obtain ⟨b', hb', hiff⟩ := h a ha
  rw [hb', Except.ok.injEq, hiff]

theorem allM_map_eq_ok {γ : Type} {f : γ → α} {p : α → Except ε Bool} {q : γ → Bool} {cs : List γ}
    (h : ∀ c ∈ cs, p (f c) = .ok (q c)) : (cs.map f).allM p = .ok (cs.all q) := by
  induction cs with
  | nil => rfl
  | cons c cs ih =>
    rw [List.map_cons, List.allM_cons, h c List.mem_cons_self, ok_bind, List.all_cons]
    cases q c
    · rfl
    · exact ih fun c hc => h c (List.mem_cons_of_mem _ hc)

theorem findM?_map_eq_ok {γ : Type} {f : γ → α} {p : α → Except ε Bool} {q : γ → Bool} {cs : List γ}
    (h : ∀ c ∈ cs, p (f c) = .ok (q c)) : (cs.map f).findM? p = .ok ((cs.find? q).map f) := by
  induction cs with
  | nil => rfl
  | cons c cs ih =>
    rw [List.map_cons, List.findM?, h c List.mem_cons_self, ok_bind, List.find?_cons]
    cases q c
    · exact ih fun c hc => h c (List.mem_cons_of_mem _ hc)
    · rfl

theorem findM?_eq_ok_none {p : α → Except ε Bool} {as : List α} (h : ∀ a ∈ as, p a = .ok false) :
    as.findM? p = .ok none := by
  induction as with
  | nil => rfl
  | cons a as ih =>
    rw [List.findM?, h a List.mem_cons_self, ok_bind]
    exact ih fun a' ha => h a' (List.mem_cons_of_mem _ ha)

/-- A search finds nothing if it passes by everything. -/
theorem findM?_eq_ok_none_iff {p : α → Except ε Bool} {as : List α} :
    as.findM? p = .ok none ↔ ∀ a ∈ as, p a = .ok false := by
  refine ⟨fun h => ?_, findM?_eq_ok_none⟩
  induction as with
  | nil => exact List.forall_mem_nil _
  | cons a as ih =>
    rw [List.findM?, bind_eq_ok_iff] at h
    obtain ⟨b, hb, h⟩ := h
    cases b
    · exact List.forall_mem_cons.2 ⟨hb, ih h⟩
    · cases h

/-- A search finds the first that it does not pass by. -/
theorem findM?_eq_ok_some_iff {p : α → Except ε Bool} {as : List α} {a : α} :
    as.findM? p = .ok (some a) ↔ ∃ before after, as = before ++ a :: after ∧
      (∀ b ∈ before, p b = .ok false) ∧ p a = .ok true := by
  constructor
  · intro h
    induction as with
    | nil => cases h
    | cons a' as ih =>
      rw [List.findM?, bind_eq_ok_iff] at h
      obtain ⟨b, hb, h⟩ := h
      cases b
      · obtain ⟨before, after, rfl, hbefore, ha⟩ := ih h
        exact ⟨a' :: before, after, rfl, List.forall_mem_cons.2 ⟨hb, hbefore⟩, ha⟩
      · cases h
        exact ⟨[], as, rfl, List.forall_mem_nil _, hb⟩
  · rintro ⟨before, after, rfl, hbefore, ha⟩
    induction before with
    | nil =>
      rw [List.nil_append, List.findM?, ha]
      rfl
    | cons b before ih =>
      rw [List.forall_mem_cons] at hbefore
      rw [List.cons_append, List.findM?, hbefore.1]
      exact ih hbefore.2

theorem allM_congr {p q : α → Except ε Bool} {as : List α} (h : ∀ a ∈ as, p a = q a) :
    as.allM p = as.allM q := by
  induction as with
  | nil => rfl
  | cons a as ih =>
    rw [List.allM_cons, List.allM_cons, h a List.mem_cons_self,
      ih fun a ha => h a (List.mem_cons_of_mem _ ha)]

theorem findM?_congr {p q : α → Except ε Bool} {as : List α} (h : ∀ a ∈ as, p a = q a) :
    as.findM? p = as.findM? q := by
  induction as with
  | nil => rfl
  | cons a as ih =>
    rw [List.findM?, List.findM?, h a List.mem_cons_self,
      ih fun a ha => h a (List.mem_cons_of_mem _ ha)]

theorem exists_findM?_ok {p : α → Except ε Bool} (as : List α)
    (h : ∀ a ∈ as, ∃ b, p a = .ok b) : ∃ o, as.findM? p = .ok o := by
  induction as with
  | nil => exact ⟨none, rfl⟩
  | cons a as ih =>
    obtain ⟨b, hb⟩ := h a List.mem_cons_self
    rw [List.findM?, hb]
    cases b
    · exact ih fun a ha => h a (List.mem_cons_of_mem _ ha)
    · exact ⟨some a, rfl⟩

theorem mem_of_findM?_eq_some {p : α → Except ε Bool} {as : List α} {a : α}
    (h : as.findM? p = .ok (some a)) : a ∈ as := by
  induction as with
  | nil => cases h
  | cons a' as ih =>
    rw [List.findM?, bind_eq_ok_iff] at h
    obtain ⟨b, -, h⟩ := h
    cases b
    · exact List.mem_cons_of_mem _ (ih h)
    · cases h
      exact List.mem_cons_self

theorem filterM_eq_ok {p : α → Except ε Bool} {q : α → Bool} {as : List α}
    (h : ∀ a ∈ as, p a = .ok (q a)) : as.filterM p = .ok (as.filter q) := by
  have haux : ∀ found, List.filterAuxM p as found = .ok ((as.filter q).reverse ++ found) := by
    induction as with
    | nil => exact fun found => rfl
    | cons a as ih =>
      intro found
      rw [List.filterAuxM, h a List.mem_cons_self, ok_bind,
        ih fun a' ha' => h a' (List.mem_cons_of_mem _ ha')]
      cases hq : q a <;> simp [hq]
  rw [List.filterM, haux]
  simp

theorem subset_of_filterM_eq_ok {p : α → Except ε Bool} {as bs : List α}
    (h : as.filterM p = .ok bs) : bs ⊆ as := by
  have haux : ∀ (as found bs : List α), List.filterAuxM p as found = .ok bs →
      ∀ b ∈ bs, b ∈ as ∨ b ∈ found := by
    intro as
    induction as with
    | nil =>
      intro found bs h b hb
      cases h
      exact .inr hb
    | cons a as ih =>
      intro found bs h b hb
      rw [List.filterAuxM, bind_eq_ok_iff] at h
      obtain ⟨keep, -, h⟩ := h
      have hmem := ih _ bs h b hb
      cases keep <;> grind
  intro b hb
  rw [List.filterM, bind_eq_ok_iff] at h
  obtain ⟨found, hfound, h⟩ := h
  cases h
  simpa using haux as [] found hfound b (List.mem_reverse.1 hb)

end TermForest
