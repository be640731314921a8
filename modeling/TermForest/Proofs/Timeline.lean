import TermForest.Proofs.Supply
import TermForest.Session

/-!
# What holds of every state of a timeline

A property of states that outlives the ids handed out later holds of all states of a timeline after an
action if it held of them before and the action gives no other states.
-/

namespace TermForest

open Supply (Meets)

namespace Timeline

variable {σ α : Type} {t : Timeline σ} {P Q : σ → Prop}

/-- Going back forgets the error, and leads to the newest past snapshot if there is one. -/
theorem undo_cases (t : Timeline σ) : t.undo = { t with error := none } ∨
    ∃ previous past, t.past = previous :: past ∧
      t.undo =
        { t with present := previous, past, future := t.present :: t.future, error := none } := by
  unfold undo
  split
  · exact .inl rfl
  · next previous past hpast => exact .inr ⟨previous, past, hpast, rfl⟩

/-- Going forward forgets the error, and leads to the next future snapshot if there is one. -/
theorem redo_cases (limit : Nat) (t : Timeline σ) : t.redo limit = { t with error := none } ∨
    ∃ following future, t.future = following :: future ∧
      t.redo limit = { t with
        present := following
        past := (t.present :: t.past).take limit
        future
        error := none } := by
  unfold redo
  split
  · exact .inl rfl
  · next following future hfuture => exact .inr ⟨following, future, hfuture, rfl⟩

/-- The present state and all past and future ones satisfy `P`. -/
structure All (P : σ → Prop) (t : Timeline σ) : Prop where
  present : P t.present.state
  past : ∀ x ∈ t.past, P x.state
  future : ∀ x ∈ t.future, P x.state

theorem All.imp (h : t.All P) (hPQ : ∀ s, P s → Q s) : t.All Q :=
  ⟨hPQ _ h.present, fun x hx => hPQ _ (h.past x hx), fun x hx => hPQ _ (h.future x hx)⟩

theorem all_startingAt {stamp : Nat} {state : σ} (h : P state) : (startingAt stamp state).All P :=
  ⟨h, nofun, nofun⟩

theorem All.withError (h : t.All P) (error : Option Rejection) : { t with error }.All P :=
  ⟨h.present, h.past, h.future⟩

theorem All.undo (h : t.All P) : t.undo.All P := by
  obtain hundo | ⟨previous, past, hpast, hundo⟩ := t.undo_cases
  · exact hundo ▸ h.withError none
  · have hp := h.past
    rw [hpast, List.forall_mem_cons] at hp
    exact hundo ▸ ⟨hp.1, hp.2, List.forall_mem_cons.2 ⟨h.present, h.future⟩⟩

theorem All.take_cons (h : t.All P) (limit : Nat) :
    ∀ x ∈ (t.present :: t.past).take limit, P x.state := by
  intro x hx
  rcases List.mem_cons.1 (List.mem_of_mem_take hx) with rfl | hx
  · exact h.present
  · exact h.past x hx

theorem All.redo (h : t.All P) (limit : Nat) : (t.redo limit).All P := by
  obtain hredo | ⟨following, future, hfuture, hredo⟩ := t.redo_cases limit
  · exact hredo ▸ h.withError none
  · have hf := h.future
    rw [hfuture, List.forall_mem_cons] at hf
    exact hredo ▸ ⟨hf.1, h.take_cons limit, hf.2⟩

theorem All.push (h : t.All P) (limit : Nat) {state : σ} (hs : P state) :
    (t.push limit state).All P :=
  ⟨hs, h.take_cons limit, nofun⟩

theorem All.replace (h : t.All P) {state : σ} (hs : P state) : (t.replace state).All P :=
  ⟨hs, h.past, h.future⟩

/-- An action that gives only states with the property keeps it on the timeline. -/
theorem All.meets_advance {P : Nat → σ → Prop} (hmono : ∀ m n s, m ≤ n → P m s → P n s)
    {d : Dynamics σ α} {action : α} {next : Nat} {E : Fault → Prop} (limit : Nat)
    (h : t.All (P next))
    (hinitial : ∀ level, d.steering? action = some (.startLevel level) →
      (d.initial level).Meets next (fun s next' => P next' s) E)
    (hchange : d.steering? action = none →
      (d.change t.present action).Meets next (fun o next' => ∀ s, o = some s → P next' s)
        fun e => ∀ fault, e = .fatal fault → E fault) :
    (t.advance d limit action).Meets next (fun t' next' => t'.All (P next')) E := by
  unfold advance
  split
  · next c hc =>
    cases c with
    | startLevel level =>
      exact (hinitial level hc).bind fun s _ _ hs => .pure (all_startingAt hs)
    | undo => exact .pure h.undo
    | redo => exact .pure (h.redo limit)
    | clearError => exact .pure (h.withError none)
  · next hc =>
    have hrun := hchange hc
    unfold Meets at hrun ⊢
    simp only [Supply.runFrom, ExceptT.run] at hrun ⊢
    rcases hr : d.change t.present action next with ⟨(why | fault) | (_ | state), next'⟩
    · rw [hr] at hrun
      exact ⟨hrun.1, (h.imp fun s hs => hmono _ _ s hrun.1 hs).withError (some why)⟩
    · rw [hr] at hrun
      exact ⟨hrun.1, hrun.2 fault rfl⟩
    · rw [hr] at hrun
      exact ⟨hrun.1, h.imp fun s hs => hmono _ _ s hrun.1 hs⟩
    · rw [hr] at hrun
      have ht := h.imp fun s hs => hmono _ _ s hrun.1 hs
      refine ⟨hrun.1, ?_⟩
      split
      · exact ht.push limit (hrun.2 state rfl)
      · exact ht.replace (hrun.2 state rfl)

end Timeline

namespace Session

variable {σ α : Type} {s : Session σ α}

@[simp] theorem dynamics_perform (s : Session σ α) (action : α) :
    (s.perform action).1.dynamics = s.dynamics := by
  unfold perform
  split <;> rfl

@[simp] theorem limit_perform (s : Session σ α) (action : α) :
    (s.perform action).1.limit = s.limit := by
  unfold perform
  split <;> rfl

/-- What an action that is not left to the timeline makes of a session. -/
theorem perform_eq {action : α} (h : s.dynamics.steering? action = none) :
    s.perform action =
      match (s.dynamics.change s.timeline.present action).runFrom s.next with
      | (.error (.rejected why), next) =>
        ({ s with timeline := { s.timeline with error := some why }, next }, none)
      | (.error (.fatal fault), next) => ({ s with next }, some fault)
      | (.ok none, next) => ({ s with next }, none)
      | (.ok (some state), next) =>
        ({ s with
            timeline := if s.dynamics.records action then s.timeline.push s.limit state
              else s.timeline.replace state
            next }, none) := by
  unfold perform Timeline.advance
  rw [h]
  simp only [Supply.runFrom, ExceptT.run]
  rcases s.dynamics.change s.timeline.present action s.next with
    ⟨(why | fault) | (_ | state), next⟩ <;> rfl

/-- An action of a session that gives only states with the property keeps it on the timeline, and
uses ids upwards. -/
theorem all_perform {P : Nat → σ → Prop} (hmono : ∀ m n s, m ≤ n → P m s → P n s) {action : α}
    {E : Fault → Prop} (h : s.timeline.All (P s.next))
    (hinitial : ∀ level, s.dynamics.steering? action = some (.startLevel level) →
      (s.dynamics.initial level).Meets s.next (fun s next' => P next' s) E)
    (hchange : s.dynamics.steering? action = none →
      (s.dynamics.change s.timeline.present action).Meets s.next
        (fun o next' => ∀ s, o = some s → P next' s) fun e => ∀ fault, e = .fatal fault → E fault) :
    (s.perform action).1.timeline.All (P (s.perform action).1.next) ∧
      s.next ≤ (s.perform action).1.next ∧ ∀ fault, (s.perform action).2 = some fault → E fault := by
  have hmeets := h.meets_advance hmono s.limit hinitial hchange
  unfold Session.perform
  split
  · next hrun =>
    obtain ⟨hle, hall⟩ := hmeets.of_ok hrun
    exact ⟨hall, hle, nofun⟩
  · next hrun =>
    obtain ⟨hle, he⟩ := hmeets.of_error hrun
    exact ⟨h.imp fun s hs => hmono _ _ s hle hs, hle, fun _ hf => Option.some.inj hf ▸ he⟩

end Session

end TermForest
