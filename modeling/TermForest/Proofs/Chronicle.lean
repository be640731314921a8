import Mathlib.Data.List.Nodup
import TermForest.Proofs.Timeline

/-!
# Chronicles

A chronicle is the plain reading of a timeline: one list of snapshots, oldest first, with a cursor
at the present one. Undoing and redoing move the cursor; a new state is written behind it.

The main result is that a session which starts at a level and carries out any actions is such a
chronicle throughout, and that what can be undone and redone never exceeds its limit.
-/

namespace TermForest

/-- Snapshots in the order of time, and the position of the present one. -/
structure Chronicle (σ : Type) where
  /-- The snapshots, oldest first. -/
  entries : List (Snapshot σ)
  /-- The position of the present snapshot. -/
  cursor : Nat
  /-- Why the last change was refused. -/
  error : Option Rejection
  /-- The stamp of the next snapshot. -/
  nextStamp : Nat

namespace Chronicle

variable {σ α : Type}

/-- The chronicle of one state, with the given stamp. -/
def startingAt (stamp : Nat) (state : σ) : Chronicle σ :=
  ⟨[⟨stamp, state⟩], 0, none, stamp + 1⟩

/-- The snapshot at the cursor. -/
def present? (c : Chronicle σ) : Option (Snapshot σ) := c.entries[c.cursor]?

/-- Moves the cursor back one place; at the oldest entry it stays. -/
def back (c : Chronicle σ) : Chronicle σ :=
  { c with cursor := c.cursor - 1, error := none }

/-- Moves the cursor forward one place; at the latest entry it stays. -/
def forward (c : Chronicle σ) : Chronicle σ :=
  { c with cursor := min (c.cursor + 1) (c.entries.length - 1), error := none }

/-- Writes a new entry behind the cursor in place of all that stands there, and moves onto it. The
oldest entry is dropped when more than `limit` entries precede the cursor. -/
def write (limit : Nat) (c : Chronicle σ) (state : σ) : Chronicle σ :=
  let entries := c.entries.take (c.cursor + 1) ++ [⟨c.nextStamp, state⟩]
  if limit < c.cursor + 1 then
    { c with entries := entries.tail, nextStamp := c.nextStamp + 1 }
  else
    { c with entries, cursor := c.cursor + 1, nextStamp := c.nextStamp + 1 }

/-- Writes a new entry over the one at the cursor. -/
def overwrite (c : Chronicle σ) (state : σ) : Chronicle σ :=
  { c with
    entries := c.entries.set c.cursor ⟨c.nextStamp, state⟩
    nextStamp := c.nextStamp + 1 }

/-- The chronicle after an action. -/
def advance (d : Dynamics σ α) (limit : Nat) (c : Chronicle σ) (action : α) :
    Supply Fault (Chronicle σ) :=
  match d.steering? action, c.present? with
  | some (.startLevel level), _ => do
    let state ← d.initial level
    return startingAt c.nextStamp state
  | some .undo, _ => return c.back
  | some .redo, _ => return c.forward
  | some .clearError, _ => return { c with error := none }
  | none, none => return c
  | none, some present => fun next =>
    match (d.change present action).runFrom next with
    | (.error (.rejected why), next) => (.ok { c with error := some why }, next)
    | (.error (.fatal fault), next) => (.error fault, next)
    | (.ok none, next) => (.ok c, next)
    | (.ok (some state), next) =>
      (.ok (if d.records action then c.write limit state else c.overwrite state), next)

/-- Carries out an action. After a fault the chronicle is as before, but ids stay used. -/
def perform (d : Dynamics σ α) (limit : Nat) (c : Chronicle σ × NodeId) (action : α) :
    Chronicle σ × NodeId :=
  match (c.1.advance d limit action).runFrom c.2 with
  | (.ok c', next) => (c', next)
  | (.error _, next) => (c.1, next)

/-! ### Stamps -/

/-- The entries have different stamps, all of them handed out before. -/
structure Stamped (c : Chronicle σ) : Prop where
  nodup : (c.entries.map Snapshot.stamp).Nodup
  lt_nextStamp : ∀ s ∈ c.entries, s.stamp < c.nextStamp

theorem stamped_startingAt (stamp : Nat) (state : σ) : (startingAt stamp state).Stamped := by
  constructor <;> simp [startingAt]

theorem Stamped.back {c : Chronicle σ} (h : c.Stamped) : c.back.Stamped :=
  ⟨h.nodup, h.lt_nextStamp⟩

theorem Stamped.forward {c : Chronicle σ} (h : c.Stamped) : c.forward.Stamped :=
  ⟨h.nodup, h.lt_nextStamp⟩

/-- Some of the entries and a new one behind them have different stamps. -/
theorem Stamped.append {c c' : Chronicle σ} (h : c.Stamped) (state : σ)
    (hs : c'.entries.Sublist (c.entries ++ [⟨c.nextStamp, state⟩]))
    (hn : c'.nextStamp = c.nextStamp + 1) : c'.Stamped := by
  have hfresh : c.nextStamp ∉ c.entries.map Snapshot.stamp := by
    intro hmem
    obtain ⟨s, hs, he⟩ := List.mem_map.1 hmem
    exact absurd (h.lt_nextStamp s hs) (by omega)
  constructor
  · refine List.Nodup.sublist (hs.map _) ?_
    rw [List.map_append, List.map_singleton, List.nodup_append]
    refine ⟨h.nodup, by simp, fun a ha b hb => ?_⟩
    rw [List.mem_singleton.1 hb]
    rintro rfl
    exact hfresh ha
  · intro s hmem
    rw [hn]
    rcases List.mem_append.1 (hs.subset hmem) with hold | hnew
    · exact Nat.lt_succ_of_lt (h.lt_nextStamp s hold)
    · rw [List.mem_singleton.1 hnew]
      exact Nat.lt_succ_self _

theorem Stamped.write {c : Chronicle σ} (h : c.Stamped) (limit : Nat) (state : σ) :
    (c.write limit state).Stamped := by
  have hs : (c.entries.take (c.cursor + 1) ++ [(⟨c.nextStamp, state⟩ : Snapshot σ)]).Sublist
      (c.entries ++ [⟨c.nextStamp, state⟩]) :=
    (List.take_sublist ..).append (List.Sublist.refl _)
  unfold Chronicle.write
  split
  · exact h.append state ((List.tail_sublist _).trans hs) rfl
  · exact h.append state hs rfl

theorem Stamped.overwrite {c : Chronicle σ} (h : c.Stamped) (state : σ) :
    (c.overwrite state).Stamped := by
  constructor
  · simp only [Chronicle.overwrite, List.map_set]
    refine h.nodup.set fun hmem => ?_
    obtain ⟨s, hs, he⟩ := List.mem_map.1 hmem
    exact absurd (h.lt_nextStamp s hs) (by omega)
  · intro s hs
    rcases List.mem_or_eq_of_mem_set hs with hold | rfl
    · exact Nat.lt_succ_of_lt (h.lt_nextStamp s hold)
    · exact Nat.lt_succ_self _

end Chronicle

/-! ### The chronicle of a timeline -/

namespace Timeline

variable {σ α : Type}

/-- The past, oldest first, then the present, then the future. -/
def chronicle (t : Timeline σ) : Chronicle σ where
  entries := t.past.reverse ++ t.present :: t.future
  cursor := t.past.length
  error := t.error
  nextStamp := t.nextStamp

/-- What can be undone and what can be redone stay together within the limit. -/
def Bounded (limit : Nat) (t : Timeline σ) : Prop :=
  t.past.length + t.future.length ≤ limit

@[simp] theorem chronicle_startingAt (stamp : Nat) (state : σ) :
    (startingAt stamp state).chronicle = Chronicle.startingAt stamp state := rfl

@[simp] theorem present?_chronicle (t : Timeline σ) : t.chronicle.present? = some t.present := by
  simp [chronicle, Chronicle.present?]

@[simp] theorem chronicle_undo (t : Timeline σ) : t.undo.chronicle = t.chronicle.back := by
  obtain ⟨present, past, future, error, nextStamp⟩ := t
  cases past with
  | nil => rfl
  | cons previous past => simp [undo, chronicle, Chronicle.back]

/-- The bound leaves room for the present in the past, so redoing drops nothing. -/
theorem Bounded.take_eq_self {limit : Nat} {t : Timeline σ} (h : t.Bounded limit)
    (hf : t.future ≠ []) : (t.present :: t.past).take limit = t.present :: t.past := by
  have := List.length_pos_iff.2 hf
  apply List.take_of_length_le
  rw [List.length_cons]
  unfold Bounded at h
  omega

theorem chronicle_redo {limit : Nat} {t : Timeline σ} (h : t.Bounded limit) :
    (t.redo limit).chronicle = t.chronicle.forward := by
  cases hf : t.future with
  | nil => simp [redo, hf, chronicle, Chronicle.forward]
  | cons following future =>
    have hp := h.take_eq_self (by simp [hf])
    simp [redo, hf, hp, chronicle, Chronicle.forward]

/-- A full past loses its oldest entry when the present joins it. -/
theorem reverse_take_cons {β : Type} (a : β) (past after : List β) (h : past ≠ []) :
    ((a :: past).take past.length).reverse ++ after =
      (past.reverse ++ a :: after).tail := by
  obtain ⟨m, hm⟩ : ∃ m, past.length = m + 1 :=
    Nat.exists_eq_add_one.2 (List.length_pos_iff.2 h)
  have htake : past.take m = past.dropLast := by
    rw [List.dropLast_eq_take, hm, Nat.add_sub_cancel]
  rw [hm, List.take_succ_cons, htake, List.reverse_cons, List.append_assoc,
    List.singleton_append, List.tail_append_of_ne_nil (by simpa using h), List.tail_reverse]

theorem chronicle_push {limit : Nat} {t : Timeline σ} (hl : 0 < limit) (h : t.Bounded limit)
    (state : σ) : (t.push limit state).chronicle = t.chronicle.write limit state := by
  obtain ⟨present, past, future, error, nextStamp⟩ := t
  have hpast : past.length ≤ limit := Nat.le_of_add_right_le h
  have hk : (past.reverse ++ present :: future).take (past.length + 1) =
      past.reverse ++ [present] := by
    rw [List.take_append, List.take_of_length_le (by simp)]
    simp
  by_cases hfull : limit < past.length + 1
  · obtain rfl : limit = past.length := by omega
    have hr := reverse_take_cons present past [⟨nextStamp, state⟩] (List.length_pos_iff.1 hl)
    simp only [push, chronicle, Chronicle.write, hk, hr]
    simp
  · have htake : (present :: past).take limit = present :: past :=
      List.take_of_length_le (by rw [List.length_cons]; omega)
    simp [push, chronicle, Chronicle.write, hk, htake, hfull]

@[simp] theorem chronicle_replace (t : Timeline σ) (state : σ) :
    (t.replace state).chronicle = t.chronicle.overwrite state := by
  simp [replace, chronicle, Chronicle.overwrite]

/-! ### One action -/

/-- What an action can make of a timeline. -/
theorem advance_cases {d : Dynamics σ α} {limit : Nat} {t t' : Timeline σ} {action : α}
    {next next' : NodeId}
    (h : (t.advance d limit action).runFrom next = (.ok t', next')) :
    (∃ error, t' = { t with error }) ∨ t' = t.undo ∨ t' = t.redo limit ∨
      (∃ state, t' = startingAt t.nextStamp state) ∨
      (∃ state, t' = t.push limit state) ∨ ∃ state, t' = t.replace state := by
  unfold advance at h
  split at h
  · next c _ =>
    cases c with
    | startLevel level =>
      simp only [steer, Supply.runFrom_bind] at h
      split at h
      · cases h
        exact .inr (.inr (.inr (.inl ⟨_, rfl⟩)))
      · cases h
    | undo =>
      cases h
      exact .inr (.inl rfl)
    | redo =>
      cases h
      exact .inr (.inr (.inl rfl))
    | clearError =>
      cases h
      exact .inl ⟨none, rfl⟩
  · simp only [Supply.runFrom, ExceptT.run] at h
    split at h
    · cases h
      exact .inl ⟨_, rfl⟩
    · cases h
    · cases h
      exact .inl ⟨_, rfl⟩
    · cases h
      split
      · exact .inr (.inr (.inr (.inr (.inl ⟨_, rfl⟩))))
      · exact .inr (.inr (.inr (.inr (.inr ⟨_, rfl⟩))))

theorem Bounded.advance {d : Dynamics σ α} {limit : Nat} {t t' : Timeline σ} {action : α}
    {next next' : NodeId} (hb : t.Bounded limit)
    (h : (t.advance d limit action).runFrom next = (.ok t', next')) : t'.Bounded limit := by
  obtain ⟨_, rfl⟩ | rfl | rfl | ⟨_, rfl⟩ | ⟨_, rfl⟩ | ⟨_, rfl⟩ := advance_cases h
  · exact hb
  · obtain hundo | ⟨previous, past, hpast, hundo⟩ := t.undo_cases <;> rw [hundo]
    · exact hb
    · rw [Bounded, hpast, List.length_cons] at hb
      show past.length + (t.present :: t.future).length ≤ limit
      rw [List.length_cons]
      omega
  · obtain hredo | ⟨following, future, hfuture, hredo⟩ := t.redo_cases limit <;> rw [hredo]
    · exact hb
    · rw [Bounded, hfuture, List.length_cons] at hb
      show ((t.present :: t.past).take limit).length + future.length ≤ limit
      rw [List.length_take, List.length_cons]
      omega
  · simp [Bounded, startingAt]
  · exact List.length_take_le ..
  · exact hb

/-- Carrying out an action on a timeline and on its chronicle is the same. -/
theorem runFrom_advance_chronicle (d : Dynamics σ α) {limit : Nat} {t : Timeline σ}
    (hl : 0 < limit) (hb : t.Bounded limit) (action : α) (next : NodeId) :
    (t.chronicle.advance d limit action).runFrom next =
      Prod.map (Except.map chronicle) id ((t.advance d limit action).runFrom next) := by
  unfold Timeline.advance Chronicle.advance
  rw [present?_chronicle]
  cases d.steering? action with
  | some c =>
    cases c with
    | startLevel level =>
      simp only [steer, Supply.runFrom_bind]
      rcases (d.initial level).runFrom next with ⟨_ | state, _⟩ <;> rfl
    | undo => simp [steer, Except.map]
    | redo => simp [steer, Except.map, chronicle_redo hb]
    | clearError => rfl
  | none =>
    simp only [Supply.runFrom, ExceptT.run]
    rcases d.change t.present action next with ⟨(why | fault) | (_ | state), _⟩
    · rfl
    · rfl
    · rfl
    · by_cases hr : d.records action <;> simp [hr, Except.map, chronicle_push hl hb]

theorem stamped_advance {d : Dynamics σ α} {limit : Nat} {t t' : Timeline σ} {action : α}
    {next next' : NodeId} (hl : 0 < limit) (hb : t.Bounded limit) (hs : t.chronicle.Stamped)
    (h : (t.advance d limit action).runFrom next = (.ok t', next')) : t'.chronicle.Stamped := by
  obtain ⟨_, rfl⟩ | rfl | rfl | ⟨_, rfl⟩ | ⟨state, rfl⟩ | ⟨state, rfl⟩ := advance_cases h
  · exact ⟨hs.nodup, hs.lt_nextStamp⟩
  · rw [chronicle_undo]
    exact hs.back
  · rw [chronicle_redo hb]
    exact hs.forward
  · exact Chronicle.stamped_startingAt ..
  · rw [chronicle_push hl hb]
    exact hs.write limit state
  · rw [chronicle_replace]
    exact hs.overwrite state

end Timeline

/-! ### Runs of sessions -/

namespace Session

variable {σ α : Type}

/-- Carries out actions one after the other. -/
def performAll (s : Session σ α) (actions : List α) : Session σ α :=
  actions.foldl (fun s action => (s.perform action).1) s

/-- The chronicle of the timeline of a session, and its next id. -/
def chronicle (s : Session σ α) : Chronicle σ × NodeId := (s.timeline.chronicle, s.next)

/-- What a session keeps from action to action: a positive limit, room within it, and stamps that
tell its snapshots apart. -/
structure Orderly (s : Session σ α) : Prop where
  limit_pos : 0 < s.limit
  bounded : s.timeline.Bounded s.limit
  stamped : s.timeline.chronicle.Stamped

theorem Orderly.perform {s : Session σ α} (h : s.Orderly) (action : α) :
    (s.perform action).1.Orderly := by
  unfold Session.perform
  split
  · next t next ht =>
    exact ⟨h.limit_pos, h.bounded.advance ht,
      Timeline.stamped_advance h.limit_pos h.bounded h.stamped ht⟩
  · exact ⟨h.limit_pos, h.bounded, h.stamped⟩

theorem chronicle_perform {s : Session σ α} (h : s.Orderly) (action : α) :
    (s.perform action).1.chronicle =
      Chronicle.perform s.dynamics s.limit s.chronicle action := by
  simp only [Session.perform, Chronicle.perform, chronicle,
    Timeline.runFrom_advance_chronicle s.dynamics h.limit_pos h.bounded]
  rcases (s.timeline.advance s.dynamics s.limit action).runFrom s.next with ⟨_ | t, next⟩ <;> rfl

/-- A session that starts is in order, and its chronicle holds the starting state alone. -/
theorem of_start {d : Dynamics σ α} {level limit : Nat} {next : NodeId} {s : Session σ α}
    (h : start d level next limit = .ok s) :
    s.dynamics = d ∧ s.limit = limit ∧ s.Orderly ∧
      ∃ state, (d.initial level).runFrom next = (.ok state, s.next) ∧
        s.timeline = .start state := by
  unfold start at h
  split at h
  · cases h
  · next hl =>
    split at h
    · next state next' hi =>
      cases h
      refine ⟨rfl, rfl, ⟨Nat.pos_of_ne_zero hl, ?_, ?_⟩, state, hi, rfl⟩
      · simp [Timeline.Bounded, Timeline.start, Timeline.startingAt]
      · exact Chronicle.stamped_startingAt ..
    · cases h

/-- Along a run a session stays in order, with its dynamics and its limit, and carries out on its
chronicle what it carries out itself. -/
theorem performAll_spec {s : Session σ α} (h : s.Orderly) (actions : List α) :
    (s.performAll actions).Orderly ∧ (s.performAll actions).limit = s.limit ∧
      (s.performAll actions).chronicle =
        actions.foldl (Chronicle.perform s.dynamics s.limit) s.chronicle := by
  induction actions generalizing s with
  | nil => exact ⟨h, rfl, rfl⟩
  | cons action actions ih =>
    obtain ⟨ho, hl, hc⟩ := ih (h.perform action)
    refine ⟨ho, hl.trans (limit_perform s action), hc.trans ?_⟩
    rw [chronicle_perform h, limit_perform, dynamics_perform]
    rfl

/-- A session that starts at a level is, after any actions, the chronicle that starts with the
state of the level and carries out the same actions. Its snapshots differ in their stamps, past and
future together stay within the limit, and so redoing keeps the whole past. -/
theorem performAll_refines_chronicle {d : Dynamics σ α} {level limit : Nat} {next : NodeId}
    {s : Session σ α} (h : start d level next limit = .ok s) (actions : List α) :
    (∃ state next', (d.initial level).runFrom next = (.ok state, next') ∧
      (s.performAll actions).chronicle =
        actions.foldl (Chronicle.perform d limit) (.startingAt 0 state, next')) ∧
    (s.performAll actions).timeline.chronicle.Stamped ∧
    (s.performAll actions).timeline.past.length +
      (s.performAll actions).timeline.future.length ≤ limit ∧
    ((s.performAll actions).timeline.future ≠ [] →
      ((s.performAll actions).timeline.redo limit).past =
        (s.performAll actions).timeline.present :: (s.performAll actions).timeline.past) := by
  obtain ⟨rfl, rfl, ho, state, hi, ht⟩ := of_start h
  obtain ⟨ho', hl, hc⟩ := performAll_spec ho actions
  have hb : (s.performAll actions).timeline.Bounded s.limit := hl ▸ ho'.bounded
  refine ⟨⟨state, s.next, hi, ?_⟩, ho'.stamped, hb, fun hf => ?_⟩
  · rw [hc, chronicle, ht]
    rfl
  · have htake := hb.take_eq_self hf
    cases hfuture : (s.performAll actions).timeline.future with
    | nil => exact absurd hfuture hf
    | cons following future => simp [Timeline.redo, hfuture, htake]

/-- A counter whose dynamics refuse negative sums. The action 0 changes nothing. -/
def counting : Dynamics Int (Int ⊕ Steering) where
  initial level := return level
  change s
    | .inl n =>
      if n = 0 then return none
      else if s.state + n < 0 then throw (.rejected (.notOnBoard 0))
      else return some (s.state + n)
    | .inr _ => return none
  steering? := Sum.getRight?
  records a := a ≠ .inl 1

theorem counting_refines_chronicle :
    start counting 5 1 2 = .ok ⟨counting, .start 5, 1, 2⟩ ∧
    (performAll ⟨counting, .start 5, 1, 2⟩
        [.inl 2, .inl 3, .inr .undo, .inl 1, .inl (-9), .inr .redo]).chronicle =
      [.inl 2, .inl 3, .inr .undo, .inl 1, .inl (-9), .inr .redo].foldl
        (Chronicle.perform counting 2) (.startingAt 0 5, 1) := by
  have hs : start counting 5 1 2 = .ok ⟨counting, .start 5, 1, 2⟩ := rfl
  refine ⟨hs, ?_⟩
  obtain ⟨⟨state, next, hi, hc⟩, -⟩ := performAll_refines_chronicle hs
    [.inl 2, .inl 3, .inr .undo, .inl 1, .inl (-9), .inr .redo]
  cases hi
  exact hc

end Session

end TermForest
