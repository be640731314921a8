import TermForest.Fault

/-!
# Supply of node ids

New nodes take their ids from a counter that only goes up. A computation in `Supply` carries the
counter through failure too, so an id handed out before a failure is not handed out again.
-/

namespace TermForest

/-- Computations that may take new ids and may fail with `ε`; the state is the next id. -/
abbrev Supply (ε : Type) : Type → Type := ExceptT ε (StateM NodeId)

namespace Supply

/-- Takes the next id. -/
def take {ε : Type} : Supply ε NodeId :=
  ExceptT.lift (modifyGet fun next => (next, next + 1))

/-- Runs a computation from the given next id; the second part is the next id afterwards. -/
def runFrom {ε α : Type} (x : Supply ε α) (next : NodeId) : Except ε α × NodeId :=
  x.run next

/-- The first id of a supply; 0 is never handed out. -/
def first (seed : NodeId) : NodeId := max seed 1

@[simp] theorem runFrom_pure {ε α : Type} (a : α) (next : NodeId) :
    (pure a : Supply ε α).runFrom next = (.ok a, next) := rfl

@[simp] theorem runFrom_take {ε : Type} (next : NodeId) :
    (take : Supply ε NodeId).runFrom next = (.ok next, next + 1) := rfl

@[simp] theorem runFrom_throw {ε α : Type} (e : ε) (next : NodeId) :
    (throw e : Supply ε α).runFrom next = (.error e, next) := rfl

theorem runFrom_bind {ε α β : Type} (x : Supply ε α) (f : α → Supply ε β) (next : NodeId) :
    (x >>= f).runFrom next =
      match x.runFrom next with
      | (.ok a, next') => (f a).runFrom next'
      | (.error e, next') => (.error e, next') := by
  simp only [runFrom, ExceptT.run, bind, ExceptT.bind, ExceptT.mk, StateT.bind]
  rcases x next with ⟨a | e, next'⟩ <;> rfl

end Supply

/-- A part that can only end in a fault stands inside one that can also be rejected. -/
instance : MonadLift (Supply Fault) (Supply Failure) where
  monadLift x := fun next =>
    match x.runFrom next with
    | (.ok a, next') => (.ok a, next')
    | (.error fault, next') => (.error (.fatal fault), next')

namespace Supply

@[simp] theorem runFrom_liftM {α : Type} (x : Supply Fault α) (next : NodeId) :
    (liftM x : Supply Failure α).runFrom next =
      match x.runFrom next with
      | (.ok a, next') => (.ok a, next')
      | (.error fault, next') => (.error (.fatal fault), next') := rfl

end Supply

end TermForest
