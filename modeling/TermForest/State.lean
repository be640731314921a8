import TermForest.Forest.Basic

/-!
# Game states

A state is a forest whose roots lie in four areas: on the board, in the toolbox, among the
definitions, or among the goals. It also says how the level stands and what the last step changed.
-/

namespace TermForest

/-- How a level stands. -/
inductive Mode where
  | title
  | gameplay
  | victory
  | defeat
  deriving DecidableEq, Repr, Inhabited

namespace Mode

/-- Every mode, once. -/
def all : List Mode := [.title, .gameplay, .victory, .defeat]

/-- The name of a mode. -/
def name : Mode → String
  | .title => "Title"
  | .gameplay => "Gameplay"
  | .victory => "Victory"
  | .defeat => "Defeat"

/-- The mode of a name. -/
def ofName? (s : String) : Option Mode := all.find? (·.name = s)

end Mode

/-- One state of a game. -/
structure State where
  nodes : Forest
  /-- Roots the player works on. -/
  board : List NodeId
  /-- Roots the player may take. -/
  toolbox : List NodeId
  /-- Roots of the definitions; they are locked. -/
  defs : List NodeId
  /-- Roots the board has to come to. -/
  goal : List NodeId
  /-- The position of the level in its set. -/
  level : Nat
  mode : Mode
  /-- Ids that the last step brought in. -/
  added : List NodeId
  /-- Ids that the last step dropped. -/
  removed : List NodeId
  deriving DecidableEq

namespace State

/-- The `define` node of a name; of several the one whose root stands first counts. -/
def definition? (s : State) (name : String) : Option Node :=
  (s.defs.filterMap s.nodes.get?).find? fun n => n.kind = .define ∧ n.name? = some name

/-- The names that have a definition. -/
def definedNames (s : State) : List String :=
  (s.defs.filterMap s.nodes.get?).filterMap Node.name?

/-- The same state before its next change: nothing is added or removed yet. -/
def settled (s : State) : State :=
  { s with added := [], removed := [] }

/-- Equality up to the order of the slots of each node. -/
def sameContent (s t : State) : Bool :=
  s.nodes.sameContent t.nodes && { s with nodes := t.nodes } == t

theorem mem_definedNames {s : State} {name : String} {n : Node}
    (h : s.definition? name = some n) : name ∈ s.definedNames := by
  have hn := List.find?_some h
  simp only [decide_eq_true_eq] at hn
  exact List.mem_filterMap.2 ⟨n, List.mem_of_find?_eq_some h, hn.2⟩

end State

end TermForest
