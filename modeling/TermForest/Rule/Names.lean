import Std.Data.ExtTreeSet
import TermForest.Forest.Tree

/-!
# Names in terms

Which variable names a term uses, which of them it leaves free, and how to find a name it does
not use.
-/

namespace TermForest

/-- The names that binders and variables below an id carry. -/
def Forest.variableNames (F : Forest) (id : NodeId) : Except Fault (List String) := do
  let nodes ← F.findAll id fun n => n.kind = .binder ∨ n.kind = .var
  return nodes.filterMap Node.name?

/-! ### Unused names -/

/-- The names `x`, `x1`, `x2` and so on. -/
def candidateName : Nat → String
  | 0 => "x"
  | n + 1 => s!"x{n + 1}"

/-- The first candidate that is not taken. One more candidate than there are taken names is
enough. -/
def nameOutside (taken : List String) : String :=
  let used := Std.ExtTreeSet.ofList taken
  candidateName (((List.range (taken.length + 1)).find? (candidateName · ∉ used)).getD 0)

/-! ### Free names -/

/-- Puts the variable names of a tree that are bound neither within it nor around it in front of
those that were found before. -/
def Tree.freeOnto (bound : List String) : Tree → List String → Except Fault (List String)
  | .absent id, _ => .error (.dangling id)
  | .endless id, _ => .error (.broken (.endlessSlots id))
  | .node root below, found =>
    match root.kind with
    | .var => do
      let name ← root.needText "name"
      return if name ∈ bound then found else name :: found
    | .lambda => do
      let arg ← root.needSlot "arg"
      match (below arg).root? with
      | none => .error (.dangling arg)
      | some binder => do
        let body ← root.needSlot "body"
        (below body).freeOnto (binder.name?.toList ++ bound) found
    | _ =>
      root.slots.children.foldlM (fun found child => (below child).freeOnto bound found) found

/-- The variable names below an id that no lambda below it binds. -/
def Forest.freeVariables (F : Forest) (id : NodeId) : Except Fault (List String) :=
  (F.tree id).freeOnto [] []

end TermForest
