import Std.Data.ExtTreeSet
import TermForest.Forest.Revise
import TermForest.Rule.Basic
import TermForest.Rule.Names

/-!
# Substitution

Applying a lambda: the body is copied and every free occurrence of the bound name gives way to a
copy of the argument. Binders of the body that would catch a free variable of the argument are
renamed first.
-/

namespace TermForest

/-! ### Binders -/

namespace Forest

/-- The name that a lambda binds, if its binder has one. -/
def boundName? (F : Forest) (n : Node) : Option String :=
  if n.kind = .lambda then (F.peek n "arg").bind Node.name? else none

/-- The ids of the lambdas below an id that bind a name anew. -/
def shadowing (F : Forest) (id : NodeId) (name : String) : Except Fault (List NodeId) := do
  let nodes ← F.findAll id fun n => F.boundName? n = some name
  return nodes.map Node.id

end Forest

namespace Editing

/-- Edits the free occurrences of a variable below an id, and gives the id at which the subtree
stands then. -/
def editOccurrences (id : NodeId) (name : String) (edit : Node → Editing Node) :
    Editing NodeId := do
  let hidden := Std.ExtTreeSet.ofList (← (← get).shadowing id name)
  let revised ← Revision.run {
    entered := fun n => n.id ∉ hidden
    edit := fun n => if n.kind = .var ∧ n.name? = some name then edit n else return n } id
  return revised.root

/-- Renames the binder of a lambda and the variables it binds. Ids stay as they are. -/
def renameLambda (lambda : NodeId) (name : String) : Editing Unit := do
  let n ← find lambda
  let binder ← find (← n.needSlot "arg")
  let old ← binder.needText "name"
  let body ← n.needSlot "body"
  let _ ← editOccurrences body old fun n => return n.withField "name" (.text name)
  insert (binder.withField "name" (.text name))

/-- Renames the lambdas below an id that bind one of the free names, all but those that bind `name`.
The new names are not among the taken ones and differ from each other. -/
def freshenBinders (id : NodeId) (name : String) (free taken : List String) : Editing Unit := do
  let F ← get
  let taken := name :: (← F.variableNames id) ++ taken
  let capturing ← F.findAll id fun n =>
    (F.boundName? n).any fun bound => bound ≠ name ∧ bound ∈ free
  let _ ← capturing.foldlM
    (fun taken lambda => do
      let replacement := nameOutside taken
      renameLambda lambda.id replacement
      return replacement :: taken)
    taken

/-! ### Application -/

/-- The body of a lambda with an argument in place of the bound variable. -/
def applyLambda (lambda : Node) (argument : NodeId) : Editing NodeId := do
  let F ← get
  let binder ← find (← lambda.needSlot "arg")
  let name ← binder.needText "name"
  let body ← copyOf (← lambda.needSlot "body")
  let free ← F.freeVariables argument
  if free ≠ [] then
    freshenBinders body name free (← F.variableNames argument)
  editOccurrences body name fun _ => copy argument

/-- A copy of a named function with an argument in its first open parameter. -/
def supplyArgument (reference : Node) (argument : NodeId) : Editing NodeId := do
  let function ← copy reference.id
  match (← get).openParameter? function with
  | none => throw (.broken (.noOpenParameter reference.id))
  | some (slot, _) =>
    let bound ← copyOf argument
    insert (← fill function slot bound)
    return function.id

end Editing

end TermForest
