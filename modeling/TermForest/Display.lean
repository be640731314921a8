import TermForest.Forest.Tree
import TermForest.Text.Quoted

/-!
# Display of terms

Terms on one line, as they are shown to the player. A slot that is not there is shown like a hole; a
child that is not there is a fault.
-/

namespace TermForest

/-- The value of a literal as it is shown. -/
def Node.displayValue (n : Node) : String :=
  match n.field? "value" with
  | some (.int i) => toString i.toInt
  | some (.bool true) => "true"
  | some (.bool false) => "false"
  | some (.text s) => s
  | some (.list _) | none => "?"

/-- The name of a node as it is shown. -/
def Node.displayName (n : Node) : String := n.name?.getD "?"

/-- What a slot of a node shows; `display` shows a child. -/
def Node.displaySlot (n : Node) (display : NodeId → Except Fault String) (slot : String) :
    Except Fault String :=
  match n.slots.get? slot with
  | some child => display child
  | none => .ok "_"

/-- A term on one line. -/
def Tree.display : Tree → Except Fault String
  | .absent id => .error (.dangling id)
  | .endless id => .error (.broken (.endlessSlots id))
  | .node root below =>
    let slot := root.displaySlot fun child => (below child).display
    match root.kind with
    | .number | .boolean => return root.displayValue
    | .string => return Text.quoted ((root.text? "value").getD "")
    | .symbol | .binder | .var => return root.displayName
    | .void => return "()"
    | .hole => return "_"
    | .lambda => return "(λ" ++ (← slot "arg") ++ ". " ++ (← slot "body") ++ ")"
    | .apply => return "(" ++ (← slot "callee") ++ " " ++ (← slot "argument") ++ ")"
    | .binop => do
      let op := (root.text? "op").getD "?"
      return "(" ++ (← slot "left") ++ " " ++ op ++ " " ++ (← slot "right") ++ ")"
    | .conditional =>
      return "(if " ++ (← slot "condition") ++ " then " ++ (← slot "positive") ++
        " else " ++ (← slot "negative") ++ ")"
    | .not => return "!" ++ (← slot "value")
    | .array => do
      let elements ← root.slots.children.mapM fun child => (below child).display
      return "[" ++ ", ".intercalate elements ++ "]"
    | .member => return (← slot "array") ++ "[" ++ (← slot "index") ++ "]"
    | .reference =>
      if root.parameters = [] then return root.displayName
      else do
        let arguments ← root.parameters.mapM fun parameter => slot (parameterSlot parameter)
        return root.displayName ++ "(" ++ ", ".intercalate arguments ++ ")"
    | .define => return "def " ++ root.displayName ++ " = " ++ (← slot "body")

namespace Forest

/-- The term at an id on one line. -/
def display (F : Forest) (id : NodeId) : Except Fault String := (F.tree id).display

/-- Terms with their ids, one to a line. -/
def displayRoots (F : Forest) (roots : List NodeId) : Except Fault String := do
  let lines ← roots.mapM fun root => do
    let s ← F.display root
    return s!"  #{root} " ++ s ++ "\n"
  return String.join lines

end Forest

end TermForest
