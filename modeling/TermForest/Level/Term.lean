import TermForest.Datum
import TermForest.Slots

/-!
# Terms as written in level files

A term names its tag, some fields, and the terms in some of its slots. It has no place in a forest
yet; an id that a file gives it is kept but means nothing.
-/

namespace TermForest

mutual

/-- A term of a level file. -/
inductive Term where
  | mk (id : Option NodeId) (tag : String) (fields : Fields) (parts : Terms)
  deriving DecidableEq

/-- Terms by slot name, in the order of the file. -/
inductive Terms where
  | nil
  | cons (slot : String) (term : Term) (rest : Terms)
  deriving DecidableEq

end

/-! ### Terms in slots -/

namespace Terms

/-- The terms in order. -/
def toList : Terms → List (String × Term)
  | .nil => []
  | .cons slot t rest => (slot, t) :: rest.toList

/-- The slot names in order. -/
def names : Terms → List String
  | .nil => []
  | .cons slot _ rest => slot :: rest.names

/-- Puts a term into a slot; a slot that is already there keeps its place. -/
def set (name : String) (term : Term) : Terms → Terms
  | .nil => .cons name term .nil
  | .cons slot t rest =>
    if slot = name then .cons slot term rest else .cons slot t (rest.set name term)

/-- The terms of a list, as they stand there. -/
def ofEntries : List (String × Term) → Terms
  | [] => .nil
  | (slot, t) :: entries => .cons slot t (ofEntries entries)

/-- The terms of a list; a repeated name keeps its first place and its last term. -/
def ofList (entries : List (String × Term)) : Terms := ofEntries (Slots.distinct entries)

end Terms

namespace Term

/-! ### Parts -/

/-- The id a file gives the term. -/
def id? : Term → Option NodeId
  | .mk id _ _ _ => id

/-- The tag of a term. -/
def tag : Term → String
  | .mk _ tag _ _ => tag

/-- The fields of a term. -/
def fields : Term → Fields
  | .mk _ _ fields _ => fields

/-- The terms in the slots of a term. -/
def parts : Term → Terms
  | .mk _ _ _ parts => parts

instance : Inhabited Term := ⟨.mk none "" ∅ .nil⟩

/-! ### Building -/

/-- A term of a tag with nothing in it. -/
def ofTag (tag : String) : Term := .mk none tag ∅ .nil

/-- The same term with a field set. -/
def withField (t : Term) (key : String) (value : Datum) : Term :=
  .mk t.id? t.tag (t.fields.insert key value) t.parts

/-- The same term with a term in a slot. -/
def withSlot (t : Term) (slot : String) (term : Term) : Term :=
  .mk t.id? t.tag t.fields (t.parts.set slot term)

/-- A number. -/
def number (n : Int64) : Term := (ofTag "number").withField "value" (.int n)

/-- A truth value. -/
def boolean (b : Bool) : Term := (ofTag "boolean").withField "value" (.bool b)

/-- A string. -/
def string (s : String) : Term := (ofTag "string").withField "value" (.text s)

/-- A hole. -/
def hole : Term := ofTag "missing"

/-- A variable. -/
def var (name : String) : Term := (ofTag "lambdaVar").withField "name" (.text name)

/-- A binder. -/
def binder (name : String) : Term := (ofTag "lambdaArg").withField "name" (.text name)

/-- A lambda that binds a name in its body. -/
def lambda (name : String) (body : Term) : Term :=
  ((ofTag "lambda").withSlot "arg" (binder name)).withSlot "body" body

/-- A function applied to an argument. -/
def apply (callee argument : Term) : Term :=
  ((ofTag "apply").withSlot "callee" callee).withSlot "argument" argument

/-- A binary operation. -/
def binop (op : String) (left right : Term) : Term :=
  (((ofTag "binop").withField "op" (.text op)).withSlot "left" left).withSlot "right" right

/-- A choice between two terms. -/
def conditional (condition positive negative : Term) : Term :=
  (((ofTag "conditional").withSlot "condition" condition).withSlot "positive" positive).withSlot
    "negative" negative

/-- A negation. -/
def not (value : Term) : Term := (ofTag "not").withSlot "value" value

/-- An array of elements. -/
def array (elements : List Term) : Term :=
  elements.zipIdx.foldl (fun t e => t.withSlot s!"elem{e.2}" e.1)
    ((ofTag "array").withField "length" (.int (Int64.ofNat elements.length)))

/-- An access to an array. -/
def member (array index : Term) : Term :=
  ((ofTag "member").withSlot "array" array).withSlot "index" index

/-- A reference all of whose parameters are open. -/
def reference (name : String) (parameters : List String) : Term :=
  ((ofTag "reference").withField "name" (.text name)).withField "params"
    (.list (parameters.map .text))

/-- A definition. -/
def define (name : String) (body : Term) : Term :=
  ((ofTag "define").withField "name" (.text name)).withSlot "body" body

end Term

end TermForest
