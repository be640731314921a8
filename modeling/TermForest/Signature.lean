import TermForest.Builtin
import TermForest.Typing

/-!
# Signatures

A signature says which kinds of nodes and which builtins a game admits, and which further tags
stand for a node of some kind with given fields.
-/

namespace TermForest

/-- A builtin as a game admits it. -/
structure Primitive where
  builtin : Builtin
  /-- Whether the second phase of the builtin may run. -/
  secondPhase : Bool := builtin.hasSecondPhase
  deriving DecidableEq, Repr

/-- A further tag for nodes of a kind. -/
structure Alias where
  tag : String
  kind : Kind
  /-- The fields of such a node, unless it sets them itself. -/
  implied : List (String × Datum) := []
  deriving DecidableEq

/-- The kinds, builtins and further tags that a game admits. -/
structure Signature where
  kinds : List Kind := []
  builtins : List Primitive := []
  /-- Of two aliases of one tag the first counts. -/
  aliases : List Alias := []

namespace Signature

/-- The signature that admits nothing. -/
def empty : Signature := {}

/-- All kinds and builtins but the named ones, and no aliases. The last list names the builtins
without a second phase. -/
def standardExcept (kinds : List Kind) (builtins secondPhases : List String) : Signature where
  kinds := Kind.all.filter (· ∉ kinds)
  builtins := (Builtin.all.filter (·.name ∉ builtins)).map fun b =>
    { builtin := b, secondPhase := b.hasSecondPhase && b.name ∉ secondPhases }

/-- The same signature with an alias, which replaces an earlier one of its tag. -/
def withAlias (S : Signature) (a : Alias) : Signature :=
  { S with aliases := a :: S.aliases }

/-- The tags of the four shapes, which are symbols of these names. -/
def shapes : List String := ["star", "rect", "triangle", "circle"]

/-- All kinds and builtins, and the shapes. -/
def standard : Signature :=
  shapes.foldl
    (fun S shape => S.withAlias ⟨shape, .symbol, [("name", .text shape)]⟩)
    (standardExcept [] [] [])

instance : Inhabited Signature := ⟨standard⟩

/-- A kind outside the signature is a fault. -/
def requireKind (S : Signature) (k : Kind) : Except Fault Unit :=
  if k ∈ S.kinds then .ok () else .error (.unregistered k.tag)

/-- The builtin of a name. -/
def builtin? (S : Signature) (name : String) : Option Primitive :=
  S.builtins.find? (·.builtin.name = name)

/-- The kind that a tag stands for, with the fields that the tag implies. -/
def kindOfTag (S : Signature) (tag : String) : Except Fault (Kind × List (String × Datum)) :=
  match Kind.ofTag? tag with
  | some k => do
    S.requireKind k
    return (k, [])
  | none =>
    match S.aliases.find? (·.tag = tag) with
    | some a => do
      S.requireKind a.kind
      return (a.kind, a.implied)
    | none => .error (.unknownTag tag)

/-- The slots of a node of an admitted kind. -/
def declaredSlots (S : Signature) (n : Node) : Except Fault (List String) := do
  S.requireKind n.kind
  return n.declaredSlots

/-- The type of the node of an id. -/
def coarseType (S : Signature) (F : Forest) (id : NodeId) : Except Fault CoarseType := do
  let n ← F.find id
  S.requireKind n.kind
  return n.coarseType F.get?

end Signature

end TermForest
