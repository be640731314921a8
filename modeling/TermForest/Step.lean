import Std.Data.ExtTreeSet
import TermForest.Forest.Root
import TermForest.Normal
import TermForest.Rule.Check
import TermForest.Rule.Reduce

/-!
# Steps

A step has two phases. The first finds the redex of a term, checks it, and works out what it is
reduced to, or leaves that to the second phase. The second finishes the work and puts the result
in the place of the redex; only then is there a new state.
-/

namespace TermForest

/-- What the first phase of a step leaves to do. -/
inductive Plan where
  /-- The replacement of the redex is ready. -/
  | ready (redex : NodeId) (replacement : Replacement)
  /-- The replacement of the redex is still to be produced. -/
  | deferred (redex : NodeId) (effect : Effect)
  /-- There is nothing to reduce. -/
  | nothing
  deriving DecidableEq

namespace Plan

/-- The node that is reduced. -/
def redex? : Plan → Option NodeId
  | .ready redex _ | .deferred redex _ => some redex
  | .nothing => none

/-- Whether the replacement is still to be produced. -/
def isDeferred : Plan → Bool
  | .deferred .. => true
  | .ready .. | .nothing => false

end Plan

namespace State

/-- The first phase of a step inside the board tree that contains a node. -/
def begin (s : State) (S : Signature) (most : Int64) (target : NodeId) : Supply Failure Plan := do
  let n ← s.nodes.find target
  let root ← s.nodes.rootOf target
  if root ∉ s.board then throw (.rejected (.notOnBoard target))
  if n.locked then return .nothing
  match ← S.redex s.nodes target with
  | none => return .nothing
  | some redex =>
    let r ← s.nodes.find redex
    S.requireKind r.kind
    S.check s r
    match ← s.reduce S most r with
    | .replaced w => return .ready redex w
    | .deferred e => return .deferred redex e
    | .noRule => return .nothing

/-- Puts the root of a replacement in the place of the redex. What the redex had below it and the
replacement does not keep is dropped, and so is what the rule left over. -/
def graft (s : State) (redex : NodeId) (w : Replacement) : Except Fault State := do
  let old ← s.nodes.idsUnder redex
  let new ← w.forest.idsUnder w.root
  let kept := Std.ExtTreeSet.ofList new
  let removed := old.filter (· ∉ kept)
  let added := new.filter (!s.nodes.has ·)
  let leftOver := w.forest.ids.filter fun id => !s.nodes.has id && id ∉ kept
  let nodes := (w.forest.eraseAll leftOver).eraseAll removed
  let r ← s.nodes.find redex
  let root := { ← nodes.find w.root with parent := r.parent, parentSlot := r.parentSlot }
  let nodes := nodes.insert root
  match r.parent, r.parentSlot with
  | some parent, some slot =>
    let p ← nodes.find parent
    return { s with nodes := nodes.insert (p.withSlot slot root.id), added, removed }
  | some parent, none => throw (.broken (.noParentSlot redex parent))
  | none, _ =>
    let board := s.board.map fun id => if id = redex then root.id else id
    return { s with nodes, board, added, removed }

/-- The second phase of a step: the state with the finished work, or `none` if there was nothing to
do. -/
def complete (s : State) (S : Signature) : Plan → Supply Fault (Option State)
  | .nothing => return none
  | .ready redex w => return some (← s.graft redex w)
  | .deferred redex e => do
    let w ← S.finish s.nodes e
    return some (← s.graft redex w)

/-- Both phases of a step, one after the other. -/
def step (s : State) (S : Signature) (most : Int64) (target : NodeId) :
    Supply Failure (Option State) := do
  let work ← s.begin S most target
  s.complete S work

end State

end TermForest
