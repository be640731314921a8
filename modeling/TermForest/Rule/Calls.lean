import TermForest.Forest.Tree
import TermForest.State

/-!
# Calls between definitions

A definition calls the names of the references inside it. A name calls itself if a chain of calls
that starts at it comes back to it; unfolding such a name would never end.
-/

namespace TermForest

/-! ### What is left to visit -/

/-- Visiting one more name leaves no more names to visit. -/
theorem length_unvisited_le (names visited : List String) (current : String) :
    (names.filter (· ∉ current :: visited)).length ≤ (names.filter (· ∉ visited)).length := by
  rw [← List.countP_eq_length_filter, ← List.countP_eq_length_filter]
  refine List.countP_mono_left fun name _ h => ?_
  rw [decide_eq_true_eq] at h ⊢
  exact fun hv => h (List.mem_cons_of_mem _ hv)

/-- Visiting a listed name for the first time leaves fewer names to visit. -/
theorem length_unvisited_lt {names visited : List String} {current : String}
    (hn : current ∈ names) (hv : current ∉ visited) :
    (names.filter (· ∉ current :: visited)).length < (names.filter (· ∉ visited)).length := by
  obtain ⟨before, after, rfl⟩ := List.append_of_mem hn
  have hb := length_unvisited_le before visited current
  have ha := length_unvisited_le after visited current
  have hc : (current :: after).filter (· ∉ current :: visited) =
      after.filter (· ∉ current :: visited) :=
    List.filter_cons_of_neg fun h => of_decide_eq_true h List.mem_cons_self
  have hc' : (current :: after).filter (· ∉ visited) = current :: after.filter (· ∉ visited) :=
    List.filter_cons_of_pos (decide_eq_true hv)
  rw [List.filter_append, List.filter_append, List.length_append, List.length_append, hc, hc',
    List.length_cons]
  omega

/-! ### The search -/

namespace State

/-- The names that references carry, or `none` if the sought one is among them. A reference without
a name is a fault, unless the sought name comes first. -/
def calledBy (sought : String) : List Node → Except Fault (Option (List String))
  | [] => .ok (some [])
  | reference :: rest => do
    let name ← reference.needText "name"
    if name = sought then return none
    else return (← calledBy sought rest).map (name :: ·)

/-- Whether a name is called by the definitions of the names on the stack, or by those that these
call in turn. Each name is looked into once. -/
def callsFrom (s : State) (sought : String) (visited : List String) :
    List String → Except Fault Bool
  | [] => .ok false
  | current :: stack =>
    if current ∈ visited then s.callsFrom sought visited stack
    else
      match _ : s.definition? current with
      | none => s.callsFrom sought (current :: visited) stack
      | some d => do
        let references ← s.nodes.findAll d.id fun n => n.kind = .reference
        match ← calledBy sought references with
        | none => return true
        | some names => s.callsFrom sought (current :: visited) (names.reverse ++ stack)
termination_by stack => ((s.definedNames.filter (· ∉ visited)).length, stack.length)
decreasing_by
  · exact Prod.Lex.right _ (by simp)
  · exact Prod.Lex.right' _ (length_unvisited_le ..) (by simp)
  · exact Prod.Lex.left _ _ (length_unvisited_lt (mem_definedNames ‹_›) ‹_›)

/-- Whether the definition of a name refers back to the name through any chain of references. -/
def callsItself (s : State) (name : String) : Except Fault Bool :=
  s.callsFrom name [] [name]

end State

end TermForest
