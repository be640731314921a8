import Std.Data.ExtTreeMap

/-!
# Slots

A node holds its children in named slots. The order of the slots is the order of evaluation and
of display, so it is part of the value; a name stands at most once.
-/

namespace TermForest

/-- Nodes are known by number. -/
abbrev NodeId := Nat

/-- Children by slot name, in order, each name once. -/
structure Slots where
  /-- The slots with their children. -/
  entries : List (String × NodeId)
  /-- No name stands twice. -/
  nodup : (entries.map Prod.fst).Nodup
  deriving DecidableEq, Repr

namespace Slots

instance : EmptyCollection Slots := ⟨⟨[], .nil⟩⟩

instance : Inhabited Slots := ⟨∅⟩

@[simp] theorem entries_empty : (∅ : Slots).entries = [] := rfl

/-! ### Reading -/

/-- The slot names in order. -/
def names (s : Slots) : List String := s.entries.map Prod.fst

/-- The children in slot order. -/
def children (s : Slots) : List NodeId := s.entries.map Prod.snd

/-- The number of slots. -/
def size (s : Slots) : Nat := s.entries.length

/-- The child in the slot of a name. -/
def get? (s : Slots) (name : String) : Option NodeId := s.entries.lookup name

/-- The children by slot name, without the order of the slots. -/
def table (s : Slots) : Std.ExtTreeMap String NodeId := .ofList s.entries

/-- Whether two slot lists hold the same children under the same names, in any order. -/
def sameContent (s t : Slots) : Bool := s.table = t.table

/-! ### Single slots -/

/-- Puts a child into the entry of a name, where it stands, or into a new last entry. -/
def put (name : String) (child : NodeId) : List (String × NodeId) → List (String × NodeId)
  | [] => [(name, child)]
  | (n, c) :: rest => if n = name then (n, child) :: rest else (n, c) :: put name child rest

theorem map_fst_put (name : String) (child : NodeId) (entries : List (String × NodeId)) :
    (put name child entries).map Prod.fst =
      if name ∈ entries.map Prod.fst then entries.map Prod.fst
      else entries.map Prod.fst ++ [name] := by
  induction entries with
  | nil => simp [put]
  | cons e rest ih =>
    obtain ⟨n, c⟩ := e
    by_cases h : n = name
    · simp [put, h]
    · have h' : ¬name = n := fun e => h e.symm
      simp only [put, h, if_false, List.map_cons, ih, List.mem_cons, h', false_or]
      split <;> simp

theorem nodup_put (name : String) (child : NodeId) {entries : List (String × NodeId)}
    (h : (entries.map Prod.fst).Nodup) : ((put name child entries).map Prod.fst).Nodup := by
  rw [map_fst_put]
  split
  · exact h
  · next hn =>
    rw [List.nodup_append]
    refine ⟨h, by simp, fun a ha b hb => ?_⟩
    rw [List.mem_singleton] at hb
    exact fun e => hn (hb ▸ e ▸ ha)

/-- Puts a child into a slot; a slot that is already there keeps its place. -/
def set (s : Slots) (name : String) (child : NodeId) : Slots :=
  ⟨put name child s.entries, nodup_put name child s.nodup⟩

/-! ### All slots at once -/

/-- The entries of a table, in the order in which the names come first. -/
def inOrder {α : Type} (table : Std.ExtTreeMap String α) : List String → List (String × α)
  | [] => []
  | name :: names =>
    match table[name]? with
    | some a => (name, a) :: inOrder (table.erase name) names
    | none => inOrder table names

theorem mem_of_mem_inOrder {α : Type} {table : Std.ExtTreeMap String α} {names : List String}
    {name : String} (h : name ∈ (inOrder table names).map Prod.fst) : name ∈ table := by
  induction names generalizing table with
  | nil => simp [inOrder] at h
  | cons n names ih =>
    rw [inOrder] at h
    split at h
    · next child hc =>
      rw [List.map_cons, List.mem_cons] at h
      rcases h with rfl | h
      · exact Std.ExtTreeMap.mem_iff_isSome_getElem?.2 (by rw [hc]; rfl)
      · exact Std.ExtTreeMap.mem_of_mem_erase (ih h)
    · exact ih h

theorem nodup_inOrder {α : Type} (table : Std.ExtTreeMap String α) (names : List String) :
    ((inOrder table names).map Prod.fst).Nodup := by
  induction names generalizing table with
  | nil => simp [inOrder]
  | cons n names ih =>
    rw [inOrder]
    split
    · rw [List.map_cons, List.nodup_cons]
      refine ⟨fun h => ?_, ih _⟩
      have := mem_of_mem_inOrder h
      simp at this
    · exact ih _

/-- Entries of which each name stands once: at its first place, with the last that goes with it. -/
def distinct {α : Type} (entries : List (String × α)) : List (String × α) :=
  inOrder (.ofList entries) (entries.map Prod.fst)

/-- The slots of a list; a repeated name keeps its first place and its last child. -/
def ofList (entries : List (String × NodeId)) : Slots := ⟨distinct entries, nodup_inOrder _ _⟩

theorem sublist_map_fst_zip (names : List String) (children : List NodeId) :
    ((names.zip children).map Prod.fst).Sublist names := by
  induction names generalizing children with
  | nil => simp
  | cons name names ih =>
    cases children with
    | nil => simp
    | cons child children => exact (ih children).cons_cons name

/-- The same slots with other children, given in slot order. -/
def withChildren (s : Slots) (children : List NodeId) : Slots :=
  ⟨s.names.zip children, s.nodup.sublist (sublist_map_fst_zip s.names children)⟩

end Slots

end TermForest
