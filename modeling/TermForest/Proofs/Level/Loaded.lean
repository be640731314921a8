import TermForest.Proofs.Level.Hung

/-!
# Loaded levels match their terms

A level that loads starts in the state that its terms describe: one node for each id taken, in trees
whose roots the areas list, each tree of the shape that the term at its place describes. This is so
exactly when no reference of the level names a parameter twice.
-/

namespace TermForest

namespace Forest

variable {F : Forest} {lo hi : Nat}

/-- The ids of a forest in order are the ids that it spans. -/
theorem Spans.ids_eq (h : F.Spans lo hi) : F.ids = List.range' lo (hi - lo) := by
  have hmem : ∀ x : Nat, x ∈ F.ids ↔ x ∈ List.range' lo (hi - lo) := by
    intro x
    rw [ids, Std.ExtTreeMap.mem_keys, Std.ExtTreeMap.mem_iff_isSome_getElem?,
      Option.isSome_iff_exists, List.mem_range'_1]
    refine (h x).trans ?_
    omega
  exact ids_eq_of_mem_iff List.pairwise_lt_range' hmem

end Forest

namespace State

/-- A state matches a level that takes the ids from `lo` up to but not including `hi`. Its forest has
one node for each of these ids and is linked; its areas list the roots, each once, and every node is
in the tree of one of them; the nodes of definitions and no others are locked; and each area lists, in
order, trees of the shapes that the terms of the level describe. -/
structure Matches (S : Signature) (l : Level) (lo hi : Nat) (s : State) : Prop where
  count : hi = lo + s.nodes.size
  ids : s.nodes.ids = List.range' lo s.nodes.size
  linked : s.nodes.Linked
  nodup : s.roots.Nodup
  roots : ∀ r, r ∈ s.roots ↔ s.nodes.IsRoot r
  rooted : ∀ x n, s.nodes.get? x = some n → ∃! r, r ∈ s.roots ∧ s.nodes.RootOf x r
  locked : ∀ x n, s.nodes.get? x = some n →
    (n.locked = true ↔ ∃ r ∈ s.defs, s.nodes.RootOf x r)
  board : List.Forall₂ (Term.LoadsTo S s.nodes) l.board s.board
  toolbox : List.Forall₂ (Term.LoadsTo S s.nodes) l.toolbox s.toolbox
  goal : List.Forall₂ (Term.LoadsTo S s.nodes) l.goal s.goal
  defs : List.Forall₂ (Term.LoadsTo S s.nodes) l.defs s.defs

end State

namespace Level

variable {S : Signature} {l : Level} {s : State} {lo hi : Nat}

theorem LoadsTo.matches (h : l.LoadsTo S s lo hi) (hle : lo ≤ hi) : s.Matches S l lo hi := by
  have hids := h.spans.ids_eq
  have hsize : s.nodes.size = hi - lo := by
    rw [← Forest.length_ids, hids, List.length_range']
  refine ⟨by omega, hsize ▸ hids, h.kept.linked, h.kept.nodup, Forest.Kept.mem_roots_iff h.kept,
    fun x n hx => ?_, fun x n hx => ?_, h.board, h.toolbox, h.goal, h.defs⟩
  · obtain ⟨r, hr, hroot⟩ := h.kept.exists_rootOf hx
    exact ⟨r, ⟨hr, hroot⟩, fun r' hr' => hr'.2.unique hroot⟩
  · obtain ⟨r, -, hroot⟩ := h.kept.exists_rootOf hx
    rw [h.kept.locked_iff x n r hx hroot]
    refine ⟨fun hr => ⟨r, hr, hroot⟩, ?_⟩
    rintro ⟨r', hr', hroot'⟩
    exact hroot.unique hroot' ▸ hr'

/-- The forest of a level that loads is linked exactly if no reference names a parameter twice. -/
theorem linked_iff_namesOnce (hS : S.TagsReferences) {index next next' : Nat} (hpos : 1 ≤ next)
    (h : (l.load S index).runFrom next = (.ok s, next')) :
    s.nodes.Linked ↔ ∀ t ∈ l.terms, t.NamesOnce := by
  refine ⟨fun hlinked => ?_, fun hnames => ?_⟩
  · obtain ⟨-, -, -, hnames | hstrays⟩ := (l.hung_load S index next).of_ok h
    · exact hnames
    · exact absurd hlinked hstrays.not_linked
  · exact ((meets_loadsTo hS hnames index hpos).of_ok h).2.kept.linked

end Level

namespace LevelFile

/-- A level that loads, from whichever id on, starts in the state that it describes exactly if no
reference in it names a parameter twice. -/
theorem matches_iff_namesOnce {L : LevelFile} {index : Nat} {l : Level}
    (hl : L.levels[index]? = some l) {next next' : Nat} (hpos : 1 ≤ next) {s : State}
    (h : (L.load .standard index).runFrom next = (.ok s, next')) :
    s.Matches .standard l next next' ↔ ∀ t ∈ l.terms, t.NamesOnce := by
  have hload : L.load .standard index = l.load .standard index := by
    rw [load, hl]
  rw [hload] at h
  have hS := Signature.tagsReferences_standard
  refine ⟨fun hmatches => (Level.linked_iff_namesOnce hS hpos h).1 hmatches.linked, fun hnames => ?_⟩
  obtain ⟨hle, hs⟩ := (Level.meets_loadsTo hS hnames index hpos).of_ok h
  exact hs.matches hle

/-- A level in which holes and a further tag stand, with a definition. -/
def twicing : Level where
  board := [.reference "twice" ["f"], .ofTag "star"]
  toolbox := [(Term.array [.number 1]).withField "length" (.int 2)]
  goal := [.number 3]
  defs := [.define "twice" (.lambda "f" (.var "f"))]

theorem matches_iff_namesOnce_twicing :
    ∃ s, ((⟨[twicing]⟩ : LevelFile).load .standard 0).runFrom 5 = (.ok s, 16) ∧
      s.Matches .standard twicing 5 16 := by
  have hnames : ∀ t ∈ twicing.terms, t.NamesOnce := by
    intro t ht
    refine Term.Distinct.namesOnce ?_
    revert t
    simp [twicing, Level.terms, Term.reference, Term.number, Term.array, Term.define, Term.lambda,
      Term.binder, Term.var, Term.withSlot, Term.withField, Term.ofTag, Term.parts, Term.tag,
      Term.fields, Term.id?, Terms.set, Term.Distinct, Terms.Distinct, Kind.tag, Datum.texts,
      Datum.list?, Datum.text?]
  have hrun : (((⟨[twicing]⟩ : LevelFile).load .standard 0).runFrom 5).1.toOption.isSome = true ∧
      (((⟨[twicing]⟩ : LevelFile).load .standard 0).runFrom 5).2 = 16 := by
    decide +kernel
  obtain ⟨s, hs⟩ := Option.isSome_iff_exists.1 hrun.1
  have hload : ((⟨[twicing]⟩ : LevelFile).load .standard 0).runFrom 5 = (.ok s, 16) :=
    Prod.ext (toOption_eq_some_iff.1 hs) hrun.2
  exact ⟨s, hload, (matches_iff_namesOnce rfl (by decide) hload).2 hnames⟩

-- a parameter that is named twice leaves a hole that names the slot but does not hang in it
example : (((⟨[{ board := [.reference "f" ["a", "a"]] }]⟩ : LevelFile).load .standard 0).runFrom
    1).1.toOption.map (fun s => [1, 2, 3].map fun x =>
      (s.nodes.get? x).map fun n => (n.parent, n.slots.children)) =
    some [some (none, [3]), some (some 1, []), some (some 1, [])] := by
  decide +kernel

end LevelFile

end TermForest
