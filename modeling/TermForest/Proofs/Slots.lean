import Std.Data.String.ToNat
import TermForest.Node

/-!
# Look-ups in slots

What the operations on slots do to the child of a name, to the names and to the children.
-/

namespace TermForest

namespace Slots

/-! ### Entries -/

theorem ext_entries {s t : Slots} (h : s.entries = t.entries) : s = t := by
  cases s
  cases t
  cases h
  rfl

theorem lookup_cons_eq_ite (k : String) (d : NodeId) (entries : List (String × NodeId))
    (name : String) :
    ((k, d) :: entries).lookup name = if name = k then some d else entries.lookup name := by
  rw [List.lookup_cons]
  by_cases h : name = k
  · simp [h]
  · simp [h, beq_eq_false_iff_ne.2 h]

theorem get?_eq_some_iff {s : Slots} {name : String} {c : NodeId} :
    s.get? name = some c ↔ (name, c) ∈ s.entries := by
  unfold get?
  obtain ⟨entries, nodup⟩ := s
  induction entries with
  | nil => simp
  | cons e entries ih =>
    obtain ⟨k, d⟩ := e
    rw [List.map_cons, List.nodup_cons] at nodup
    obtain ⟨hk, hn⟩ := nodup
    rw [lookup_cons_eq_ite, List.mem_cons, Prod.mk.injEq]
    by_cases h : name = k
    · subst h
      have hnot : (name, c) ∉ entries := fun hm => hk (List.mem_map.2 ⟨_, hm, rfl⟩)
      simp [hnot, eq_comm]
    · simpa [h] using ih hn

theorem mem_names_iff {s : Slots} {name : String} :
    name ∈ s.names ↔ ∃ c, s.get? name = some c := by
  simp [names, get?_eq_some_iff]

theorem mem_children_iff {s : Slots} {c : NodeId} :
    c ∈ s.children ↔ ∃ name, s.get? name = some c := by
  simp [children, get?_eq_some_iff]

@[simp] theorem length_names (s : Slots) : s.names.length = s.size := List.length_map ..

@[simp] theorem length_children (s : Slots) : s.children.length = s.size := List.length_map ..

theorem nodup_names (s : Slots) : s.names.Nodup := s.nodup

/-- A slot holds the child that stands where its name stands. -/
theorem get?_of_getElem? {s : Slots} {i : Nat} {name : String} {c : NodeId}
    (hn : s.names[i]? = some name) (hc : s.children[i]? = some c) : s.get? name = some c := by
  rw [names, List.getElem?_map, Option.map_eq_some_iff] at hn
  rw [children, List.getElem?_map, Option.map_eq_some_iff] at hc
  obtain ⟨e, he, rfl⟩ := hn
  obtain ⟨e', he', rfl⟩ := hc
  obtain rfl := Option.some.inj (he.symm.trans he')
  exact get?_eq_some_iff.2 (List.mem_of_getElem? he)

/-! ### Single slots -/

theorem lookup_put (name : String) (c : NodeId) (entries : List (String × NodeId))
    (name' : String) :
    (put name c entries).lookup name' =
      if name' = name then some c else entries.lookup name' := by
  induction entries with
  | nil => simp [put, lookup_cons_eq_ite]
  | cons e entries ih =>
    obtain ⟨k, d⟩ := e
    by_cases hk : k = name
    · subst hk
      by_cases h : name' = k <;> simp [put, lookup_cons_eq_ite, h]
    · by_cases h : name' = k
      · subst h
        simp [put, hk]
      · simp [put, lookup_cons_eq_ite, hk, h, ih]

@[simp] theorem get?_set (s : Slots) (name : String) (c : NodeId) (name' : String) :
    (s.set name c).get? name' = if name' = name then some c else s.get? name' :=
  lookup_put name c s.entries name'

theorem names_set {s : Slots} {name : String} (h : name ∈ s.names) (c : NodeId) :
    (s.set name c).names = s.names := by
  exact (map_fst_put name c s.entries).trans (if_pos h)

theorem put_of_mem {name : String} {c : NodeId} {entries : List (String × NodeId)}
    (hn : (entries.map Prod.fst).Nodup) (h : name ∈ entries.map Prod.fst) :
    put name c entries = entries.map fun e => if e.1 = name then (e.1, c) else e := by
  induction entries with
  | nil => simp at h
  | cons e entries ih =>
    obtain ⟨k, d⟩ := e
    rw [List.map_cons, List.nodup_cons] at hn
    by_cases hk : k = name
    · subst hk
      have hrest : entries.map (fun e => if e.1 = k then (e.1, c) else e) = entries := by
        refine (List.map_congr_left fun e he => if_neg ?_).trans (List.map_id _)
        rintro rfl
        exact hn.1 (List.mem_map.2 ⟨e, he, rfl⟩)
      simp [put, hrest]
    · have hmem : name ∈ entries.map Prod.fst := by
        simpa [Ne.symm hk] using h
      simp [put, hk, ih hn.2 hmem]

/-- A child that is put into a slot which is there stands in place of the one before. -/
theorem entries_set {s : Slots} {name : String} (h : name ∈ s.names) (c : NodeId) :
    (s.set name c).entries = s.entries.map fun e => if e.1 = name then (e.1, c) else e :=
  put_of_mem s.nodup h

/-! ### All slots at once -/

theorem names_withChildren {s : Slots} {children : List NodeId}
    (h : children.length = s.size) : (s.withChildren children).names = s.names :=
  List.map_fst_zip (Nat.le_of_eq (s.length_names.trans h.symm))

theorem children_withChildren {s : Slots} {children : List NodeId}
    (h : children.length = s.size) : (s.withChildren children).children = children :=
  List.map_snd_zip (Nat.le_of_eq (h.trans s.length_names.symm))

@[simp] theorem size_withChildren {s : Slots} {children : List NodeId}
    (h : children.length = s.size) : (s.withChildren children).size = s.size := by
  rw [← length_names, names_withChildren h, length_names]

@[simp] theorem withChildren_children (s : Slots) : s.withChildren s.children = s := by
  obtain ⟨entries, nodup⟩ := s
  have h : (entries.map Prod.fst).zip (entries.map Prod.snd) = entries := by
    simp [List.zip_map']
  simp [withChildren, names, children, h]

theorem inOrder_ofList {α : Type} {entries : List (String × α)}
    (h : (entries.map Prod.fst).Nodup) {table : Std.ExtTreeMap String α}
    (ht : ∀ e ∈ entries, table[e.1]? = some e.2) :
    inOrder table (entries.map Prod.fst) = entries := by
  induction entries generalizing table with
  | nil => rfl
  | cons e entries ih =>
    rw [List.map_cons, List.nodup_cons] at h
    have he := ht e List.mem_cons_self
    rw [List.map_cons, inOrder, he]
    refine congrArg _ (ih h.2 fun e' he' => ?_)
    have hne : e.1 ≠ e'.1 := by
      intro heq
      exact h.1 (heq ▸ List.mem_map_of_mem he')
    rw [Std.ExtTreeMap.getElem?_erase, if_neg (by simpa using hne)]
    exact ht e' (List.mem_cons_of_mem _ he')

theorem getElem?_of_mem_inOrder {α : Type} {table : Std.ExtTreeMap String α} {names : List String}
    {e : String × α} (h : e ∈ inOrder table names) : table[e.1]? = some e.2 := by
  induction names generalizing table with
  | nil => cases h
  | cons name names ih =>
    rw [inOrder] at h
    split at h
    · next a ha =>
      rcases List.mem_cons.1 h with rfl | h
      · exact ha
      · have he := ih h
        rw [Std.ExtTreeMap.getElem?_erase] at he
        split at he
        · cases he
        · exact he
    · exact ih h

/-- Of a list nothing but its own entries stays. -/
theorem distinct_subset {α : Type} (entries : List (String × α)) : distinct entries ⊆ entries := by
  intro e he
  have hget := getElem?_of_mem_inOrder he
  rw [Std.ExtTreeMap.ofList_eq_insertMany_empty, Std.ExtTreeMap.getElem?_insertMany_list,
    Std.ExtTreeMap.getElem?_empty, Option.or_none, List.findSomeRev?_eq_findSome?_reverse] at hget
  obtain ⟨e', he', hget⟩ := List.exists_of_findSome?_eq_some hget
  dsimp only at hget
  by_cases hname : compare e'.1 e.1 = .eq
  · rw [if_pos hname, Option.some.injEq] at hget
    obtain rfl : e' = e := Prod.ext (Std.LawfulEqCmp.eq_of_compare hname) hget
    exact List.mem_reverse.1 he'
  · rw [if_neg hname] at hget
    cases hget

/-- Entries of different names stay as they are. -/
theorem distinct_of_nodup {α : Type} {entries : List (String × α)}
    (h : (entries.map Prod.fst).Nodup) : distinct entries = entries := by
  refine inOrder_ofList h fun e he => ?_
  refine Std.ExtTreeMap.getElem?_ofList_of_mem (k := e.1) (by simp) ?_ (v := e.2) he
  rw [List.nodup_iff_pairwise_ne, List.pairwise_map] at h
  exact h.imp fun hne => by simpa using hne

theorem entries_ofList {entries : List (String × NodeId)} (h : (entries.map Prod.fst).Nodup) :
    (ofList entries).entries = entries :=
  distinct_of_nodup h

/-- The slots of a list have no other children than the list. -/
theorem entries_ofList_subset (entries : List (String × NodeId)) :
    (ofList entries).entries ⊆ entries :=
  distinct_subset entries

end Slots

/-! ### Names of slots -/

theorem parameterSlot_injective : Function.Injective parameterSlot := by
  intro a b h
  exact (String.append_right_inj _).1 h

theorem elementSlot_injective : Function.Injective elementSlot := by
  intro i j h
  have h' : "elem" ++ Nat.repr i = "elem" ++ Nat.repr j := by
    simpa [elementSlot] using h
  exact Nat.repr_injective ((String.append_right_inj _).1 h')

end TermForest
