import Mathlib.Data.Set.Card
import Mathlib.Logic.Relation
import TermForest.Proofs.Forest.Hung
import TermForest.Proofs.Rule.Refusal

/-!
# Calls between definitions

A name calls those that the references below its definition carry. What the search for circular calls
lets pass does not call itself through any chain of definitions. So the defined names that do not call
themselves have a rank, the number of defined names that they lead to: a name ranks above those it
calls.
-/

namespace TermForest

open Relation (TransGen)

/-! ### Names in plants -/

/-- The name that a node of a kind with some fields calls: a reference calls the name it carries. -/
def calleeOf? (kind : Kind) (fields : Fields) : Option String :=
  if kind = .reference then (fields.get? "name").bind Datum.text? else none

/-- The name that a node calls. -/
def Node.callee? (n : Node) : Option String := calleeOf? n.kind n.fields

theorem Node.callee?_of_reference {n : Node} (h : n.kind = .reference) : n.callee? = n.name? := by
  rw [callee?, calleeOf?, if_pos h]
  rfl

namespace Shape

mutual

/-- The names that are called in a shape, those of the parts before that of the root. -/
def callees : Shape → List String
  | .mk kind fields _ parts => calleesIn parts ++ (calleeOf? kind fields).toList

/-- The names that are called in some shapes. -/
def calleesIn : List Shape → List String
  | [] => []
  | p :: ps => p.callees ++ calleesIn ps

end

theorem calleesIn_eq_flatMap (ps : List Shape) : calleesIn ps = ps.flatMap callees := by
  induction ps with
  | nil => rfl
  | cons p ps ih => rw [calleesIn, ih, List.flatMap_cons]

theorem callees_applied (f a : Shape) : (f.applied a).callees = f.callees ++ a.callees := by
  simp [applied, callees, calleesIn, calleeOf?]

/-- Applications call what the function and the arguments call. -/
theorem callees_foldl_applied (f : Shape) (as : List Shape) :
    (as.foldl applied f).callees = f.callees ++ as.flatMap callees := by
  induction as generalizing f with
  | nil => simp
  | cons a as ih => rw [List.foldl_cons, ih, callees_applied, List.flatMap_cons, List.append_assoc]

end Shape

namespace Plant

/-- The names that are called in a plant. -/
def callees (t : Plant) : List String := t.nodes.filterMap Node.callee?

theorem callees_mk (root : Node) (parts : List Plant) :
    (mk root parts).callees = parts.flatMap callees ++ root.callee?.toList := by
  rw [callees, nodes_mk, List.filterMap_append, List.filterMap_flatMap]
  change parts.flatMap callees ++ _ = _
  cases h : root.callee? <;> simp [h]

/-- The shape of a plant says what is called in it. -/
theorem callees_shape (t : Plant) : t.shape.callees = t.callees := by
  induction t using induct with
  | step root parts ih =>
    rw [shape_mk, Shape.callees, Shape.calleesIn_eq_flatMap, List.flatMap_map, callees_mk,
      List.flatMap_congr ih]
    rfl

theorem callees_subset {t u : Plant} (h : u ∈ t.subs) : u.callees ⊆ t.callees :=
  List.filterMap_subset _ (nodes_subset_of_mem_subs h)

end Plant

/-! ### The search -/

/-- The names that references carry are listed, and the sought one is not among them. -/
theorem State.calledBy_eq_some {sought : String} {references : List Node} {names : List String}
    (h : calledBy sought references = .ok (some names)) :
    sought ∉ names ∧ ∀ n ∈ references, ∀ name, n.name? = some name → name ∈ names := by
  induction references generalizing names with
  | nil =>
    cases h
    exact ⟨List.not_mem_nil, nofun⟩
  | cons r references ih =>
    obtain ⟨name, hname, h⟩ := bind_eq_ok_iff.1 h
    split at h
    · cases h
    next hne =>
    obtain ⟨o, ho, h⟩ := bind_eq_ok_iff.1 h
    obtain ⟨names, rfl, rfl⟩ := Option.map_eq_some_iff.1 (Except.ok.inj h)
    obtain ⟨hnot, hmem⟩ := ih ho
    refine ⟨by simp [hnot, Ne.symm hne], fun n hn other hother => ?_⟩
    rcases List.mem_cons.1 hn with rfl | hn
    · rw [Node.needText, show n.text? "name" = some other from hother] at hname
      cases hname
      exact List.mem_cons_self
    · exact List.mem_cons_of_mem _ (hmem n hn other hother)

namespace State

variable {s : State} {next : Nat} {m n name sought : String}

/-- The definition of a name holds a reference that carries the other name. -/
def Calls (s : State) (m n : String) : Prop :=
  ∃ t : Plant, s.definition? m = some t.root ∧ s.nodes.Holds t ∧ n ∈ t.callees

theorem Calls.isSome_definition? (h : s.Calls m n) : (s.definition? m).isSome = true := by
  obtain ⟨t, ht, -⟩ := h
  rw [ht]
  rfl

/-- A search that does not come to the sought name has a list of names that leads to no other, and
not to the sought one. What has been visited leads to names that have been visited or are on the
stack. -/
theorem exists_closed_of_callsFrom (hF : s.nodes.Hung next) {visited stack : List String}
    (h : s.callsFrom sought visited stack = .ok false)
    (hv : ∀ m ∈ visited, ∀ n, s.Calls m n → n ≠ sought ∧ (n ∈ visited ∨ n ∈ stack)) :
    ∃ all : List String, visited ⊆ all ∧ stack ⊆ all ∧
      ∀ m ∈ all, ∀ n, s.Calls m n → n ≠ sought ∧ n ∈ all := by
  fun_induction callsFrom s sought visited stack with
  | case1 visited =>
    refine ⟨visited, List.Subset.refl _, List.nil_subset _, fun m hm n hn => ?_⟩
    simpa using hv m hm n hn
  | case2 visited current stack hcurrent ih =>
    obtain ⟨all, hvisited, hstack, hall⟩ := ih h fun m hm n hn => by
      have := hv m hm n hn
      grind
    exact ⟨all, hvisited, List.cons_subset.2 ⟨hvisited hcurrent, hstack⟩, hall⟩
  | case3 visited current stack hcurrent hd ih =>
    obtain ⟨all, hvisited, hstack, hall⟩ := ih h fun m hm n hn => by
      rcases List.mem_cons.1 hm with rfl | hm
      · have hsome := hn.isSome_definition?
        rw [hd] at hsome
        cases hsome
      · have := hv m hm n hn
        grind
    rw [List.cons_subset] at hvisited
    exact ⟨all, hvisited.2, List.cons_subset.2 ⟨hvisited.1, hstack⟩, hall⟩
  | case4 visited current stack hcurrent d hd ih =>
    obtain ⟨references, hreferences, h⟩ := bind_eq_ok_iff.1 h
    obtain ⟨o, ho, h⟩ := bind_eq_ok_iff.1 h
    cases o with
    | none => cases h
    | some names =>
      obtain ⟨hsought, hnames⟩ := calledBy_eq_some ho
      obtain ⟨all, hvisited, hstack, hall⟩ := ih names h fun m hm n hn => by
        rcases List.mem_cons.1 hm with rfl | hm
        · obtain ⟨t, ht, hheld, hn⟩ := hn
          rw [hd] at ht
          cases ht
          rw [Plant.id_root, hheld.findAll (hF.nodup_ids hheld)] at hreferences
          cases hreferences
          obtain ⟨r, hr, hcallee⟩ := List.mem_filterMap.1 hn
          have hk : r.kind = .reference := by
            by_contra hk
            simp [Node.callee?, calleeOf?, hk] at hcallee
          rw [Node.callee?_of_reference hk] at hcallee
          have := hnames r (List.mem_filter.2 ⟨hr, decide_eq_true hk⟩) n hcallee
          grind
        · have := hv m hm n hn
          grind
      rw [List.cons_subset] at hvisited
      rw [List.append_subset] at hstack
      exact ⟨all, hvisited.2, List.cons_subset.2 ⟨hvisited.1, hstack.2⟩, hall⟩

/-- A name that passes the search does not call itself through any chain of definitions. -/
theorem not_calls_self (hF : s.nodes.Hung next) (h : s.callsItself name = .ok false) :
    ¬TransGen s.Calls name name := by
  obtain ⟨all, -, hstack, hall⟩ := exists_closed_of_callsFrom hF h nofun
  have hreach : ∀ m, TransGen s.Calls name m → m ≠ name ∧ m ∈ all := fun m hm => by
    induction hm with
    | single hm => exact hall name (hstack List.mem_cons_self) _ hm
    | tail _ hm ih => exact hall _ ih.2 _ hm
  exact fun hself => (hreach name hself).1 rfl

/-- A name whose definition holds no reference does not call itself. -/
theorem callsItself_of_no_reference {d : Node} (hd : s.definition? name = some d)
    (h : s.nodes.findAll d.id (fun n => n.kind = .reference) = .ok []) :
    s.callsItself name = .ok false := by
  rw [callsItself, callsFrom, if_neg List.not_mem_nil]
  split
  · next hnone =>
    rw [hd] at hnone
    cases hnone
  · next d' hd' =>
    obtain rfl := Option.some.inj (hd.symm.trans hd')
    rw [h]
    exact callsFrom.eq_1 s name [name]

/-! ### Ranks -/

/-- The name is defined and does not call itself through any chain of definitions. -/
def Founded (s : State) (name : String) : Prop :=
  (s.definition? name).isSome = true ∧ ¬TransGen s.Calls name name

/-- The defined names that a name leads to. -/
def reach (s : State) (name : String) : Set String :=
  {m | TransGen s.Calls name m ∧ (s.definition? m).isSome = true}

theorem finite_reach (s : State) (name : String) : (s.reach name).Finite := by
  refine s.definedNames.toFinset.finite_toSet.subset fun m hm => ?_
  obtain ⟨d, hd⟩ := Option.isSome_iff_exists.1 hm.2
  exact List.mem_toFinset.2 (mem_definedNames hd)

/-- The number of defined names that a name leads to. -/
noncomputable def rank (s : State) (name : String) : ℕ := (s.reach name).ncard

/-- A founded name ranks below those that call it. -/
theorem rank_lt (h : s.Calls m n) (hn : s.Founded n) : s.rank n < s.rank m := by
  refine Set.ncard_lt_ncard ⟨fun k hk => ⟨.head h hk.1, hk.2⟩, fun hsub => ?_⟩ (s.finite_reach m)
  exact hn.2 (hsub ⟨.single h, hn.1⟩).1

end State

end TermForest
