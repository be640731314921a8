import TermForest.Proofs.Forest.Revise

/-!
# Nameless readings of terms

A term is read with an index in place of each bound variable: the number of lambdas between the
variable and the one that binds it. Free variables keep their names, binders lose them. Terms that are
read alike in every scope differ in the names of bound variables only.

Replacing the free occurrences of a variable in a term is substitution on its reading, as long as no
binder of the term catches a free variable of what is put in.
-/

namespace TermForest

/-! ### Names in shapes -/

namespace Shape

/-- The name at the root of a term. -/
def name? (t : Shape) : Option String := (t.fields.get? "name").bind Datum.text?

/-- The name of a term that is a variable. -/
def var? (t : Shape) : Option String := if t.kind = .var then t.name? else none

/-- The name that a lambda binds: the one of its binder, which is its first part. -/
def bound? (t : Shape) : Option String :=
  if t.kind = .lambda then t.parts.head?.bind name? else none

/-- The same term with another name at the root. -/
def withName (z : String) : Shape → Shape
  | .mk kind fields names parts => .mk kind (fields.insert "name" (.text z)) names parts

mutual

/-- The names of the variables that are not bound in a term. -/
def free : Shape → List String
  | .mk .lambda _ _ [arg, body] => body.free.filter fun y => arg.name? ≠ some y
  | .mk kind fields names parts => (mk kind fields names parts).var?.toList ++ freeAll parts

/-- The names of the variables that are not bound in some terms. -/
def freeAll : List Shape → List String
  | [] => []
  | t :: ts => t.free ++ freeAll ts

end

mutual

/-- The names that the lambdas in a term bind. -/
def binders : Shape → List String
  | .mk .lambda _ _ [arg, body] => arg.name?.toList ++ body.binders
  | .mk _ _ _ parts => bindersAll parts

/-- The names that the lambdas in some terms bind. -/
def bindersAll : List Shape → List String
  | [] => []
  | t :: ts => t.binders ++ bindersAll ts

end

mutual

/-- The names at the binders and variables in a term, parts before wholes. -/
def spelled : Shape → List String
  | .mk kind fields names parts =>
    spelledAll parts ++
      if kind = .binder ∨ kind = .var then (mk kind fields names parts).name?.toList else []

/-- The names at the binders and variables in some terms. -/
def spelledAll : List Shape → List String
  | [] => []
  | t :: ts => t.spelled ++ spelledAll ts

end

/-- A binder, or a hole without a name in the place of one. -/
structure IsBinder (t : Shape) : Prop where
  leaf : t.parts = []
  kind : t.kind = .binder ∨ t.kind = .hole ∧ t.name? = none

/-- Every lambda in a term has two parts, its binder and its body. -/
inductive Proper : Shape → Prop where
  | lambda {fields : Fields} {names : List String} {arg body : Shape} (binder : arg.IsBinder)
      (inside : Proper body) : Proper (.mk .lambda fields names [arg, body])
  | other {kind : Kind} {fields : Fields} {names : List String} {parts : List Shape}
      (ne : kind ≠ .lambda) (inside : ∀ p ∈ parts, Proper p) : Proper (.mk kind fields names parts)

/-- Edits the free occurrences of a variable. -/
def editFree (x : String) (edit : Shape → Shape) : Shape → Shape :=
  revise (fun t => t.bound? ≠ some x) fun t => if t.var? = some x then edit t else t

end Shape

/-! ### Readings -/

/-- A term without the names of bound variables. A variable that has an index is bound. -/
inductive Nameless where
  | mk (kind : Kind) (index : Option Nat) (fields : Fields) (names : List String)
      (parts : List Nameless)

namespace Nameless

/-- The same term without a name at the root. -/
def unnamed : Nameless → Nameless
  | .mk kind index fields names parts => .mk kind index (fields.erase "name") names parts

mutual

/-- A term with another in place of each free occurrence of a variable. -/
def substitute : Nameless → String → Nameless → Nameless
  | .mk kind index fields names parts, x, a =>
    if kind = .var ∧ index = none ∧ (fields.get? "name").bind Datum.text? = some x then a
    else .mk kind index fields names (substituteAll parts x a)

/-- Some terms with another in place of each free occurrence of a variable. -/
def substituteAll : List Nameless → String → Nameless → List Nameless
  | [], _, _ => []
  | t :: ts, x, a => t.substitute x a :: substituteAll ts x a

end

theorem substituteAll_eq_map (ts : List Nameless) (x : String) (a : Nameless) :
    substituteAll ts x a = ts.map fun t => t.substitute x a := by
  induction ts with
  | nil => rfl
  | cons t ts ih => rw [substituteAll, ih, List.map_cons]

theorem substitute_mk (kind : Kind) (index : Option Nat) (fields : Fields) (names : List String)
    (parts : List Nameless) (x : String) (a : Nameless) :
    (mk kind index fields names parts).substitute x a =
      if kind = .var ∧ index = none ∧ (fields.get? "name").bind Datum.text? = some x then a
      else mk kind index fields names (parts.map fun t => t.substitute x a) := by
  rw [substitute, substituteAll_eq_map]

end Nameless

namespace Shape

/-- The index of a term that is a bound variable. -/
def index? (scope : List (Option String)) (t : Shape) : Option Nat :=
  t.var?.bind fun y => scope.idxOf? (some y)

mutual

/-- Reads a term below some lambdas, given by what they bind, the nearest first. -/
def read (scope : List (Option String)) : Shape → Nameless
  | .mk .lambda fields names [arg, body] =>
    .mk .lambda none fields names [(arg.read scope).unnamed, body.read (arg.name? :: scope)]
  | .mk kind fields names parts =>
    let index := (mk kind fields names parts).index? scope
    .mk kind index (if index.isSome then fields.erase "name" else fields) names
      (readAll scope parts)

/-- Reads some terms below the same lambdas. -/
def readAll (scope : List (Option String)) : List Shape → List Nameless
  | [] => []
  | t :: ts => t.read scope :: readAll scope ts

end

/-! ### What the definitions say of a root -/

section root

variable {kind : Kind} {fields : Fields} {names : List String} {parts : List Shape}
  {t arg body : Shape} {x y z : String} {edit : Shape → Shape} {scope : List (Option String)}

@[simp] theorem kind_mk : (mk kind fields names parts).kind = kind := rfl

@[simp] theorem fields_mk : (mk kind fields names parts).fields = fields := rfl

@[simp] theorem parts_mk : (mk kind fields names parts).parts = parts := rfl

@[simp] theorem var?_mk : (mk kind fields names parts).var? =
    if kind = .var then (fields.get? "name").bind Datum.text? else none := rfl

theorem index?_of_var? (h : t.var? = some y) : t.index? scope = scope.idxOf? (some y) := by
  rw [index?, h, Option.bind_some]

@[simp] theorem index?_of_ne_var (h : kind ≠ .var) :
    (mk kind fields names parts).index? scope = none := by
  simp [index?, h]

@[simp] theorem bound?_mk : (mk kind fields names parts).bound? =
    if kind = .lambda then parts.head?.bind name? else none := rfl

theorem erase_insert (fields : Fields) (key : String) (value : Datum) :
    (fields.insert key value).erase key = fields.erase key := by
  apply Std.ExtTreeMap.ext_getElem?
  intro key'
  simp only [Std.ExtTreeMap.getElem?_erase, Std.ExtTreeMap.getElem?_insert]
  split <;> rfl

theorem insert_insert (fields : Fields) (key : String) (value value' : Datum) :
    (fields.insert key value).insert key value' = fields.insert key value' := by
  apply Std.ExtTreeMap.ext_getElem?
  intro key'
  simp only [Std.ExtTreeMap.getElem?_insert]
  split <;> rfl

@[simp] theorem name?_withName : (t.withName z).name? = some z := by
  obtain ⟨kind, fields, names, parts⟩ := t
  simp [withName, name?, Std.ExtTreeMap.get?_eq_getElem?, Datum.text?]

theorem freeAll_eq_flatMap (ts : List Shape) : freeAll ts = ts.flatMap free := by
  induction ts with
  | nil => rfl
  | cons t ts ih => rw [freeAll, ih, List.flatMap_cons]

theorem bindersAll_eq_flatMap (ts : List Shape) : bindersAll ts = ts.flatMap binders := by
  induction ts with
  | nil => rfl
  | cons t ts ih => rw [bindersAll, ih, List.flatMap_cons]

theorem spelledAll_eq_flatMap (ts : List Shape) : spelledAll ts = ts.flatMap spelled := by
  induction ts with
  | nil => rfl
  | cons t ts ih => rw [spelledAll, ih, List.flatMap_cons]

theorem readAll_eq_map (scope : List (Option String)) (ts : List Shape) :
    readAll scope ts = ts.map (read scope) := by
  induction ts with
  | nil => rfl
  | cons t ts ih => rw [readAll, ih, List.map_cons]

theorem mem_free_lambda : y ∈ (mk .lambda fields names [arg, body]).free ↔
    y ∈ body.free ∧ arg.name? ≠ some y := by
  simp [free]

theorem mem_free_other (ne : kind ≠ .lambda) : y ∈ (mk kind fields names parts).free ↔
    (mk kind fields names parts).var? = some y ∨ ∃ p ∈ parts, y ∈ p.free := by
  rw [free, freeAll_eq_flatMap, List.mem_append, List.mem_flatMap, Option.mem_toList]
  intro _ _ h
  exact absurd h ne

theorem mem_binders_lambda : y ∈ (mk .lambda fields names [arg, body]).binders ↔
    arg.name? = some y ∨ y ∈ body.binders := by
  simp [binders]

theorem mem_binders_other (ne : kind ≠ .lambda) : y ∈ (mk kind fields names parts).binders ↔
    ∃ p ∈ parts, y ∈ p.binders := by
  rw [binders, bindersAll_eq_flatMap, List.mem_flatMap]
  intro _ _ h
  exact absurd h ne

theorem spelled_mk : (mk kind fields names parts).spelled = parts.flatMap spelled ++
    if kind = .binder ∨ kind = .var then (mk kind fields names parts).name?.toList else [] := by
  rw [spelled, spelledAll_eq_flatMap]

theorem mem_spelled_of_mem (hp : t ∈ parts) (hy : y ∈ t.spelled) :
    y ∈ (mk kind fields names parts).spelled := by
  rw [spelled_mk]
  exact List.mem_append_left _ (List.mem_flatMap.2 ⟨t, hp, hy⟩)

theorem mem_spelled_self (hk : t.kind = .binder ∨ t.kind = .var) (hy : t.name? = some y) :
    y ∈ t.spelled := by
  obtain ⟨kind, fields, names, parts⟩ := t
  rw [kind_mk] at hk
  rw [spelled_mk, if_pos hk, hy]
  simp

theorem read_lambda : (mk .lambda fields names [arg, body]).read scope =
    .mk .lambda none fields names [(arg.read scope).unnamed, body.read (arg.name? :: scope)] := by
  rw [read]

theorem read_other (ne : kind ≠ .lambda) : (mk kind fields names parts).read scope =
    .mk kind ((mk kind fields names parts).index? scope)
      (if ((mk kind fields names parts).index? scope).isSome then fields.erase "name" else fields)
      names (parts.map (read scope)) := by
  rw [read, readAll_eq_map]
  intro _ _ h
  exact absurd h ne

theorem editFree_mk : (mk kind fields names parts).editFree x edit =
    if (mk kind fields names parts).bound? = some x then mk kind fields names parts
    else if (mk kind fields names parts).var? = some x then
      edit (mk kind fields names (parts.map (editFree x edit)))
    else mk kind fields names (parts.map (editFree x edit)) := by
  rw [editFree, revise_mk]
  by_cases h : (mk kind fields names parts).bound? = some x
  · rw [if_pos h, if_neg (by simpa only [ne_eq, decide_eq_true_eq, not_not] using h)]
  · rw [if_neg h, if_pos (decide_eq_true h)]
    rfl

theorem editFree_other (ne : kind ≠ .lambda) : (mk kind fields names parts).editFree x edit =
    if (mk kind fields names parts).var? = some x then
      edit (mk kind fields names (parts.map (editFree x edit)))
    else mk kind fields names (parts.map (editFree x edit)) := by
  rw [editFree_mk, if_neg]
  simp [ne]

namespace IsBinder

theorem ne_var (h : arg.IsBinder) : arg.kind ≠ .var := by
  rcases h.kind with hk | ⟨hk, -⟩ <;> simp [hk]

theorem ne_lambda (h : arg.IsBinder) : arg.kind ≠ .lambda := by
  rcases h.kind with hk | ⟨hk, -⟩ <;> simp [hk]

theorem proper (h : arg.IsBinder) : arg.Proper := by
  obtain ⟨kind, fields, names, parts⟩ := arg
  obtain rfl : parts = [] := h.leaf
  exact .other h.ne_lambda nofun

theorem kind_of_name (h : arg.IsBinder) (hy : arg.name? = some y) : arg.kind = .binder := by
  rcases h.kind with hk | ⟨-, hnone⟩
  · exact hk
  · rw [hnone] at hy
    cases hy

theorem read_mk (h : (Shape.mk kind fields names parts).IsBinder) :
    (Shape.mk kind fields names parts).read scope = .mk kind none fields names [] := by
  have hv : kind ≠ .var := h.ne_var
  have hl : kind ≠ .lambda := h.ne_lambda
  obtain rfl : parts = [] := h.leaf
  simp [read_other hl, hv]

theorem read_eq (h : arg.IsBinder) (scope scope' : List (Option String)) :
    arg.read scope = arg.read scope' := by
  obtain ⟨kind, fields, names, parts⟩ := arg
  rw [h.read_mk, h.read_mk]

/-- Readings of a binder do not tell its name. -/
theorem unnamed_read_withName (h : arg.IsBinder) (scope' : List (Option String)) :
    ((arg.withName z).read scope).unnamed = (arg.read scope').unnamed := by
  obtain ⟨kind, fields, names, parts⟩ := arg
  have hv : kind ≠ .var := h.ne_var
  have hl : kind ≠ .lambda := h.ne_lambda
  obtain rfl : parts = [] := h.leaf
  simp [withName, read_other hl, hv, Nameless.unnamed, erase_insert]

theorem substitute_unnamed (h : arg.IsBinder) (a : Nameless) :
    (arg.read scope).unnamed.substitute x a = (arg.read scope).unnamed := by
  obtain ⟨kind, fields, names, parts⟩ := arg
  have hv : kind ≠ .var := h.ne_var
  rw [h.read_mk, Nameless.unnamed, Nameless.substitute_mk, if_neg fun e => hv e.1]
  rfl

theorem editFree_eq (h : arg.IsBinder) : arg.editFree x edit = arg := by
  obtain ⟨kind, fields, names, parts⟩ := arg
  have hv : kind ≠ .var := h.ne_var
  have hl : kind ≠ .lambda := h.ne_lambda
  obtain rfl : parts = [] := h.leaf
  simp [editFree_other hl, hv]

end IsBinder

theorem editFree_lambda (h : arg.IsBinder) : (mk .lambda fields names [arg, body]).editFree x edit =
    if arg.name? = some x then mk .lambda fields names [arg, body]
    else mk .lambda fields names [arg, body.editFree x edit] := by
  simp [editFree_mk, h.editFree_eq]

theorem substitute_read_lambda (h : arg.IsBinder) (a : Nameless) :
    ((mk .lambda fields names [arg, body]).read scope).substitute x a =
      .mk .lambda none fields names
        [(arg.read scope).unnamed, (body.read (arg.name? :: scope)).substitute x a] := by
  simp [read_lambda, Nameless.substitute_mk, h.substitute_unnamed]

/-- A variable is replaced in a reading when no lambda around it binds it. -/
theorem substitute_read_other (ne : kind ≠ .lambda) (a : Nameless) :
    ((mk kind fields names parts).read scope).substitute x a =
      if (mk kind fields names parts).var? = some x ∧ some x ∉ scope then a
      else .mk kind ((mk kind fields names parts).index? scope)
        (if ((mk kind fields names parts).index? scope).isSome then fields.erase "name" else fields)
        names (parts.map fun p => (p.read scope).substitute x a) := by
  rw [read_other ne, Nameless.substitute_mk, List.map_map]
  refine if_congr ?_ rfl rfl
  by_cases hk : kind = .var
  · subst hk
    cases hindex : (mk .var fields names parts).index? scope with
    | none =>
      -- the name is kept
      have hy : ∀ y, (mk .var fields names parts).var? = some y → some y ∉ scope := by
        intro y hy
        rwa [index?_of_var? hy, List.idxOf?_eq_none_iff] at hindex
      simpa using fun h => hy x h
    | some i =>
      obtain ⟨y, hy, hi⟩ := Option.bind_eq_some_iff.1 hindex
      have hmem : some y ∈ scope := by
        by_contra hmem
        rw [List.idxOf?_eq_none_iff.2 hmem] at hi
        cases hi
      rw [hy]
      simpa using fun e => e ▸ hmem
  · simp [hk]

end root

/-! ### Readings and names -/

namespace Proper

variable {t a : Shape} {x y z : String} {scope scope' : List (Option String)}

/-- Two scopes agree on a name below one more lambda if they agree on it, or if the lambda binds it. -/
theorem idxOf?_cons_congr {b : Option String} {y : String}
    (h : b ≠ some y → scope.idxOf? (some y) = scope'.idxOf? (some y)) :
    (b :: scope).idxOf? (some y) = (b :: scope').idxOf? (some y) := by
  rw [List.idxOf?_cons, List.idxOf?_cons]
  by_cases hb : b = some y
  · simp [hb]
  · simp [hb, h hb]

/-- A name that is free in a term is spelled in it. -/
theorem mem_spelled_of_mem_free (h : t.Proper) (hy : y ∈ t.free) : y ∈ t.spelled := by
  induction h with
  | lambda binder inside ih =>
    exact mem_spelled_of_mem (by simp) (ih (mem_free_lambda.1 hy).1)
  | other ne inside ih =>
    rcases (mem_free_other ne).1 hy with hv | ⟨p, hp, hy⟩
    · obtain ⟨hk, hname⟩ := Option.ite_none_right_eq_some.1 hv
      exact mem_spelled_self (.inr hk) hname
    · exact mem_spelled_of_mem hp (ih p hp hy)

/-- A name that is bound in a term is spelled in it. -/
theorem mem_spelled_of_mem_binders (h : t.Proper) (hy : y ∈ t.binders) : y ∈ t.spelled := by
  induction h with
  | lambda binder inside ih =>
    rcases mem_binders_lambda.1 hy with hname | hy
    · exact mem_spelled_of_mem List.mem_cons_self (mem_spelled_self (.inl (binder.kind_of_name hname)) hname)
    · exact mem_spelled_of_mem (by simp) (ih hy)
  | other ne inside ih =>
    obtain ⟨p, hp, hy⟩ := (mem_binders_other ne).1 hy
    exact mem_spelled_of_mem hp (ih p hp hy)

/-- A reading depends on the free names of the term alone. -/
theorem read_congr (h : t.Proper)
    (hs : ∀ y ∈ t.free, scope.idxOf? (some y) = scope'.idxOf? (some y)) :
    t.read scope = t.read scope' := by
  induction h generalizing scope scope' with
  | lambda binder inside ih =>
    rw [read_lambda, read_lambda, binder.read_eq scope scope', ih]
    intro y hy
    exact idxOf?_cons_congr fun hb => hs y (mem_free_lambda.2 ⟨hy, hb⟩)
  | @other kind fields names parts ne inside ih =>
    have hindex : (mk kind fields names parts).index? scope =
        (mk kind fields names parts).index? scope' :=
      Option.bind_congr fun y hy => hs y ((mem_free_other ne).2 (.inl hy))
    have hparts : parts.map (read scope) = parts.map (read scope') := by
      apply List.map_congr_left
      intro p hp
      exact ih p hp fun y hy => hs y ((mem_free_other ne).2 (.inr ⟨p, hp, hy⟩))
    rw [read_other ne, read_other ne, hindex, hparts]

/-- A variable may take another name, if it is bound at the same place under that name and neither
free nor bound under it inside the term. -/
theorem read_rename (h : t.Proper) (hfree : z ∉ t.free) (hbinders : z ∉ t.binders) {i : Nat}
    (hy : scope.idxOf? (some y) = some i) (hz : scope'.idxOf? (some z) = some i)
    (hs : ∀ v ∈ t.free, v ≠ y → scope.idxOf? (some v) = scope'.idxOf? (some v)) :
    (t.editFree y (withName z)).read scope' = t.read scope := by
  induction h generalizing scope scope' i with
  | @lambda fields names arg body binder inside ih =>
    rw [editFree_lambda binder]
    by_cases hb : arg.name? = some y
    · -- the variable is hidden
      rw [if_pos hb]
      apply read_congr (.lambda binder inside)
      intro v hv
      refine (hs v hv ?_).symm
      rintro rfl
      exact (mem_free_lambda.1 hv).2 hb
    · rw [if_neg hb, read_lambda, read_lambda, binder.read_eq scope' scope]
      have hbz : arg.name? ≠ some z := fun e => hbinders (mem_binders_lambda.2 (.inl e))
      rw [ih (i := i + 1)]
      · exact fun hmem => hfree (mem_free_lambda.2 ⟨hmem, hbz⟩)
      · exact fun hmem => hbinders (mem_binders_lambda.2 (.inr hmem))
      · simp [List.idxOf?_cons, hb, hy]
      · simp [List.idxOf?_cons, hbz, hz]
      · intro v hv hvy
        exact idxOf?_cons_congr fun hb => hs v (mem_free_lambda.2 ⟨hv, hb⟩) hvy
  | @other kind fields names parts ne inside ih =>
    have hparts : (parts.map (editFree y (withName z))).map (read scope') =
        parts.map (read scope) := by
      rw [List.map_map]
      apply List.map_congr_left
      intro p hp
      apply ih p hp _ _ hy hz
      · exact fun v hv => hs v ((mem_free_other ne).2 (.inr ⟨p, hp, hv⟩))
      · exact fun hmem => hfree ((mem_free_other ne).2 (.inr ⟨p, hp, hmem⟩))
      · exact fun hmem => hbinders ((mem_binders_other ne).2 ⟨p, hp, hmem⟩)
    rw [editFree_other ne]
    by_cases hv : (mk kind fields names parts).var? = some y
    · obtain ⟨rfl, -⟩ := Option.ite_none_right_eq_some.1 hv
      have hz' : (mk .var (fields.insert "name" (.text z)) names
          (parts.map (editFree y (withName z)))).var? = some z := name?_withName (t := mk .var fields names parts)
      rw [if_pos hv, withName, read_other ne, read_other ne, hparts, index?_of_var? hv,
        index?_of_var? hz', hy, hz]
      simp [erase_insert]
    · rw [if_neg hv, read_other ne, read_other ne, hparts]
      have hindex : (mk kind fields names (parts.map (editFree y (withName z)))).index? scope' =
          (mk kind fields names parts).index? scope := by
        apply Option.bind_congr
        intro v hv'
        refine (hs v ((mem_free_other ne).2 (.inl hv')) ?_).symm
        rintro rfl
        exact hv hv'
      rw [hindex]

/-- A lambda may bind another name, if that name is neither free nor bound in its body. -/
theorem read_renameLambda {arg body : Shape} (hbody : body.Proper) (binder : arg.IsBinder)
    (hy : arg.name? = some y) (hfree : z ∉ body.free) (hbinders : z ∉ body.binders)
    (fields : Fields) (names : List String) (scope : List (Option String)) :
    (mk .lambda fields names [arg.withName z, body.editFree y (withName z)]).read scope =
      (mk .lambda fields names [arg, body]).read scope := by
  have hy' : (some y :: scope).idxOf? (some y) = some 0 := by simp [List.idxOf?_cons]
  have hz : (some z :: scope).idxOf? (some z) = some 0 := by simp [List.idxOf?_cons]
  have hs : ∀ v ∈ body.free, v ≠ y →
      (some y :: scope).idxOf? (some v) = (some z :: scope).idxOf? (some v) := by
    intro v hv hvy
    have hvz : v ≠ z := fun e => hfree (e ▸ hv)
    simp [List.idxOf?_cons, hvy.symm, hvz.symm]
  rw [read_lambda, read_lambda, hy, name?_withName, binder.unnamed_read_withName,
    hbody.read_rename hfree hbinders hy' hz hs]

/-! ### Substituting -/

/-- A variable that is bound around a term, or not free in it, is not replaced in its reading. -/
theorem substitute_read_of_bound (h : t.Proper) (hx : x ∈ t.free → some x ∈ scope) (a : Nameless) :
    (t.read scope).substitute x a = t.read scope := by
  induction h generalizing scope with
  | @lambda fields names arg body binder inside ih =>
    rw [substitute_read_lambda binder, read_lambda, ih]
    intro hfree
    by_cases hname : arg.name? = some x
    · exact hname ▸ List.mem_cons_self
    · exact List.mem_cons_of_mem _ (hx (mem_free_lambda.2 ⟨hfree, hname⟩))
  | other ne inside ih =>
    rw [substitute_read_other ne, if_neg fun e => e.2 (hx ((mem_free_other ne).2 (.inl e.1))),
      read_other ne]
    congr 1
    apply List.map_congr_left
    exact fun p hp => ih p hp fun hfree => hx ((mem_free_other ne).2 (.inr ⟨p, hp, hfree⟩))

/-- Replacing the free occurrences of a variable by a term is substitution, if every binder that has
the name of a free variable of the term that is put in binds the variable itself. -/
theorem read_editFree (h : t.Proper) (ha : a.Proper) (hx : some x ∉ scope)
    (hs : ∀ v ∈ a.free, some v ∉ scope) (hb : ∀ y ∈ t.binders, y ∈ a.free → y = x) :
    (t.editFree x fun _ => a).read scope = (t.read scope).substitute x (a.read []) := by
  induction h generalizing scope with
  | @lambda fields names arg body binder inside ih =>
    rw [editFree_lambda binder, substitute_read_lambda binder]
    by_cases hname : arg.name? = some x
    · -- the variable is hidden
      have hmem : some x ∈ arg.name? :: scope := by simp [hname]
      rw [if_pos hname, read_lambda, inside.substitute_read_of_bound fun _ => hmem]
    · rw [if_neg hname, read_lambda, ih]
      · simp [hx, Ne.symm hname]
      · intro v hv hmem
        rcases List.mem_cons.1 hmem with hbound | hmem
        · have hvx := hb v (mem_binders_lambda.2 (.inl hbound.symm)) hv
          exact hname (hvx ▸ hbound.symm)
        · exact hs v hv hmem
      · exact fun y hy => hb y (mem_binders_lambda.2 (.inr hy))
  | @other kind fields names parts ne inside ih =>
    have hparts : (parts.map (editFree x fun _ => a)).map (read scope) =
        parts.map fun p => (p.read scope).substitute x (a.read []) := by
      rw [List.map_map]
      apply List.map_congr_left
      exact fun p hp => ih p hp hx hs fun y hy => hb y ((mem_binders_other ne).2 ⟨p, hp, hy⟩)
    rw [editFree_other ne, substitute_read_other ne]
    by_cases hv : (mk kind fields names parts).var? = some x
    · rw [if_pos hv, if_pos ⟨hv, hx⟩]
      apply ha.read_congr
      intro v hv
      rw [List.idxOf?_eq_none_iff.2 (hs v hv)]
      rfl
    · rw [if_neg hv, if_neg fun e => hv e.1, read_other ne, hparts]
      rfl

end Proper

end Shape

end TermForest
