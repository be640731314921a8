import TermForest.Proofs.Level.Accept

/-!
# Rearranged levels

The ids that a file gives to its terms and the order in which it lists their slots mean nothing to the
loader: it hands out ids of its own, and fills the slots in the order of the kind.
-/

namespace TermForest

/-! ### Computations that agree -/

namespace Supply

variable {ε α β : Type}

/-- Two computations take the same ids and give the same result, or both fail. -/
def Agrees (x y : Supply ε α) : Prop :=
  ∀ next, (x.runFrom next).1.toOption = (y.runFrom next).1.toOption ∧
    (x.runFrom next).2 = (y.runFrom next).2

theorem Agrees.refl (x : Supply ε α) : x.Agrees x := fun _ => ⟨rfl, rfl⟩

theorem Agrees.bind {x y : Supply ε α} {f g : α → Supply ε β} (hx : x.Agrees y)
    (hf : ∀ a, (f a).Agrees (g a)) : (x >>= f).Agrees (y >>= g) := by
  intro next
  obtain ⟨hresult, hnext⟩ := hx next
  rw [runFrom_bind, runFrom_bind]
  rcases hrun : x.runFrom next with ⟨e | a, mid⟩ <;>
    rcases hrun' : y.runFrom next with ⟨e' | a', mid'⟩ <;>
    simp only [hrun, hrun', Except.toOption, reduceCtorEq, Option.some.injEq] at hresult hnext ⊢
  · exact ⟨trivial, hnext⟩
  · exact hresult ▸ hnext ▸ hf a mid

end Supply

namespace Editing

variable {α β γ : Type}

/-- Two edits agree on every forest. -/
def Agrees (x y : Editing α) : Prop := ∀ F, (x.run F).Agrees (y.run F)

theorem Agrees.refl (x : Editing α) : x.Agrees x := fun _ => .refl _

theorem Agrees.bind {x y : Editing α} {f g : α → Editing β} (hx : x.Agrees y)
    (hf : ∀ a, (f a).Agrees (g a)) : (x >>= f).Agrees (y >>= g) := by
  intro F
  rw [StateT.run_bind, StateT.run_bind]
  exact (hx F).bind fun r => hf r.1 r.2

/-- What is done first in both may stay as it is. -/
theorem Agrees.after {x : Editing α} {f g : α → Editing β} (hf : ∀ a, (f a).Agrees (g a)) :
    (x >>= f).Agrees (x >>= g) :=
  (Agrees.refl x).bind hf

theorem agrees_mapM {R : α → β → Prop} {f : α → Editing γ} {g : β → Editing γ}
    (h : ∀ a b, R a b → (f a).Agrees (g b)) {as : List α} {bs : List β}
    (hab : List.Forall₂ R as bs) : (as.mapM f).Agrees (bs.mapM g) := by
  induction hab with
  | nil => exact .refl _
  | cons hr _ ih =>
    rw [List.mapM_cons, List.mapM_cons]
    exact (h _ _ hr).bind fun _ => ih.bind fun _ => .refl _

end Editing

/-! ### Terms -/

/-- Two terms differ at most in the ids that they give and in the order in which they list their
slots. Of several terms in one slot only the last counts. -/
inductive Term.Rearranged : Term → Term → Prop
  | mk {id? other? : Option NodeId} {tag : String} {own : Fields} {parts others : Terms}
      (names : ∀ slot, slot ∈ parts.names ↔ slot ∈ others.names)
      (held : ∀ slot t u, parts.get? slot = some t → others.get? slot = some u → t.Rearranged u) :
      Rearranged (.mk id? tag own parts) (.mk other? tag own others)

/-- Where no slot is listed twice, every term that is listed counts. -/
theorem Terms.get?_of_mem_toList {slot : String} {t : Term} : {ts : Terms} → ts.names.Nodup →
    (slot, t) ∈ ts.toList → ts.get? slot = some t
  | .nil, _, h => nomatch h
  | .cons name u rest, hn, h => by
    rw [names, List.nodup_cons] at hn
    rw [get?, Option.or_eq_some_iff]
    rcases List.mem_cons.1 h with heq | h
    · cases heq
      exact .inr ⟨get?_eq_none_iff.2 hn.1, if_pos rfl⟩
    · exact .inl (get?_of_mem_toList hn.2 h)

namespace Term

theorem Rearranged.refl (t : Term) : t.Rearranged t := by
  induction t using Term.induct with
  | step id? tag own parts ih =>
    refine .mk (fun _ => Iff.rfl) fun slot t u ht hu => ?_
    obtain rfl := Option.some.inj (ht.symm.trans hu)
    exact ih slot t ht

/-- Terms that list the same terms in different orders are rearranged. -/
theorem Rearranged.of_perm {id? other? : Option NodeId} {tag : String} {own : Fields}
    {parts others : Terms} (hn : parts.names.Nodup) (h : parts.toList.Perm others.toList) :
    (Term.mk id? tag own parts).Rearranged (.mk other? tag own others) := by
  have hnames : parts.names.Perm others.names := by
    rw [Terms.names_eq_map, Terms.names_eq_map]
    exact h.map Prod.fst
  refine .mk (fun slot => hnames.mem_iff) fun slot t u ht hu => ?_
  have hmem := h.mem_iff.1 (Terms.mem_toList_of_get? ht)
  obtain rfl := Option.some.inj
    ((Terms.get?_of_mem_toList (hnames.nodup_iff.1 hn) hmem).symm.trans hu)
  exact .refl t

variable {S : Signature}

/-- What fills a slot is the same for rearranged terms. -/
theorem agrees_getD_loaders {parts others : Terms}
    (names : ∀ slot, slot ∈ parts.names ↔ slot ∈ others.names) {slot : String}
    (h : ∀ t u, parts.get? slot = some t → others.get? slot = some u →
      (t.load S).Agrees (u.load S)) :
    ((Std.ExtTreeMap.ofList (parts.loaders S)).getD slot loadHole).Agrees
      ((Std.ExtTreeMap.ofList (others.loaders S)).getD slot loadHole) := by
  rcases parts.getD_loaders S slot with ⟨t, ht, hload⟩ | ⟨hnone, hload⟩ <;>
    rcases others.getD_loaders S slot with ⟨u, hu, hload'⟩ | ⟨hnone', hload'⟩ <;>
    rw [hload, hload']
  · exact h t u ht hu
  · have hmem := (names slot).1 (Terms.mem_names_of_get? ht)
    exact absurd hmem (Terms.get?_eq_none_iff.1 hnone')
  · have hmem := (names slot).2 (Terms.mem_names_of_get? hu)
    exact absurd hmem (Terms.get?_eq_none_iff.1 hnone)
  · exact .refl _

/-- Rearranged terms load alike. Of two slots that are not declared another one may be reported. -/
theorem Rearranged.agrees_load {t u : Term} (h : t.Rearranged u) : (t.load S).Agrees (u.load S) := by
  induction h with
  | @mk id? other? tag own parts others names _ ih =>
  have hbuild := fun slot => agrees_getD_loaders (S := S) names (ih slot)
  rw [load, load]
  refine .after fun tagged => .after fun id => .after fun _ => .after fun slots => ?_
  dsimp only
  have hextra : (parts.names.find? (· ∉ Std.ExtTreeSet.ofList slots)).isSome =
      (others.names.find? (· ∉ Std.ExtTreeSet.ofList slots)).isSome := by
    rw [Bool.eq_iff_iff, List.find?_isSome, List.find?_isSome]
    exact exists_congr fun slot => and_congr_left fun _ => names slot
  split <;> split
  · exact fun _ _ => ⟨rfl, rfl⟩
  · next h _ h' =>
    rw [h, Option.eq_none_iff_forall_ne_some.2 h'] at hextra
    cases hextra
  · next h _ _ h' =>
    rw [h', Option.eq_none_iff_forall_ne_some.2 h] at hextra
    cases hextra
  · refine .bind ?_ fun entries => .refl _
    refine Editing.agrees_mapM (R := Eq) (fun slot _ heq => ?_) (List.forall₂_eq_eq_eq ▸ rfl)
    exact heq ▸ (hbuild slot).bind fun _ => .refl _

end Term

/-! ### Levels -/

/-- Two levels differ at most in the ids that they give and in the orders in which they list slots. -/
structure Level.Rearranged (l m : Level) : Prop where
  board : List.Forall₂ Term.Rearranged l.board m.board
  toolbox : List.Forall₂ Term.Rearranged l.toolbox m.toolbox
  defs : List.Forall₂ Term.Rearranged l.defs m.defs
  goal : List.Forall₂ Term.Rearranged l.goal m.goal

/-- Rearranged levels load alike. -/
theorem Level.Rearranged.agrees_load {l m : Level} (h : l.Rearranged m) (S : Signature)
    (index : Nat) : (l.load S index).Agrees (m.load S index) := by
  have hload (ts us : List Term) (h : List.Forall₂ Term.Rearranged ts us) :
      (ts.mapM (Term.load S)).Agrees (us.mapM (Term.load S)) :=
    Editing.agrees_mapM (fun _ _ h => h.agrees_load) h
  have hbuild : (l.build S index).Agrees (m.build S index) := by
    rw [build, build]
    exact (hload _ _ h.board).bind fun _ => (hload _ _ h.toolbox).bind fun _ =>
      (hload _ _ h.goal).bind fun _ => (hload _ _ h.defs).bind fun _ => .refl _
  rw [load_eq, load_eq]
  exact (hbuild ∅).bind fun _ => .refl _

namespace LevelFile

/-- Two files list rearranged levels. -/
def Rearranged (L M : LevelFile) : Prop := List.Forall₂ Level.Rearranged L.levels M.levels

theorem Rearranged.rel_getElem? {L M : LevelFile} (h : L.Rearranged M) (index : Nat) :
    Option.Rel Level.Rearranged L.levels[index]? M.levels[index]? := by
  unfold Rearranged at h
  generalize L.levels = levels, M.levels = others at h
  induction h generalizing index with
  | nil => exact .none
  | cons hl _ ih =>
    cases index with
    | zero => exact .some hl
    | succ index => exact ih index

/-- From whichever id on, exactly the levels that are valid load, and rearranged levels load to the
same state and leave the same next id. -/
theorem load_iff_valid (S : Signature) (L : LevelFile) (index next : Nat) :
    ((∃ s next', (L.load S index).runFrom next = (.ok s, next')) ↔
      ∃ l, L.levels[index]? = some l ∧ l.Valid S) ∧
    ∀ M : LevelFile, L.Rearranged M →
      ((L.load S index).runFrom next).1.toOption = ((M.load S index).runFrom next).1.toOption ∧
      ((L.load S index).runFrom next).2 = ((M.load S index).runFrom next).2 := by
  refine ⟨?_, fun M h => ?_⟩
  · cases hl : L.levels[index]? with
    | none => simp [load, hl]
    | some l => simpa [load, hl] using Level.exists_load_iff_valid S l index next
  · have hlevels := h.rel_getElem? index
    unfold load
    generalize L.levels[index]? = level, M.levels[index]? = other at hlevels
    cases hlevels with
    | none => exact ⟨rfl, rfl⟩
    | some h => exact h.agrees_load S index next

/-- A sum of two numbers. -/
def sum : LevelFile where
  levels := [{ board := [.binop "+" (.number 1) (.number 2)] }]

/-- The same sum with ids of its own, and the right operand first. -/
def sumReversed : LevelFile where
  levels := [{ board := [.mk (some 7) "binop" ((∅ : Fields).insert "op" (.text "+"))
    (.cons "right" (.number 2) (.cons "left" (.number 1) .nil))] }]

theorem load_iff_valid_sum : sum.Rearranged sumReversed ∧
    (∃ l, sum.levels[0]? = some l ∧ l.Valid .standard) ∧
    ∃ s, ((sum.load .standard 0).runFrom 1) = (.ok s, 4) ∧
      ((sumReversed.load .standard 0).runFrom 1) = (.ok s, 4) := by
  have hrearranged : sum.Rearranged sumReversed :=
    .cons ⟨.cons (.of_perm (by decide) (by decide)) .nil, .nil, .nil, .nil⟩ .nil
  have hrun : (((sum.load .standard 0).runFrom 1).1.toOption.isSome = true) ∧
      ((sum.load .standard 0).runFrom 1).2 = 4 := by
    decide +kernel
  obtain ⟨s, hs⟩ := Option.isSome_iff_exists.1 hrun.1
  have hload : (sum.load .standard 0).runFrom 1 = (.ok s, 4) :=
    Prod.ext (toOption_eq_some_iff.1 hs) hrun.2
  obtain ⟨hiff, hsame⟩ := load_iff_valid .standard sum 0 1
  obtain ⟨hresult, hnext⟩ := hsame sumReversed hrearranged
  exact ⟨hrearranged, hiff.1 ⟨s, 4, hload⟩, s, hload,
    Prod.ext (toOption_eq_some_iff.1 (hresult ▸ hs)) (hnext ▸ hrun.2)⟩

end LevelFile

end TermForest
