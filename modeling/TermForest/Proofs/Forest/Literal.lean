import TermForest.Proofs.Forest.Hung
import TermForest.Proofs.Forest.Relabel

/-!
# Literals

Numbers, truth values, strings and symbols stand for themselves. A forest is plain when its literals
have the fields of their kinds and nothing hangs on them: they have no slots, and no node names one as
its parent, be it held or not. A node that names a parent names a slot too. A node that is put in keeps a
forest plain when it takes the place of a node of its kind, when it is no literal, or when it is a literal
of a new id.
-/

namespace TermForest

/-- The kinds of terms that stand for themselves. -/
def Kind.IsLiteral (k : Kind) : Prop := k ∈ [number, boolean, string, symbol]

instance : DecidablePred Kind.IsLiteral := fun k =>
  inferInstanceAs (Decidable (k ∈ [Kind.number, .boolean, .string, .symbol]))

theorem Kind.isLiteral_iff {k : Kind} :
    k.IsLiteral ↔ k = .number ∨ k = .boolean ∨ k = .string ∨ k = .symbol := by
  simp [IsLiteral]

namespace Node

variable {n n' : Node}

/-- A literal has the fields of its kind and no slots. -/
def Plain (n : Node) : Prop := n.kind.IsLiteral → n.HasFields ∧ n.slots.entries = []

theorem plain_of_not_literal (h : ¬n.kind.IsLiteral) : n.Plain := fun hk => absurd hk h

/-- What holds something is no literal. -/
theorem Plain.not_literal (h : n.Plain) {slot : String} {c : NodeId}
    (hc : n.slots.get? slot = some c) : ¬n.kind.IsLiteral := fun hk => by
  rw [Slots.get?, (h hk).2] at hc
  cases hc

theorem declaredSlots_of_literal (h : n.kind.IsLiteral) : n.declaredSlots = [] := by
  rcases Kind.isLiteral_iff.1 h with hk | hk | hk | hk <;> rw [declaredSlots, hk]

theorem HasFields.congr (h : n.HasFields) (hk : n'.kind = n.kind) (hf : n'.fields = n.fields) :
    n'.HasFields := by
  have hfield : ∀ key, n'.field? key = n.field? key := fun key => by rw [field?, hf, field?]
  obtain ⟨ht, ho⟩ := h
  exact ⟨by simpa only [hk, hfield] using ht, by simpa only [hk, text?, hfield] using ho⟩

/-- Being plain depends on the kind, the fields and the names of the slots alone. -/
theorem Plain.congr (h : n.Plain) (hk : n'.kind = n.kind) (hf : n'.fields = n.fields)
    (hs : n'.slots.names = n.slots.names) : n'.Plain := fun hlit => by
  obtain ⟨hfields, hslots⟩ := h (hk ▸ hlit)
  refine ⟨hfields.congr hk hf, ?_⟩
  rw [← List.length_eq_zero_iff] at hslots ⊢
  exact (Slots.length_names n'.slots).symm.trans
    ((congrArg List.length hs).trans ((Slots.length_names n.slots).trans hslots))

/-- Setting a name leaves a literal plain. -/
theorem Plain.withName (h : n.Plain) (s : String) : (n.withField "name" (.text s)).Plain := by
  intro hlit
  obtain ⟨⟨ht, ho⟩, hslots⟩ := h hlit
  refine ⟨⟨fun key hkey => ?_, fun hk => ?_⟩, hslots⟩
  · rw [field?_withField]
    split
    · next hname => exact ⟨.text s, rfl, by simp [hname, Kind.takes, Datum.text?]⟩
    · exact ht key hkey
  · rw [text?, field?_withField, if_neg (by decide)]
    exact ho hk

end Node

namespace Plant

/-- Plants of one shape are plain together. -/
theorem plain_of_shape_eq {t u : Plant} (hs : u.shape = t.shape) (h : ∀ v ∈ t.subs, v.root.Plain) :
    ∀ v ∈ u.subs, v.root.Plain := by
  induction t using induct generalizing u with
  | step root parts ih =>
    obtain ⟨root', parts'⟩ := u
    obtain ⟨hk, hf, hn, hp⟩ := root_of_shape_eq hs
    intro v hv
    rcases mem_subs_mk.1 hv with rfl | ⟨p, hmem, hv⟩
    · exact (h _ (mem_subs_self _)).congr hk hf hn
    · have hshape : p.shape ∈ parts.map shape := hp ▸ List.mem_map_of_mem hmem
      obtain ⟨q, hq, hqp⟩ := List.mem_map.1 hshape
      exact ih q hq hqp.symm (fun w hw => h w (mem_subs_mk.2 (.inr ⟨q, hq, hw⟩))) v hv

end Plant

namespace Forest

/-- Literals have the fields of their kinds and nothing hangs on them, and what names no slot names no
parent. -/
structure Plain (F : Forest) : Prop where
  nodes : ∀ x n, F.get? x = some n → n.Plain
  parentSlots : ∀ x n, F.get? x = some n → n.parentSlot = none → n.parent = none
  parents : ∀ x n p m, F.get? x = some n → n.parent = some p → F.get? p = some m →
    ¬m.kind.IsLiteral

/-- A root may come in when it is no literal, or one with the fields of its kind and no slots that no
node names as its parent. -/
def Admits (F : Forest) (n : Node) : Prop :=
  n.kind.IsLiteral → n.HasFields ∧ n.slots.entries = [] ∧
    ∀ x m, F.get? x = some m → m.parent ≠ some n.id

variable {F G : Forest} {next : Nat} {x : NodeId} {n m : Node} {t u : Plant}

theorem admits_of_not_literal (h : ¬n.kind.IsLiteral) : F.Admits n := fun hk => absurd hk h

/-- A literal of an id that is not handed out yet may come in. -/
theorem Hung.admits (h : F.Hung next) (hid : next ≤ n.id) (hf : n.HasFields)
    (hs : n.slots.entries = []) : F.Admits n :=
  fun _ => ⟨hf, hs, fun x m hm hp => absurd (h.parent_lt x m hm _ hp) (Nat.not_lt.2 hid)⟩

theorem plain_empty : (∅ : Forest).Plain := by
  constructor <;> intros <;> simp_all

namespace Plain

/-- A part of a plain forest is plain. -/
theorem mono (h : F.Plain) (hG : ∀ x n, G.get? x = some n → F.get? x = some n) : G.Plain where
  nodes x n hn := h.nodes x n (hG x n hn)
  parentSlots x n hn := h.parentSlots x n (hG x n hn)
  parents x n p m hn hp hm := h.parents x n p m (hG x n hn) hp (hG p m hm)

theorem erase (h : F.Plain) (x : NodeId) : (F.erase x).Plain := h.mono fun y n hn => by
  rw [get?_erase] at hn
  split at hn
  · cases hn
  · exact hn

theorem eraseAll (h : F.Plain) (ids : List NodeId) : (F.eraseAll ids).Plain :=
  h.mono fun _ _ hn => (get?_eraseAll_eq_some_iff.1 hn).2

/-- A plain node that names no literal as its parent comes into a plain forest, if no node names it as
a parent while it is a literal. -/
theorem insert (h : F.Plain) (hn : n.Plain) (hslot : n.parentSlot = none → n.parent = none)
    (hparent : ∀ p m, n.parent = some p → F.get? p = some m → ¬m.kind.IsLiteral)
    (hself : n.kind.IsLiteral → n.parent ≠ some n.id ∧ ∀ x m, F.get? x = some m →
      m.parent ≠ some n.id) : (F.insert n).Plain where
  nodes x m hm := by
    rw [get?_insert] at hm
    split at hm
    · exact Option.some.inj hm ▸ hn
    · exact h.nodes x m hm
  parentSlots x m hm := by
    rw [get?_insert] at hm
    split at hm
    · exact Option.some.inj hm ▸ hslot
    · exact h.parentSlots x m hm
  parents x k p m hk hp hm := by
    rw [get?_insert] at hk hm
    split at hm <;> split at hk
    · next hid _ =>
      cases hk
      cases hm
      exact fun hlit => (hself hlit).1 (hid ▸ hp)
    · next hid _ =>
      cases hm
      exact fun hlit => (hself hlit).2 x k hk (hid ▸ hp)
    · cases hk
      exact hparent p m hp hm
    · exact h.parents x k p m hk hp hm

/-- A node takes the place of one of its kind. -/
theorem insert_same (h : F.Plain) (hm : F.get? n.id = some m) (hk : n.kind = m.kind) (hn : n.Plain)
    (hslot : n.parentSlot = none → n.parent = none)
    (hparent : ∀ p m, n.parent = some p → F.get? p = some m → ¬m.kind.IsLiteral) :
    (F.insert n).Plain :=
  h.insert hn hslot hparent fun hlit => ⟨fun hp => hparent _ m hp hm (hk ▸ hlit),
    fun x k hx hp => h.parents x k _ m hx hp hm (hk ▸ hlit)⟩

/-- A node that is no literal comes in. -/
theorem insert_other (h : F.Plain) (hk : ¬n.kind.IsLiteral)
    (hslot : n.parentSlot = none → n.parent = none)
    (hparent : ∀ p m, n.parent = some p → F.get? p = some m → ¬m.kind.IsLiteral) :
    (F.insert n).Plain :=
  h.insert (Node.plain_of_not_literal hk) hslot hparent fun hlit => absurd hlit hk

/-- A root comes in. -/
theorem insert_root (h : F.Plain) (hn : F.Admits n) (hp : n.parent = none) :
    (F.insert n).Plain := by
  refine h.insert (fun hlit => ⟨(hn hlit).1, (hn hlit).2.1⟩) (fun _ => hp) (fun p m hp' => ?_)
    fun hlit => ⟨?_, ?_⟩
  · cases hp.symm.trans hp'
  · rw [hp]
    nofun
  · exact (hn hlit).2.2

/-- A node may be pointed at one that is no literal. -/
theorem heldBy (h : F.Plain) (slot : String) (hn : F.get? x = some n) {p : NodeId}
    (hp : ∀ m, F.get? p = some m → ¬m.kind.IsLiteral) : (F.insert (n.heldBy p slot)).Plain := by
  obtain rfl := id_of_get? hn
  refine h.insert_same hn rfl ((h.nodes _ n hn).congr rfl rfl rfl) nofun fun q m hq hm => ?_
  cases hq
  exact hp m hm

/-- A plain plant of new nodes comes in. -/
theorem insertAll (h : F.Plain) (hn : u.ids.Nodup) (hj : u.Joined) (hroot : u.root.parent = none)
    (hu : ∀ v ∈ u.subs, v.root.Plain)
    (hnew : ∀ x m p, F.get? x = some m → m.parent = some p → p ∉ u.ids) :
    (F.insertAll u.nodes).Plain where
  nodes x m hm := by
    rcases get?_insertAll_cases hn hm with ⟨v, hv, -, rfl⟩ | hm
    · exact hu v hv
    · exact h.nodes x m hm
  parentSlots x m hm hs := by
    rcases get?_insertAll_cases hn hm with ⟨v, hv, -, rfl⟩ | hm
    · rcases Plant.eq_or_mem_parts hv with rfl | ⟨w, hw, hvw⟩
      · exact hroot
      · obtain ⟨slot, -, -, hslot⟩ := (hj w hw).exists_entry hvw
        cases hslot.symm.trans hs
    · exact h.parentSlots x m hm hs
  parents x k p m hk hp hm := by
    rcases get?_insertAll_cases hn hk with ⟨v, hv, -, rfl⟩ | hk
    · rcases Plant.eq_or_mem_parts hv with rfl | ⟨w, hw, hvw⟩
      · cases hroot.symm.trans hp
      · -- the parent is the node above in the plant, and it holds something
        obtain ⟨slot, hslot, hparent, -⟩ := (hj w hw).exists_entry hvw
        cases hparent.symm.trans hp
        cases (get?_insertAll_nodes hn hw).symm.trans hm
        exact (hu w hw).not_literal (Slots.get?_eq_some_iff.2 hslot)
    · rcases get?_insertAll_cases hn hm with ⟨v, hv, rfl, -⟩ | hm
      · exact absurd (Plant.mem_ids_iff.2 ⟨v, hv, rfl⟩) (hnew x k _ hk hp)
      · exact h.parents x k p m hk hp hm

end Plain

/-- A plant of a plain forest is plain. -/
theorem Holds.plain (ht : F.Holds t) (h : F.Plain) : ∀ v ∈ t.subs, v.root.Plain :=
  fun _ hv => h.nodes _ _ (ht.of_mem_subs hv).get?_id

end Forest

end TermForest
