import Mathlib.Data.List.Perm.Subperm
import Mathlib.Data.Set.Function
import TermForest.Proofs.Level.Load
import TermForest.Proofs.State.Move

/-!
# The end of a level

A level is won when the terms on the board are those that the goals ask for, one for each goal. The
search takes for each goal the first root of its shape. It finds a root for every goal whenever there
is a way to do so, since roots of one shape can stand for each other.
-/

namespace TermForest

/-- The trees at two ids have the same kinds, fields and slots throughout. -/
def Forest.Alike (F : Forest) (x y : NodeId) : Prop :=
  ∃ t u : Plant, F.Holds t ∧ F.Holds u ∧ t.id = x ∧ u.id = y ∧ t.shape = u.shape

namespace State

/-- There are goals, and the roots on the board are matched with them one to one. -/
def Won (s : State) : Prop :=
  s.goal ≠ [] ∧ ∃ f : NodeId → NodeId, Set.BijOn f {x | x ∈ s.goal} {x | x ∈ s.board} ∧
    ∀ x ∈ s.goal, s.nodes.Alike x (f x)

/-- The toolbox is empty, and the trees on the board are normal and have no holes. -/
def Lost (s : State) : Prop :=
  s.toolbox = [] ∧ ∀ root ∈ s.board, ∃ t : Plant, s.nodes.Holds t ∧ t.id = root ∧ t.Normal ∧
    ∀ n ∈ t.nodes, n.kind ≠ .hole

/-! ### Matching by shape -/

section

variable {α : Type} {key : NodeId → α} {ids goals : List NodeId}

/-- The item that was taken out and the others are all the items. -/
theorem takeOut_perm {i : Nat} (hi : i < ids.length) : (ids[i] :: takeOut ids i).Perm ids := by
  obtain rfl | ⟨init, last, rfl⟩ := ids.eq_nil_or_concat'
  · cases hi
  have hlast : (init ++ [last]).getLastD 0 = last := by simp
  have hend : (init ++ [last]).Perm (last :: init) := List.perm_append_singleton last init
  rw [takeOut, hlast]
  by_cases hlt : i < init.length
  · rw [List.getElem_append_left hlt, List.set_append_left _ _ hlt, List.dropLast_concat]
    calc
      (init[i] :: init.set i last).Perm (init[i] :: last :: init.eraseIdx i) :=
        (List.set_perm_cons_eraseIdx hlt last).cons _
      _ |>.Perm (last :: init[i] :: init.eraseIdx i) := .swap ..
      _ |>.Perm (last :: init) := (List.getElem_cons_eraseIdx_perm hlt).cons _
      _ |>.Perm (init ++ [last]) := hend.symm
  · obtain rfl : i = init.length := by
      rw [List.length_append, List.length_singleton] at hi
      omega
    simp [hend.symm]

/-- A list is matched with another one item by item, up to the order of the other. -/
theorem exists_bijOn_of_forall₂ {l l' : List NodeId} (h : List.Forall₂ (fun x y => key x = key y) l l')
    (hl : l.Nodup) (hl' : l'.Nodup) :
    ∃ f : NodeId → NodeId, Set.BijOn f {x | x ∈ l} {x | x ∈ l'} ∧ ∀ x ∈ l, key x = key (f x) := by
  induction h with
  | nil => exact ⟨id, by simp, List.forall_mem_nil _⟩
  | @cons a b l l' hab _ ih =>
    rw [List.nodup_cons] at hl hl'
    obtain ⟨f, hf, hkey⟩ := ih hl.2 hl'.2
    have hupdate : Set.EqOn f (Function.update f a b) {x | x ∈ l} := by
      intro x hx
      rw [Function.update_of_ne]
      rintro rfl
      exact hl.1 hx
    refine ⟨Function.update f a b, ?_, ?_⟩
    · have hinsert := (hf.congr hupdate).insert (a := a) (by simpa using hl'.1)
      simpa [Set.insert_def] using hinsert
    · intro x hx
      rcases List.mem_cons.1 hx with rfl | hx
      · rwa [Function.update_self]
      · rw [← hupdate hx, hkey x hx]

/-- Two lists have the same keys, in any order, if their items can be paired by key. -/
theorem map_perm_iff (hids : ids.Nodup) (hgoals : goals.Nodup) :
    (goals.map key).Perm (ids.map key) ↔
      ∃ f : NodeId → NodeId, Set.BijOn f {x | x ∈ goals} {x | x ∈ ids} ∧
        ∀ x ∈ goals, key x = key (f x) := by
  constructor
  · intro h
    -- a list with the keys of the goals, item by item, that has the same items as `ids`
    obtain ⟨paired, hkeys, hperm⟩ :
        Relation.Comp (· = List.map key ·) List.Perm (goals.map key) ids := by
      rwa [List.eq_map_comp_perm]
    have hpairs : List.Forall₂ (· = ·) (goals.map key) (paired.map key) := by
      rw [List.forall₂_eq_eq_eq, hkeys]
    rw [List.forall₂_map_left_iff, List.forall₂_map_right_iff] at hpairs
    obtain ⟨f, hf, hkey⟩ := exists_bijOn_of_forall₂ hpairs hgoals (hperm.nodup_iff.2 hids)
    refine ⟨f, ?_, hkey⟩
    simpa only [hperm.mem_iff] using hf
  · rintro ⟨f, hf, hkey⟩
    have hperm : (goals.map f).Perm ids := by
      apply (List.perm_ext_iff_of_nodup (hgoals.map_on hf.injOn) hids).2
      intro x
      rw [List.mem_map]
      constructor
      · rintro ⟨y, hy, rfl⟩
        exact hf.mapsTo hy
      · intro hx
        exact hf.surjOn hx
    calc
      goals.map key = (goals.map f).map key := by
        rw [List.map_map]
        exact List.map_congr_left hkey
      _ |>.Perm (ids.map key) := hperm.map key

end

/-! ### The search -/

section

variable {F : Forest} {key : NodeId → Shape}

open Classical in
/-- The search finds the first root of the shape of a goal. -/
theorem matching?_eq {ids : List NodeId} {t : Plant} (ht : F.Holds t) (hn : t.ids.Nodup)
    (hids : ∀ x ∈ ids, ∃ u : Plant, F.Holds u ∧ u.ids.Nodup ∧ u.id = x ∧ u.shape = key x) :
    matching? F t.id ids = .ok (ids.findIdx? fun x => t.shape = key x) := by
  induction ids with
  | nil => rfl
  | cons x ids ih =>
    rw [List.forall_mem_cons] at hids
    obtain ⟨⟨u, hu, hnu, rfl, hkey⟩, hids⟩ := hids
    obtain ⟨same, hsame, hiff⟩ := ht.sameShape hn hu hnu
    rw [matching?, hsame, ok_bind, List.findIdx?_cons, ← hkey]
    cases same with
    | true => rw [if_pos rfl, if_pos (decide_eq_true (hiff.1 rfl))]; rfl
    | false =>
      rw [if_neg (by decide), ih hids, if_neg]
      · rfl
      · simpa using hiff

/-- Every goal gets a root of its own if there are enough roots of each shape. -/
theorem exists_goalsMatch {goals ids : List NodeId}
    (hgoals : ∀ x ∈ goals, ∃ u : Plant, F.Holds u ∧ u.ids.Nodup ∧ u.id = x ∧ u.shape = key x)
    (hids : ∀ x ∈ ids, ∃ u : Plant, F.Holds u ∧ u.ids.Nodup ∧ u.id = x ∧ u.shape = key x) :
    ∃ b, goalsMatch F goals ids = .ok b ∧
      (b = true ↔ (goals.map key).Subperm (ids.map key)) := by
  induction goals generalizing ids with
  | nil => exact ⟨true, rfl, by simp⟩
  | cons goal goals ih =>
    rw [List.forall_mem_cons] at hgoals
    obtain ⟨⟨t, ht, hn, rfl, hkey⟩, hgoals⟩ := hgoals
    rw [goalsMatch, matching?_eq ht hn hids, ok_bind, hkey]
    cases hfound : ids.findIdx? _ with
    | none =>
      refine ⟨false, rfl, ?_⟩
      rw [List.findIdx?_eq_none_iff] at hfound
      suffices key t.id ∉ ids.map key by
        simpa using fun hsub => this (hsub.subset List.mem_cons_self)
      intro hmem
      obtain ⟨x, hx, hshape⟩ := List.mem_map.1 hmem
      simpa [hshape] using hfound x hx
    | some i =>
      obtain ⟨hi, hshape, -⟩ := List.findIdx?_eq_some_iff_getElem.1 hfound
      have hperm := takeOut_perm hi
      obtain ⟨b, hb, hiff⟩ := ih hgoals fun x hx => hids x (hperm.subset (List.mem_cons_of_mem _ hx))
      refine ⟨b, hb, hiff.trans ?_⟩
      have hkeys : (key t.id :: (takeOut ids i).map key).Perm (ids.map key) := by
        have hshape : key t.id = key ids[i] := by simpa using hshape
        rw [hshape, ← List.map_cons]
        exact hperm.map key
      rw [List.map_cons, ← hkeys.subperm_left, List.subperm_cons]

end

/-! ### Verdicts -/

namespace Kept

variable {s : State} {next : Nat} {S : Signature} {key : NodeId → Shape}

/-- The shapes of the trees of a state. -/
theorem exists_key (h : s.Kept next) : ∃ key : NodeId → Shape, ∀ x ∈ s.roots,
    ∃ u : Plant, s.nodes.Holds u ∧ u.ids.Nodup ∧ u.id = x ∧ u.shape = key x := by
  have hroot : ∀ x : NodeId, ∃ shape : Shape, x ∈ s.roots →
      ∃ u : Plant, s.nodes.Holds u ∧ u.ids.Nodup ∧ u.id = x ∧ u.shape = shape := by
    intro x
    by_cases hx : x ∈ s.roots
    · obtain ⟨n, hn, -⟩ := h.exists_root hx
      obtain ⟨u, rfl, hu, -, hnodup, -⟩ := Forest.Kept.exists_plant h hn
      exact ⟨u.shape, fun _ => ⟨u, hu, hnodup, Forest.id_of_get? hn, rfl⟩⟩
    · exact ⟨.mk .void ∅ [] [], fun hx' => absurd hx' hx⟩
  choose key hkey using hroot
  exact ⟨key, hkey⟩

/-- A level is won if goals and board have the same shapes. -/
theorem won_iff (h : s.Kept next)
    (hkey : ∀ x ∈ s.roots, ∃ u : Plant, s.nodes.Holds u ∧ u.ids.Nodup ∧ u.id = x ∧ u.shape = key x) :
    s.Won ↔ s.goal ≠ [] ∧ (s.goal.map key).Perm (s.board.map key) := by
  have halike : ∀ {x y : NodeId}, x ∈ s.roots → y ∈ s.roots →
      (s.nodes.Alike x y ↔ key x = key y) := by
    intro x y hx hy
    obtain ⟨t, ht, -, rfl, ht'⟩ := hkey x hx
    obtain ⟨u, hu, -, rfl, hu'⟩ := hkey y hy
    rw [← ht', ← hu']
    constructor
    · rintro ⟨t', u', hheld, hheld', hid, hid', hshape⟩
      rwa [hheld.unique ht hid, hheld'.unique hu hid'] at hshape
    · exact fun hshape => ⟨t, u, ht, hu, rfl, rfl, hshape⟩
  rw [map_perm_iff h.nodup_areas.1.1 h.nodup_areas.1.2.2.2]
  apply and_congr_right fun _ => exists_congr fun f => and_congr_right fun hf => ?_
  apply forall₂_congr
  intro x hx
  exact halike (mem_roots_iff.2 (.inr (.inr (.inr hx)))) (mem_roots_of_board (hf.mapsTo hx))

theorem exists_isSolved (h : s.Kept next) : ∃ b, s.isSolved = .ok b ∧ (b = true ↔ s.Won) := by
  obtain ⟨key, hkey⟩ := h.exists_key
  rw [h.won_iff hkey, isSolved]
  split
  · next hno =>
    refine ⟨false, rfl, ?_⟩
    have hlen : (s.goal.map key).Perm (s.board.map key) → s.goal.length = s.board.length :=
      fun hperm => by simpa using hperm.length_eq
    simp only [Bool.false_eq_true, false_iff, not_and]
    exact fun hgoal hperm => hno.elim hgoal fun hne => hne (hlen hperm)
  · next hyes =>
    rw [not_or, not_not] at hyes
    obtain ⟨b, hb, hiff⟩ := exists_goalsMatch
      (fun x hx => hkey x (mem_roots_iff.2 (.inr (.inr (.inr hx)))))
      fun x hx => hkey x (mem_roots_of_board hx)
    refine ⟨b, hb, hiff.trans ?_⟩
    constructor
    · exact fun hsub => ⟨hyes.1, hsub.perm_of_length_le (by simp [hyes.2])⟩
    · exact fun hperm => hperm.2.subperm

theorem exists_isStuck (h : s.Kept next) (hS : S.Full) :
    ∃ b, s.isStuck S = .ok b ∧ (b = true ↔ s.Lost) := by
  rw [isStuck, Lost]
  by_cases htoolbox : s.toolbox = []
  · rw [if_neg (not_not.2 htoolbox)]
    simp only [htoolbox, true_and]
    apply exists_allM_ok_iff
    intro r hr
    obtain ⟨n, hn, -⟩ := h.exists_board hr
    obtain ⟨t, rfl, ht, -, hnodup, -, hf⟩ := Forest.Kept.exists_plant h hn
    obtain rfl := Forest.id_of_get? hn
    have hshows := ht.tree_shows hnodup
    have hunique : (∃ u : Plant, s.nodes.Holds u ∧ u.id = t.root.id ∧ u.Normal ∧
        ∀ n ∈ u.nodes, n.kind ≠ .hole) ↔ t.Normal ∧ ∀ n ∈ t.nodes, n.kind ≠ .hole := by
      constructor
      · rintro ⟨u, hu, hid, hnormal⟩
        obtain rfl := hu.unique ht hid
        exact hnormal
      · exact fun hnormal => ⟨t, ht, rfl, hnormal⟩
    obtain ⟨b, hb⟩ := hshows.exists_isNormal hS hf
    rw [hunique, Plant.id_root, Signature.isNormal, hb, ok_bind, ht.findAll hnodup]
    cases b with
    | false =>
      refine ⟨false, rfl, ?_⟩
      have hnot : ¬t.Normal := by
        intro hnormal
        rw [hshows.isNormal_of_normal hS hf hnormal] at hb
        cases hb
      simp [hnot]
    | true => exact ⟨_, rfl, by simp [hshows.normal_of_isNormal hb]⟩
  · rw [if_pos htoolbox]
    exact ⟨false, rfl, by simp [htoolbox]⟩

open Classical in
/-- The verdict on a level that is being played. -/
theorem detectCompletion_eq (h : s.Kept next) (hS : S.Full) :
    s.detectCompletion S = .ok (
      if s.mode ≠ .gameplay then none
      else if s.Won then some { s.settled with mode := .victory }
      else if s.Lost then some { s.settled with mode := .defeat }
      else none) := by
  obtain ⟨solved, hsolved, hwon⟩ := h.exists_isSolved
  obtain ⟨stuck, hstuck, hlost⟩ := h.exists_isStuck hS
  rw [detectCompletion, hsolved, hstuck, ok_bind]
  by_cases hmode : s.mode = .gameplay
  · rw [if_neg (not_not.2 hmode), if_neg (not_not.2 hmode)]
    simp only [← hwon, ← hlost]
    cases solved <;> cases stuck <;> simp
  · rw [if_pos hmode, if_pos hmode]
    rfl

/-- Finding out how a level stands changes nothing but its mode. -/
theorem ends_detectCompletion (h : s.Kept next) (S : Signature) :
    Ends (s.detectCompletion S) (fun o => ∀ s', o = some s' → s'.Kept next) fun _ => ¬S.Full := by
  unfold State.detectCompletion
  split
  · exact .pure nofun
  · obtain ⟨solved, hsolved, -⟩ := h.exists_isSolved
    rw [hsolved, ok_bind]
    cases solved with
    | true => exact .pure fun s' hs' => Option.some.inj hs' ▸ h
    | false =>
      rw [if_neg (by decide)]
      refine Ends.bind (Q := fun _ => True) ?_ fun stuck _ => ?_
      · cases hstuck : s.isStuck S with
        | ok b => trivial
        | error e =>
          intro hS
          obtain ⟨b, hb, -⟩ := h.exists_isStuck hS
          rw [hb] at hstuck
          cases hstuck
      · cases stuck
        · exact .pure nofun
        · exact .pure fun s' hs' => Option.some.inj hs' ▸ h

end Kept

/-- The verdict on a state: victory when it is won, otherwise defeat when it is lost, otherwise none;
and none unless the level is being played. A verdict changes the mode and clears what the last step
reported, and does not depend on the order of goals and board. -/
structure Verdict (s : State) (S : Signature) : Prop where
  victory : s.mode = .gameplay → s.Won →
    s.detectCompletion S = .ok (some { s with mode := .victory, added := [], removed := [] })
  defeat : s.mode = .gameplay → ¬s.Won → s.Lost →
    s.detectCompletion S = .ok (some { s with mode := .defeat, added := [], removed := [] })
  undecided : s.mode = .gameplay → ¬s.Won → ¬s.Lost → s.detectCompletion S = .ok none
  closed : s.mode ≠ .gameplay → s.detectCompletion S = .ok none
  order : ∀ board goal, board.Perm s.board → goal.Perm s.goal →
    ({ s with board, goal }.detectCompletion S).map (Option.map mode) =
      (s.detectCompletion S).map (Option.map mode)

variable {s : State} {next : Nat} {S : Signature}

theorem won_of_perm {board goal : List NodeId} (hb : board.Perm s.board) (hg : goal.Perm s.goal) :
    { s with board, goal }.Won ↔ s.Won := by
  have hnil : goal ≠ [] ↔ s.goal ≠ [] := by
    rw [← List.length_pos_iff, ← List.length_pos_iff, hg.length_eq]
  simp only [Won, hb.mem_iff, hg.mem_iff, hnil]

theorem lost_of_perm {board : List NodeId} (goal : List NodeId) (hb : board.Perm s.board) :
    { s with board, goal }.Lost ↔ s.Lost := by
  simp only [Lost, hb.mem_iff]

/-- Finding out how the level of a well-formed state stands gives the right verdict. -/
theorem WellFormed.verdict (h : s.WellFormed next) (hS : S.Full) : s.Verdict S := by
  have hkept := h.kept
  constructor
  · intro hmode hwon
    rw [hkept.detectCompletion_eq hS, if_neg (not_not.2 hmode), if_pos hwon]
    rfl
  · intro hmode hwon hlost
    rw [hkept.detectCompletion_eq hS, if_neg (not_not.2 hmode), if_neg hwon, if_pos hlost]
    rfl
  · intro hmode hwon hlost
    rw [hkept.detectCompletion_eq hS, if_neg (not_not.2 hmode), if_neg hwon, if_neg hlost]
  · intro hmode
    rw [hkept.detectCompletion_eq hS, if_pos hmode]
  · intro board goal hb hg
    have hroots : (board ++ s.toolbox ++ s.defs ++ goal).Perm s.roots :=
      ((hb.append_right _).append_right _).append hg
    have hkept' : { s with board, goal }.Kept next :=
      Forest.Kept.relist hkept (hroots.nodup_iff.2 hkept.nodup) (fun _ => hroots.mem_iff)
        fun _ => Iff.rfl
    have hwon := won_of_perm hb hg
    have hlost := lost_of_perm goal hb
    rw [hkept'.detectCompletion_eq hS, hkept.detectCompletion_eq hS]
    by_cases hm : s.mode = .gameplay
    · rw [if_neg (not_not.2 hm), if_neg (not_not.2 hm)]
      by_cases hw : s.Won
      · rw [if_pos (hwon.2 hw), if_pos hw]
        rfl
      · rw [if_neg (hw ∘ hwon.1), if_neg hw]
        by_cases hl : s.Lost
        · rw [if_pos (hlost.2 hl), if_pos hl]
          rfl
        · rw [if_neg (hl ∘ hlost.1), if_neg hl]
    · rw [if_pos hm, if_pos hm]

/-- A level that is won at once: the goals and the board list the same terms, one of them twice. -/
def pairing : Level := {
  board := [.number 5, .number 7, .number 5]
  goal := [.number 5, .number 5, .number 7] }

theorem distinct_pairing : ∀ t ∈ pairing.terms, t.Distinct := by
  simp [pairing, Level.terms, Term.number, Term.withField, Term.ofTag, Term.parts, Term.tag,
    Term.Distinct, Terms.Distinct, Kind.tag]

/-- Equal goals are matched with equal roots of their own. -/
theorem verdict_pairing : ∃ s, (pairing.load .standard 0).runFrom 1 = (.ok s, 7) ∧
    s.WellFormed 7 ∧ s.Won ∧ s.Verdict .standard := by
  have hrun : ((pairing.load .standard 0).runFrom 1).2 = 7 ∧
      ((pairing.load .standard 0).runFrom 1).1.toOption.map (fun s =>
        (s.mode, (s.detectCompletion .standard).toOption.map (Option.map mode))) =
        some (.gameplay, some (some .victory)) := by
    decide +kernel
  have hmeets := Level.meets_load Signature.tagsReferences_standard distinct_pairing 0 (Nat.le_refl 1)
  obtain ⟨hnext, hrun⟩ := hrun
  obtain ⟨s, hs, hrun⟩ := Option.map_eq_some_iff.1 hrun
  have hload : (pairing.load .standard 0).runFrom 1 = (.ok s, 7) :=
    Prod.ext (toOption_eq_some_iff.1 hs) hnext
  have hwell := ((hmeets.of_ok hload).2).wellFormed (by decide)
  have hverdict := hwell.verdict Signature.full_standard
  refine ⟨s, hload, hwell, ?_, hverdict⟩
  obtain ⟨hmode, hvictory⟩ := Prod.ext_iff.1 hrun
  by_contra hwon
  by_cases hlost : s.Lost
  · rw [hverdict.defeat hmode hwon hlost] at hvictory
    simp [Except.toOption] at hvictory
  · rw [hverdict.undecided hmode hwon hlost] at hvictory
    simp [Except.toOption] at hvictory

end State

end TermForest
