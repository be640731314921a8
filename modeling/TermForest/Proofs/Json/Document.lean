import Mathlib.Data.List.Basic
import TermForest.Proofs.Json.Text

/-!
# Documents read back

A document whose texts are made of characters and whose numbers are whole is read from the text that
is written for it, in either style.
-/

namespace TermForest

namespace Json

/-! ### Plain documents -/

mutual

/-- All texts are made of characters, and all numbers are whole ones of 64 bits. -/
def Plain : Json → Prop
  | .null | .bool _ => True
  | .int n => -(UInt64.size : Int) ≤ 2 * n ∧ n < (UInt64.size : Int)
  | .decimal .. => False
  | .text t => t.isSome = true
  | .array items => AllPlain items
  | .object members => MembersPlain members

/-- All items of a list are plain. -/
def AllPlain : List Json → Prop
  | [] => True
  | j :: js => j.Plain ∧ AllPlain js

/-- All members of a list are plain, and so are their keys. -/
def MembersPlain : List (Option String × Json) → Prop
  | [] => True
  | (key, j) :: ms => key.isSome = true ∧ j.Plain ∧ MembersPlain ms

end

theorem allPlain_iff {js : List Json} : AllPlain js ↔ ∀ j ∈ js, j.Plain := by
  induction js with
  | nil => simp [AllPlain]
  | cons j js ih => simp [AllPlain, ih]

theorem plain_record_iff {ms : List (String × Json)} :
    (record ms).Plain ↔ ∀ m ∈ ms, m.2.Plain := by
  show MembersPlain _ ↔ _
  induction ms with
  | nil => simp [MembersPlain]
  | cons m ms ih => simp [MembersPlain, ih]

/-! ### Blanks -/

/-- Nothing but blanks stands before the parts and closing brackets, and nothing else follows the
colon before a value. -/
structure Style.Blank (st : Style) : Prop where
  gap : ∀ depth, ∀ c ∈ st.gap depth, isBlank c = true
  colon : ∃ blanks, st.colon = ':' :: blanks ∧ ∀ c ∈ blanks, isBlank c = true

theorem blank_compact : Style.compact.Blank where
  gap _ := List.forall_mem_nil _
  colon := ⟨[], rfl, List.forall_mem_nil _⟩

theorem blank_indented : Style.indented.Blank where
  gap depth c hc := by
    rcases List.mem_cons.1 hc with rfl | hc
    · rfl
    · rw [List.eq_of_mem_replicate hc]
      rfl
  colon := ⟨[' '], rfl, by simp [isBlank]⟩

theorem skipBlanks_append {blanks : List Char} (h : ∀ c ∈ blanks, isBlank c = true)
    (cs : List Char) : skipBlanks (blanks ++ cs) = skipBlanks cs :=
  List.dropWhile_append_of_pos h

theorem skipBlanks_cons {c : Char} (h : isBlank c = false) (cs : List Char) :
    skipBlanks (c :: cs) = c :: cs :=
  List.dropWhile_cons_of_neg (by simp [h])

theorem skipBlanks_skipBlanks (cs : List Char) : skipBlanks (skipBlanks cs) = skipBlanks cs := by
  induction cs with
  | nil => rfl
  | cons c cs ih =>
    cases h : isBlank c with
    | false => rw [skipBlanks_cons h, skipBlanks_cons h]
    | true =>
      rw [show skipBlanks (c :: cs) = skipBlanks cs from List.dropWhile_cons_of_pos h, ih]

/-- Blanks before a document do not count. -/
theorem read_skipBlanks (steps : Nat) (cs : List Char) :
    read steps (skipBlanks cs) = read steps cs := by
  cases steps with
  | zero => rfl
  | succ steps => simp only [read, skipBlanks_skipBlanks]

theorem readItems_skipBlanks (steps : Nat) (cs : List Char) :
    readItems steps (skipBlanks cs) = readItems steps cs := by
  cases steps with
  | zero => rfl
  | succ steps => simp only [readItems, read_skipBlanks]

theorem readMembers_skipBlanks (steps : Nat) (cs : List Char) :
    readMembers steps (skipBlanks cs) = readMembers steps cs := by
  cases steps with
  | zero => rfl
  | succ steps => simp only [readMembers, skipBlanks_skipBlanks]

theorem read_append {blanks : List Char} (h : ∀ c ∈ blanks, isBlank c = true) (steps : Nat)
    (cs : List Char) : read steps (blanks ++ cs) = read steps cs := by
  rw [← read_skipBlanks, skipBlanks_append h, read_skipBlanks]

/-! ### First characters -/

theorem BeginsNumber.not_blank {c : Char} (h : BeginsNumber c) : isBlank c = false := by
  simp only [isBlank, decide_eq_false_iff_not, not_or]
  exact ⟨h.ne rfl (by decide), h.ne rfl (by decide), h.ne rfl (by decide), h.ne rfl (by decide)⟩

theorem read_number {c : Char} (h : BeginsNumber c) (steps : Nat) (cs : List Char) :
    read (steps + 1) (c :: cs) = readNumber (c :: cs) := by
  rw [read, skipBlanks_cons h.not_blank]
  split
  case h_7 => rfl
  all_goals
    next he => exact absurd (List.cons.inj he).1 (h.ne rfl (by decide))

/-! ### Documents -/

/-- The first part of a list between brackets, and what follows it. -/
theorem intercalate_map_cons (gap : List Char) (p : List Char) (ps : List (List Char)) :
    List.intercalate [','] ((p :: ps).map (gap ++ ·)) =
      gap ++ p ++ if ps = [] then [] else ',' :: List.intercalate [','] (ps.map (gap ++ ·)) := by
  cases ps with
  | nil => simp
  | cons q qs => simp [List.intercalate_cons_cons]

/-- What follows an opening bracket is read as items, unless the bracket is closed at once. -/
theorem read_array {cs : List Char} (h : ∀ cs', skipBlanks cs ≠ ']' :: cs') (steps : Nat) :
    read (steps + 1) ('[' :: cs) = (readItems steps cs).bind fun r => some (.array r.1, r.2) := by
  rw [← readItems_skipBlanks, read, skipBlanks_cons rfl]
  split
  case h_5 rest he =>
    obtain rfl := (List.cons.inj he).2
    split
    · next rest' he' => exact absurd he' (h rest')
    · rfl
  case h_7 => exact (‹∀ rest, '[' :: cs = '[' :: rest → False› cs rfl).elim
  all_goals
    next he => exact absurd (List.cons.inj he).1 (by decide)

theorem read_object {cs : List Char} (h : ∀ cs', skipBlanks cs ≠ '}' :: cs') (steps : Nat) :
    read (steps + 1) ('{' :: cs) = (readMembers steps cs).bind fun r => some (.object r.1, r.2) := by
  rw [← readMembers_skipBlanks, read, skipBlanks_cons rfl]
  split
  case h_6 rest he =>
    obtain rfl := (List.cons.inj he).2
    split
    · next rest' he' => exact absurd he' (h rest')
    · rfl
  case h_7 => exact (‹∀ rest, '{' :: cs = '{' :: rest → False› cs rfl).elim
  all_goals
    next he => exact absurd (List.cons.inj he).1 (by decide)

theorem quote_append (s : String) (rest : List Char) :
    quote s ++ rest = '"' :: (s.toList.flatMap escape ++ '"' :: rest) := by
  simp [quote]

theorem read_text (s : String) (steps : Nat) (rest : List Char) :
    read (steps + 1) (quote s ++ rest) = some (.text (some s), rest) := by
  have hread : ∀ cs, read (steps + 1) ('"' :: cs) =
      (readText cs).bind fun r => some (.text r.1, r.2) := fun _ => rfl
  rw [quote_append, hread, readText_quote]
  rfl

/-- What follows a key is a colon, a value, and a comma or a closing brace. -/
theorem readMembers_quote (key : String) (steps : Nat) (cs : List Char) :
    readMembers (steps + 1) (quote key ++ cs) =
      match skipBlanks cs with
      | ':' :: rest => (read steps rest).bind fun r =>
        match skipBlanks r.2 with
        | '}' :: rest => some ([(some key, r.1)], rest)
        | ',' :: rest =>
          (readMembers steps rest).bind fun r' => some ((some key, r.1) :: r'.1, r'.2)
        | _ => none
      | _ => none := by
  have hread : ∀ cs, readMembers (steps + 1) ('"' :: cs) =
      (readText cs).bind fun k =>
        match skipBlanks k.2 with
        | ':' :: rest => (read steps rest).bind fun r =>
          match skipBlanks r.2 with
          | '}' :: rest => some ([(k.1, r.1)], rest)
          | ',' :: rest =>
            (readMembers steps rest).bind fun r' => some ((k.1, r.1) :: r'.1, r'.2)
          | _ => none
        | _ => none := fun _ => rfl
  rw [quote_append, hread, readText_quote]
  rfl

section steps

variable {steps : Nat} {cs rest rest' : List Char} {j : Json}

theorem readItems_last (h : read steps cs = some (j, rest)) (hrest : skipBlanks rest = ']' :: rest') :
    readItems (steps + 1) cs = some ([j], rest') := by
  rw [readItems, h, Option.bind_eq_bind, Option.bind_some]
  dsimp only
  rw [hrest]
  rfl

theorem readItems_cons (h : read steps cs = some (j, rest)) (hrest : skipBlanks rest = ',' :: rest')
    {js : List Json} {rest'' : List Char} (htail : readItems steps rest' = some (js, rest'')) :
    readItems (steps + 1) cs = some (j :: js, rest'') := by
  rw [readItems, h, Option.bind_eq_bind, Option.bind_some]
  dsimp only
  rw [hrest]
  show (readItems steps rest').bind _ = _
  rw [htail]
  rfl

variable {key : String} {value : List Char}

theorem readMembers_last (hvalue : skipBlanks value = ':' :: cs) (h : read steps cs = some (j, rest))
    (hrest : skipBlanks rest = '}' :: rest') :
    readMembers (steps + 1) (quote key ++ value) = some ([(some key, j)], rest') := by
  simp only [readMembers_quote, hvalue, h, Option.bind_some, hrest]

theorem readMembers_cons (hvalue : skipBlanks value = ':' :: cs) (h : read steps cs = some (j, rest))
    (hrest : skipBlanks rest = ',' :: rest') {ms : List (Option String × Json)} {rest'' : List Char}
    (htail : readMembers steps rest' = some (ms, rest'')) :
    readMembers (steps + 1) (quote key ++ value) = some ((some key, j) :: ms, rest'') := by
  simp only [readMembers_quote, hvalue, h, Option.bind_some, hrest, htail]

end steps

section write

variable {st : Style} (hst : st.Blank) {steps : Nat} {rest : List Char}

/-- What is written begins with a character that is neither a blank nor a closing bracket. -/
theorem exists_write_eq (st : Style) (depth : Nat) {j : Json} (h : j.Plain) :
    ∃ c cs, j.write st depth = c :: cs ∧ isBlank c = false ∧ c ≠ ']' ∧ c ≠ '}' := by
  cases j with
  | null => exact ⟨_, _, rfl, rfl, by decide, by decide⟩
  | bool b => cases b <;> exact ⟨_, _, rfl, rfl, by decide, by decide⟩
  | int n =>
    obtain ⟨c, cs, hcs, hc⟩ := exists_toString_eq n
    exact ⟨c, cs, hcs, hc.not_blank, hc.ne rfl (by decide), hc.ne rfl (by decide)⟩
  | decimal => exact h.elim
  | text t => exact ⟨_, _, rfl, rfl, by decide, by decide⟩
  | array items =>
    rw [write, enclose]
    split <;> exact ⟨_, _, rfl, rfl, by decide, by decide⟩
  | object members =>
    rw [write, enclose]
    split <;> exact ⟨_, _, rfl, rfl, by decide, by decide⟩

theorem length_write_pos (st : Style) (depth : Nat) {j : Json} (h : j.Plain) :
    0 < (j.write st depth).length := by
  obtain ⟨c, cs, hcs, -⟩ := exists_write_eq st depth h
  rw [hcs]
  exact Nat.succ_pos _

theorem closes_append {blanks : List Char} (h : ∀ c ∈ blanks, isBlank c = true) {c : Char}
    (hc : c.isDigit = false ∧ c ≠ '.' ∧ c ≠ 'e' ∧ c ≠ 'E') (cs : List Char) :
    Closes (blanks ++ c :: cs) := by
  cases blanks with
  | nil => exact closes_cons hc cs
  | cons b blanks =>
    have hb := h b List.mem_cons_self
    simp only [isBlank, decide_eq_true_eq] at hb
    refine closes_cons ?_ _
    rcases hb with rfl | rfl | rfl | rfl <;> decide

include hst

/-- The items of an array do not begin like its end. -/
theorem skipBlanks_writeItems_ne {js : List Json} (hne : js ≠ []) (h : AllPlain js) (depth : Nat)
    (rest cs : List Char) :
    skipBlanks (List.intercalate [','] ((writeItems st depth js).map (st.gap depth ++ ·)) ++ rest) ≠
      ']' :: cs := by
  obtain ⟨j, js, rfl⟩ := List.exists_cons_of_ne_nil hne
  obtain ⟨c, cs', hcs, hblank, hc, -⟩ := exists_write_eq st depth h.1
  rw [writeItems, intercalate_map_cons, List.append_assoc, List.append_assoc,
    skipBlanks_append (hst.gap depth), hcs, List.cons_append, skipBlanks_cons hblank]
  exact fun e => hc (List.cons.inj e).1

/-- The members of an object do not begin like its end. -/
theorem skipBlanks_writeMembers_ne {ms : List (Option String × Json)} (hne : ms ≠ [])
    (depth : Nat) (rest cs : List Char) :
    skipBlanks (List.intercalate [','] ((writeMembers st depth ms).map (st.gap depth ++ ·)) ++ rest) ≠
      '}' :: cs := by
  obtain ⟨⟨key, j⟩, ms, rfl⟩ := List.exists_cons_of_ne_nil hne
  rw [writeMembers, intercalate_map_cons, List.append_assoc, List.append_assoc,
    skipBlanks_append (hst.gap depth), quote]
  simp only [List.cons_append]
  rw [skipBlanks_cons rfl]
  exact fun e => absurd (List.cons.inj e).1 (by decide)

mutual

/-- A plain document is read from what is written for it, up to its end. -/
theorem read_write : ∀ (j : Json) (depth steps : Nat) {rest : List Char}, j.Plain →
    (j.write st depth).length ≤ steps → Closes rest →
    read steps (j.write st depth ++ rest) = some (j, rest)
  | .null, _, _ + 1, _, _, _, _ => rfl
  | .bool true, _, _ + 1, _, _, _, _ => rfl
  | .bool false, _, _ + 1, _, _, _, _ => rfl
  | .int n, _, steps, rest, h, hlen, hrest => by
    obtain ⟨c, cs, hcs, hc⟩ := exists_toString_eq n
    have hread := readNumber_toString h.1 h.2 hrest
    rw [write, hcs, List.length_cons] at hlen
    obtain ⟨steps, rfl⟩ := Nat.exists_eq_add_of_lt hlen
    rw [write, hcs, List.cons_append, read_number hc, ← List.cons_append, ← hcs, hread]
  | .text (some s), _, steps + 1, rest, _, _, _ => by
    rw [write, Option.getD_some, read_text]
  | .array items, depth, steps, rest, h, hlen, hrest => by
    obtain ⟨steps, rfl⟩ : ∃ k, steps = k + 1 := Nat.exists_eq_add_one.2
      (Nat.lt_of_lt_of_le (length_write_pos st depth h) hlen)
    by_cases hitems : items = []
    · subst hitems
      rfl
    have hread := readItems_write items (depth + 1) steps rest hitems h
      (hst.gap depth)
    have hne : writeItems st (depth + 1) items ≠ [] := by
      cases items <;> simp_all [writeItems]
    rw [write, enclose, if_neg hne] at hlen ⊢
    simp only [List.cons_append, List.length_cons, List.length_append, List.length_nil,
      List.append_assoc, List.nil_append] at hlen ⊢
    rw [read_array (skipBlanks_writeItems_ne hst hitems h (depth + 1) _), hread (by omega)]
    rfl
  | .object members, depth, steps, rest, h, hlen, hrest => by
    obtain ⟨steps, rfl⟩ : ∃ k, steps = k + 1 := Nat.exists_eq_add_one.2
      (Nat.lt_of_lt_of_le (length_write_pos st depth h) hlen)
    by_cases hmembers : members = []
    · subst hmembers
      rfl
    have hread := readMembers_write members (depth + 1) steps rest hmembers h
      (hst.gap depth)
    have hne : writeMembers st (depth + 1) members ≠ [] := by
      rcases members with _ | ⟨⟨key, j⟩, ms⟩ <;> simp_all [writeMembers]
    rw [write, enclose, if_neg hne] at hlen ⊢
    simp only [List.cons_append, List.length_cons, List.length_append, List.length_nil,
      List.append_assoc, List.nil_append] at hlen ⊢
    rw [read_object (skipBlanks_writeMembers_ne hst hmembers (depth + 1) _), hread (by omega)]
    rfl

theorem readItems_write : ∀ (js : List Json) (depth steps : Nat) {blanks : List Char}
    (rest : List Char), js ≠ [] → AllPlain js → (∀ c ∈ blanks, isBlank c = true) →
    (List.intercalate [','] ((writeItems st depth js).map (st.gap depth ++ ·))).length < steps →
    readItems steps (List.intercalate [','] ((writeItems st depth js).map (st.gap depth ++ ·)) ++
      (blanks ++ ']' :: rest)) = some (js, rest)
  | [j], depth, steps + 1, blanks, rest, _, h, hblanks, hlen => by
    rw [writeItems, writeItems, intercalate_map_cons, if_pos rfl, List.append_nil] at hlen ⊢
    rw [List.length_append] at hlen
    have hread := read_write j depth steps h.1 (by omega)
      (closes_append hblanks (c := ']') (by decide) rest)
    rw [← read_append (hst.gap depth), ← List.append_assoc] at hread
    exact readItems_last hread ((skipBlanks_append hblanks _).trans (skipBlanks_cons rfl rest))
  | j :: j' :: js, depth, steps + 1, blanks, rest, _, h, hblanks, hlen => by
    rw [writeItems, intercalate_map_cons, if_neg (by simp [writeItems])] at hlen ⊢
    simp only [List.length_append, List.length_cons] at hlen
    have hread := read_write j depth steps h.1 (by omega)
      (closes_cons (c := ',') (by decide) (List.intercalate [',']
        ((writeItems st depth (j' :: js)).map (st.gap depth ++ ·)) ++ (blanks ++ ']' :: rest)))
    have htail := readItems_write (j' :: js) depth steps rest (by simp) h.2
      hblanks (by omega)
    refine readItems_cons ?_ (skipBlanks_cons rfl _) htail
    rw [List.append_assoc, List.append_assoc, read_append (hst.gap depth), List.cons_append, hread]

theorem readMembers_write : ∀ (ms : List (Option String × Json)) (depth steps : Nat)
    {blanks : List Char} (rest : List Char), ms ≠ [] → MembersPlain ms →
    (∀ c ∈ blanks, isBlank c = true) →
    (List.intercalate [','] ((writeMembers st depth ms).map (st.gap depth ++ ·))).length < steps →
    readMembers steps (List.intercalate [','] ((writeMembers st depth ms).map (st.gap depth ++ ·)) ++
      (blanks ++ '}' :: rest)) = some (ms, rest)
  | [(some key, j)], depth, steps + 1, blanks, rest, _, h, hblanks, hlen => by
    obtain ⟨blanks', hcolon, hblanks'⟩ := hst.colon
    rw [writeMembers, writeMembers, intercalate_map_cons, if_pos rfl, List.append_nil] at hlen ⊢
    simp only [List.length_append] at hlen
    have hread := read_write j depth steps h.2.1 (by omega)
      (closes_append hblanks (c := '}') (by decide) rest)
    rw [← read_append hblanks'] at hread
    rw [List.append_assoc, ← readMembers_skipBlanks, skipBlanks_append (hst.gap depth),
      readMembers_skipBlanks, hcolon]
    simp only [Option.getD_some, List.append_assoc, List.cons_append]
    exact readMembers_last (skipBlanks_cons rfl _) hread
      ((skipBlanks_append hblanks _).trans (skipBlanks_cons rfl rest))
  | (some key, j) :: m :: ms, depth, steps + 1, blanks, rest, _, h, hblanks, hlen => by
    obtain ⟨blanks', hcolon, hblanks'⟩ := hst.colon
    rw [writeMembers, intercalate_map_cons, if_neg (by simp [writeMembers])] at hlen ⊢
    simp only [List.length_append, List.length_cons] at hlen
    have hread := read_write j depth steps h.2.1 (by omega)
      (closes_cons (c := ',') (by decide) (List.intercalate [',']
        ((writeMembers st depth (m :: ms)).map (st.gap depth ++ ·)) ++ (blanks ++ '}' :: rest)))
    rw [← read_append hblanks'] at hread
    have htail := readMembers_write (m :: ms) depth steps rest (by simp) h.2.2
      hblanks (by omega)
    rw [List.append_assoc, List.append_assoc, ← readMembers_skipBlanks,
      skipBlanks_append (hst.gap depth), readMembers_skipBlanks, hcolon]
    simp only [Option.getD_some, List.append_assoc, List.cons_append]
    exact readMembers_cons (skipBlanks_cons rfl _) hread (skipBlanks_cons rfl _) htail

end

end write

/-- A plain document is read from the text that is written for it, in either style. -/
theorem parse?_ofList_write {st : Style} (hst : st.Blank) {j : Json} (h : j.Plain) :
    parse? (String.ofList (j.write st 0)) = some j := by
  have hread := read_write hst j 0 _ h (Nat.le_succ _) closes_nil
  rw [List.append_nil] at hread
  rw [parse?, String.toList_ofList, hread]
  rfl

theorem parse?_compact {j : Json} (h : j.Plain) : parse? j.compact = some j :=
  parse?_ofList_write blank_compact h

theorem parse?_indented {j : Json} (h : j.Plain) : parse? j.indented = some j :=
  parse?_ofList_write blank_indented h

end Json

end TermForest
