import Mathlib.Tactic.SplitIfs
import TermForest.Json.Reader
import TermForest.Json.Writer

/-!
# Texts and numbers of JSON read back

A text that is written in quotes is read up to its closing quote, whatever follows. A whole number is
read up to its last digit, if what follows could not belong to it.
-/

namespace TermForest

namespace Json

/-! ### Texts -/

/-- The value of a digit as it is written. -/
theorem hexValue?_digit : ∀ d < 16, hexValue? (Hex.digit d) = some d := by decide

/-- A control character is read from the number that is written for it. -/
theorem readUnits_control {c : Char} (h : c.toNat < 0x20) (rest : List Char) :
    readUnits ('\\' :: 'u' :: '0' :: '0' :: Hex.byte c.toNat.toUInt8 ++ rest) =
      (readUnits rest).bind fun r => some (c.toNat :: r.1, r.2) := by
  have hbyte : c.toNat.toUInt8.toNat = c.toNat := by
    simp [Nat.toUInt8]
    omega
  have hhigh := hexValue?_digit (c.toNat / 16) (by omega)
  have hlow := hexValue?_digit (c.toNat % 16) (by omega)
  have hzero : hexValue? '0' = some 0 := by decide
  rw [Hex.byte, hbyte]
  simp only [List.cons_append, List.nil_append, readUnits, hzero, hhigh, hlow, Option.bind_eq_bind,
    Option.bind_some]
  have hvalue : 0 * 4096 + 0 * 256 + c.toNat / 16 * 16 + c.toNat % 16 = c.toNat := by omega
  rw [hvalue]
  rfl

/-- A character that stands for itself. -/
theorem readUnits_plain {c : Char} (hquote : c ≠ '"') (hslash : c ≠ '\\') (h : ¬c.toNat < 0x20)
    (rest : List Char) :
    readUnits (c :: rest) = (readUnits rest).bind fun r => some (c.toNat :: r.1, r.2) := by
  rw [readUnits.eq_def]
  split
  case h_5 c' rest' _ _ _ he =>
    obtain ⟨rfl, rfl⟩ := List.cons.inj he
    rw [if_neg h]
    rfl
  all_goals simp_all

/-- A character that is written is read as one unit. -/
theorem readUnits_escape (c : Char) (rest : List Char) :
    readUnits (escape c ++ rest) = (readUnits rest).bind fun r => some (c.toNat :: r.1, r.2) := by
  unfold escape
  split_ifs with hquote hslash hnewline hreturn htab hback hfeed hcontrol
  case pos => subst hquote; rfl
  case pos => subst hslash; rfl
  case pos => subst hnewline; rfl
  case pos => subst hreturn; rfl
  case pos => subst htab; rfl
  case pos => rw [hback]; rfl
  case pos => rw [hfeed]; rfl
  case pos => exact readUnits_control hcontrol rest
  case neg => exact readUnits_plain hquote hslash hcontrol rest

theorem readUnits_flatMap_escape (cs rest : List Char) :
    readUnits (cs.flatMap escape ++ '"' :: rest) = some (cs.map Char.toNat, rest) := by
  induction cs with
  | nil => rw [List.flatMap_nil, List.nil_append, readUnits, List.map_nil]
  | cons c cs ih =>
    rw [List.flatMap_cons, List.append_assoc, readUnits_escape, ih]
    rfl

/-- A character is no surrogate. -/
theorem ofUnits?_map_toNat (cs : List Char) : ofUnits? (cs.map Char.toNat) = some cs := by
  induction cs with
  | nil => rfl
  | cons c cs ih =>
    have hc : c.toNat < 0xD800 ∨ 0xDFFF < c.toNat := c.valid.imp id And.left
    rw [List.map_cons, ofUnits?.eq_def]
    simp [hc, ih, Char.ofNat_toNat]

theorem readText_quote (s : String) (rest : List Char) :
    readText (s.toList.flatMap escape ++ '"' :: rest) = some (some s, rest) := by
  simp [readText, readUnits_flatMap_escape, ofUnits?_map_toNat]

/-! ### Numbers -/

/-- What follows a number could not be part of it. -/
def Closes (rest : List Char) : Prop :=
  ∀ c ∈ rest.head?, c.isDigit = false ∧ c ≠ '.' ∧ c ≠ 'e' ∧ c ≠ 'E'

theorem closes_nil : Closes [] := nofun

theorem closes_cons {c : Char} (h : c.isDigit = false ∧ c ≠ '.' ∧ c ≠ 'e' ∧ c ≠ 'E')
    (rest : List Char) : Closes (c :: rest) := by
  rintro _ ⟨⟩
  exact h

theorem isDigit_of_mem_digits {n : Nat} {c : Char} (h : c ∈ Nat.toDigits 10 n) : c.isDigit = true :=
  Nat.isDigit_of_mem_toDigits (by decide) (by decide) h

theorem digitValue_digitChar : ∀ d < 10, digitValue d.digitChar = d := by decide

theorem digitChar_ne_zero : ∀ d < 10, 0 < d → d.digitChar ≠ '0' := by decide

/-- Digits that can all be taken are taken one after the other. -/
theorem takeDigits_append {m m' : Nat} {ds : List Char} (h : takeDigits m ds = (m', []))
    (ds' : List Char) : takeDigits m (ds ++ ds') = takeDigits m' ds' := by
  induction ds generalizing m with
  | nil =>
    cases h
    rfl
  | cons d ds ih =>
    rw [takeDigits] at h
    rw [List.cons_append, takeDigits]
    split at h
    · next hlt => rw [if_pos hlt, ih h]
    · cases h

/-- The digits of a number of 64 bits come to this number. -/
theorem takeDigits_digits {n : Nat} (h : n < UInt64.size) :
    takeDigits 0 (Nat.toDigits 10 n) = (n, []) := by
  induction n using Nat.strongRecOn with
  | ind n ih =>
    have hlast : ∀ m, m * 10 + n % 10 < UInt64.size →
        takeDigits m [(n % 10).digitChar] = (m * 10 + n % 10, []) := by
      intro m hm
      have hvalue := digitValue_digitChar (n % 10) (Nat.mod_lt n (by decide))
      simp only [takeDigits, hvalue, if_pos hm]
    by_cases hn : n < 10
    · rw [Nat.toDigits_of_lt_base hn]
      simpa [Nat.mod_eq_of_lt hn] using hlast 0 (by omega)
    · have hlt : n / 10 < n := Nat.div_lt_self (by omega) (by decide)
      rw [Nat.toDigits_of_base_le (by decide) (Nat.le_of_not_lt hn),
        takeDigits_append (ih (n / 10) hlt (by omega)), hlast (n / 10) (by omega),
        Nat.mul_comm, Nat.div_add_mod]

/-- The digits of a number that is not zero do not begin with a zero. -/
theorem exists_digits_eq {n : Nat} (hpos : 0 < n) :
    ∃ d ds, Nat.toDigits 10 n = d :: ds ∧ d.isDigit = true ∧ d ≠ '0' := by
  induction n using Nat.strongRecOn with
  | ind n ih =>
    by_cases hn : n < 10
    · refine ⟨_, [], Nat.toDigits_of_lt_base hn, ?_, digitChar_ne_zero n hn hpos⟩
      rw [Nat.isDigit_digitChar]
      exact decide_eq_true hn
    · have hlt : n / 10 < n := Nat.div_lt_self (by omega) (by decide)
      obtain ⟨d, ds, hds, hd⟩ := ih (n / 10) hlt (by omega)
      refine ⟨d, ds ++ [(n % 10).digitChar], ?_, hd⟩
      rw [Nat.toDigits_of_base_le (by decide) (Nat.le_of_not_lt hn), ← List.cons_append,
        ← hds]

/-- Digits are read up to where they end. -/
theorem readDigits_append {ds rest : List Char} (hne : ds ≠ []) (h : ∀ c ∈ ds, c.isDigit = true)
    (hrest : Closes rest) : readDigits (ds ++ rest) = some (ds, rest) := by
  have hstop : rest.takeWhile Char.isDigit = [] ∧ rest.dropWhile Char.isDigit = rest := by
    cases rest with
    | nil => exact ⟨rfl, rfl⟩
    | cons c rest =>
      have hc := (hrest c rfl).1
      exact ⟨List.takeWhile_cons_of_neg (by simp [hc]), List.dropWhile_cons_of_neg (by simp [hc])⟩
  rw [readDigits, List.takeWhile_append_of_pos h, List.dropWhile_append_of_pos h, hstop.1, hstop.2,
    List.append_nil, if_neg hne]

theorem readWhole_digits (n : Nat) {rest : List Char} (h : Closes rest) :
    readWhole (Nat.toDigits 10 n ++ rest) = some (Nat.toDigits 10 n, rest) := by
  rcases Nat.eq_zero_or_pos n with rfl | hpos
  · rfl
  · have hread := readDigits_append Nat.toDigits_ne_nil (fun c => isDigit_of_mem_digits (n := n)) h
    obtain ⟨d, ds, hds, -, hd⟩ := exists_digits_eq hpos
    rw [hds, List.cons_append] at hread ⊢
    rw [readWhole.eq_def]
    split
    · next he => exact absurd (List.cons.inj he).1 hd
    · exact hread

/-- The digits of a number of 64 bits make up a whole number, after a sign or without one. -/
theorem readUnsigned_digits {n : Nat} (hn : n < UInt64.size) (negative : Bool) {rest : List Char}
    (h : Closes rest) : readUnsigned negative (Nat.toDigits 10 n ++ rest) =
      if !negative then some (.int n, rest)
      else if 0 < n ∧ 2 * n ≤ UInt64.size then some (.int (-(n : Int)), rest)
      else some (.decimal n 0, rest) := by
  have hfraction : readFraction rest = some ([], rest) := by
    rw [readFraction.eq_def]
    split
    · exact absurd rfl (h '.' rfl).2.1
    · rfl
  have hexponent : readExponent rest = some (none, rest) := by
    rw [readExponent.eq_def]
    split
    · exact absurd rfl (h 'e' rfl).2.2.1
    · exact absurd rfl (h 'E' rfl).2.2.2
    · rfl
  have hscale : scale (Nat.toDigits 10 n) [] 0 = (n, 0) := by
    simp [scale, takeDigits_digits hn, takeDigits]
  simp only [readUnsigned, readWhole_digits n h, hfraction, hexponent, Option.bind_eq_bind,
    Option.bind_some, Option.getD_none, hscale]
  simp

theorem toList_toString_ofNat (m : Nat) :
    (toString (Int.ofNat m)).toList = Nat.toDigits 10 m := Nat.toList_repr

theorem toList_toString_negSucc (m : Nat) :
    (toString (Int.negSucc m)).toList = '-' :: Nat.toDigits 10 (m + 1) := by
  show ("-" ++ (m + 1).repr).toList = _
  rw [String.toList_append, Nat.toList_repr]
  rfl

/-- A character with which a number begins. -/
def BeginsNumber (c : Char) : Prop := c = '-' ∨ c.isDigit = true

theorem BeginsNumber.ne {c c' : Char} (h : BeginsNumber c) (h' : c'.isDigit = false)
    (hne : c' ≠ '-') : c ≠ c' := by
  rintro rfl
  rcases h with rfl | h
  · exact hne rfl
  · rw [h] at h'
    cases h'

theorem exists_toDigits_eq (n : Nat) : ∃ d ds, Nat.toDigits 10 n = d :: ds ∧ d.isDigit = true := by
  obtain ⟨d, ds, hds⟩ := List.exists_cons_of_ne_nil (Nat.toDigits_ne_nil (n := n) (b := 10))
  exact ⟨d, ds, hds, isDigit_of_mem_digits (hds ▸ List.mem_cons_self)⟩

theorem exists_toString_eq (n : Int) : ∃ c cs, (toString n).toList = c :: cs ∧ BeginsNumber c := by
  cases n with
  | ofNat m =>
    obtain ⟨d, ds, hds, hd⟩ := exists_toDigits_eq m
    exact ⟨d, ds, (toList_toString_ofNat m).trans hds, .inr hd⟩
  | negSucc m => exact ⟨'-', _, toList_toString_negSucc m, .inl rfl⟩

/-- A whole number between `-2 ^ 63` and `2 ^ 64 - 1` is read as it is written. -/
theorem readNumber_toString {n : Int} (hlow : -(UInt64.size : Int) ≤ 2 * n)
    (hhigh : n < (UInt64.size : Int)) {rest : List Char} (h : Closes rest) :
    readNumber ((toString n).toList ++ rest) = some (.int n, rest) := by
  cases n with
  | ofNat m =>
    have hread := readUnsigned_digits (n := m) (by rw [Int.ofNat_eq_natCast] at hhigh; omega) false h
    rw [toList_toString_ofNat, readNumber.eq_def]
    split
    · next he =>
      obtain ⟨d, ds, hds, hd⟩ := exists_toDigits_eq m
      rw [hds, List.cons_append] at he
      exact absurd ((List.cons.inj he).1 ▸ hd : Char.isDigit '-' = true) (by decide)
    · exact hread
  | negSucc m =>
    have hread := readUnsigned_digits (n := m + 1) (by omega) true h
    rw [toList_toString_negSucc, List.cons_append, readNumber, hread, Bool.not_true,
      if_neg (by decide), if_pos (by omega)]
    rfl

end Json

end TermForest
