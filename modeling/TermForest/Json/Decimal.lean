/-!
# Decimal numbers

A number of a text is kept as a significand below `2 ^ 64` and a power of ten. Digits that do not
fit the significand count by their place alone.
-/

namespace TermForest

namespace Json

/-! ### Digits -/

/-- The value of a decimal digit. -/
def digitValue (d : Char) : Nat := d.toNat - '0'.toNat

/-- Appends digits to a number while the result stays below `2 ^ 64`; the other part is the digits
that are left. -/
def takeDigits (m : Nat) : List Char → Nat × List Char
  | [] => (m, [])
  | d :: ds =>
    let m' := m * 10 + digitValue d
    if m' < UInt64.size then takeDigits m' ds else (m, d :: ds)

/-- The significand and the power of ten for the digits before and behind a point and an exponent.
Each whole digit that is left out counts as one power more. -/
def scale (whole fraction : List Char) (exponent : Int) : Nat × Int :=
  let (m, left) := takeDigits 0 whole
  let (m, unused) := takeDigits m fraction
  (m, exponent + left.length - (fraction.length - unused.length : Nat))

/-! ### Range -/

/-- The number of 53 binary digits, with zeros behind them, that is nearest to a number. Of two the
one with an even last digit is taken. -/
def roundBinary (n : Nat) : Nat :=
  let k := n.log2 + 1 - 53
  let q := n >>> k
  let place := Nat.pow 2 k
  let r := n % place
  (if place < 2 * r ∨ (2 * r = place ∧ q % 2 = 1) then q + 1 else q) <<< k

/-- Whether `m * 10 ^ e` lies beyond the binary numbers of 64 bits: both factors are rounded to such
numbers, and so is their product, which must not come to `2 ^ 1024`. -/
def tooLarge (m : Nat) (e : Int) : Bool :=
  if m = 0 ∨ e < 0 then false
  else if 308 < e then true
  else Nat.pow 2 1024 - Nat.pow 2 970 ≤ roundBinary m * roundBinary (Nat.pow 10 e.toNat)

end Json

end TermForest
