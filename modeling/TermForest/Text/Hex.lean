/-!
# Hexadecimal digits

Numbers and bytes in base 16, in lower case.
-/

namespace TermForest

namespace Hex

/-- The digit of a number below 16. -/
def digit (n : Nat) : Char :=
  if n < 10 then Char.ofNat ('0'.toNat + n) else Char.ofNat ('a'.toNat + (n - 10))

/-- The digits of a number, at least one. -/
def digits (n : Nat) : List Char := Nat.toDigits 16 n

/-- The two digits of a byte. -/
def byte (b : UInt8) : List Char := [digit (b.toNat / 16), digit (b.toNat % 16)]

end Hex

end TermForest
