/-!
# Numbers as bytes

Numbers of 64 bits in eight bytes, the highest byte first.
-/

namespace TermForest

namespace Bytes

/-- A number in eight bytes, the highest first. -/
def nat64 (n : Nat) : List UInt8 :=
  [(n >>> 56).toUInt8, (n >>> 48).toUInt8, (n >>> 40).toUInt8, (n >>> 32).toUInt8,
    (n >>> 24).toUInt8, (n >>> 16).toUInt8, (n >>> 8).toUInt8, n.toUInt8]

@[simp] theorem length_nat64 (n : Nat) : (nat64 n).length = 8 := rfl

end Bytes

end TermForest
