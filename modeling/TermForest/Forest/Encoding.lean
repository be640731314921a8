import TermForest.Digest.Sha256
import TermForest.Forest.Basic

/-!
# Canonical encoding of forests

A forest as a list of bytes, node by node in the order of ids. Texts and lists carry their lengths
in front, and values a mark of their sort, so that no two encodings run into each other. The digest
of these bytes tells forests apart.
-/

namespace TermForest

namespace Encoding

open Bytes (nat64)

/-- A text with its length in bytes before it. -/
def text (s : String) : List UInt8 :=
  nat64 s.utf8ByteSize ++ s.toUTF8.data.toList

/-- A truth value in one byte. -/
def bool (b : Bool) : List UInt8 := [if b then 1 else 0]

mutual

/-- A field value after the mark of its sort. -/
def datum : Datum → List UInt8
  | .bool b => 0x01 :: bool b
  | .int n => 0x02 :: nat64 n.toUInt64.toNat
  | .text s => 0x03 :: text s
  | .list items => 0x04 :: nat64 items.length ++ data items

/-- Field values one after the other. -/
def data : List Datum → List UInt8
  | [] => []
  | d :: ds => datum d ++ data ds

end

/-- A node. An absent parent counts as 0, and an absent parent slot as the empty text. -/
def node (n : Node) : List UInt8 :=
  nat64 n.id ++ text n.kind.tag ++ nat64 (n.parent.getD 0) ++ text (n.parentSlot.getD "") ++
    bool n.locked ++
    nat64 n.fields.size ++ n.fields.toList.flatMap (fun e => text e.1 ++ datum e.2) ++
    nat64 n.slots.size ++ n.slots.entries.flatMap (fun e => text e.1 ++ nat64 e.2)

end Encoding

namespace Forest

/-- The canonical encoding of a forest. -/
def encode (F : Forest) : List UInt8 := F.toList.flatMap Encoding.node

/-- The digest of a forest, in hexadecimal digits. -/
def digest (F : Forest) : String := Sha256.hex F.encode

end Forest

end TermForest
