import Mathlib.Tactic.Ring
import Mathlib.Data.List.Basic

/-!
# Memory images of 32-bit words

The four bytes a 32-bit word occupies in memory, in either byte order, and the
word that four bytes hold. Two processes that share the order read back what
the other one stored; nothing here depends on which of the two it is.
-/
namespace SindiaRpc

inductive ByteOrder where
  | little | big
  deriving DecidableEq, Repr

namespace ByteOrder

/-- Byte `i` of a word, counted from the least significant one. -/
def byteOf (w : UInt32) (i : ℕ) : UInt8 := UInt8.ofNat (w.toNat / 256 ^ i)

/-- The word with the given bytes, least significant first. -/
def wordOf (a b c d : UInt8) : UInt32 :=
  UInt32.ofNat (a.toNat + 256*b.toNat + 65536*c.toNat + 16777216*d.toNat)

theorem wordOf_byteOf (w : UInt32) :
    wordOf (byteOf w 0) (byteOf w 1) (byteOf w 2) (byteOf w 3) = w := by
  apply UInt32.toNat_inj.mp
  have hw : w.toNat < 4294967296 := w.toNat_lt
  simp only [wordOf,byteOf,UInt32.toNat_ofNat',UInt8.toNat_ofNat',Nat.reducePow,pow_zero,pow_one,
    Nat.div_one]
  omega

def encode : ByteOrder → UInt32 → List UInt8
  | little, w => [byteOf w 0,byteOf w 1,byteOf w 2,byteOf w 3]
  | big, w => [byteOf w 3,byteOf w 2,byteOf w 1,byteOf w 0]

/-- Only four-byte images are ever decoded; any other list reads as zero. -/
def decode : ByteOrder → List UInt8 → UInt32
  | little, [a,b,c,d] => wordOf a b c d
  | big, [a,b,c,d] => wordOf d c b a
  | _, _ => 0

@[simp] theorem length_encode (o : ByteOrder) (w : UInt32) : (o.encode w).length = 4 := by
  cases o <;> rfl

@[simp] theorem decode_encode (o : ByteOrder) (w : UInt32) : o.decode (o.encode w) = w := by
  cases o <;> exact wordOf_byteOf w

end ByteOrder
end SindiaRpc
