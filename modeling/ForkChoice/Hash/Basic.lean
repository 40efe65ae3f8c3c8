import ForkChoice.Bytes
import ForkChoice.Checked

/-!
# ForkChoice — hashing of byte strings

Everything that is hashed is a concatenation of byte strings of known length, in which numbers
are written in little-endian order. The hash function is a parameter: nothing in the chain rules
looks inside it.

* `HashFunction` — the parameter;
* `hashPair`, `hashWord`, … — the concatenations that the chain hashes;
* `wordChunk` — a word as the leaf of a hash tree.
-/

namespace ForkChoice

/-- A function from byte strings to 32 bytes. -/
class HashFunction where
  digest : {width : Nat} → BitVec width → Root

/-- A 32-bit number in little-endian order. -/
def halfWordBytes (value : UInt32) : BitVec 32 :=
  BitVec.ofNat 32 (Bytes.toNat (Bytes.littleEndian 4 value.toNat))

/-- A word as a leaf: its little-endian bytes and zeros after them. -/
def wordChunk (value : UInt64) : Root :=
  wordBytes value ++ 0#192

/-- A truth value as a leaf. -/
def boolChunk (value : Bool) : Root :=
  wordChunk (if value then 1 else 0)

/-- Four bytes as a leaf. -/
def versionChunk (value : Version) : Root :=
  value ++ 0#224

/-- The first 64 bits of a byte string as a little-endian number. -/
def leadingWord (root : Root) : UInt64 :=
  UInt64.ofNat (Bytes.toNat ((Bytes.ofBitVec root).take 8).reverse)

section

variable [HashFunction]

/-- The hash of two roots, as at an inner node of a hash tree. -/
def hashPair (left right : Root) : Root :=
  HashFunction.digest (left ++ right)

/-- The hash of a word. -/
def hashWord (value : UInt64) : Root :=
  HashFunction.digest (wordBytes value)

/-- The hash of a root. -/
def hashRoot (root : Root) : Root :=
  HashFunction.digest root

/-- The hash of a root and a byte. -/
def hashRootByte (root : Root) (byte : UInt8) : Root :=
  HashFunction.digest (root ++ byte.toBitVec)

/-- The hash of a root and a word. -/
def hashRootWord (root : Root) (value : UInt64) : Root :=
  HashFunction.digest (root ++ wordBytes value)

/-- The hash of a root, a byte and a 32-bit number. -/
def hashRootByteHalfWord (root : Root) (byte : UInt8) (value : UInt32) : Root :=
  HashFunction.digest (root ++ byte.toBitVec ++ halfWordBytes value)

/-- The hash of four bytes, a word and a root. -/
def hashDomainWordRoot (domain : DomainType) (value : UInt64) (root : Root) : Root :=
  HashFunction.digest (domain ++ wordBytes value ++ root)

/-- The hash of 48 bytes. -/
def hashPublicKey (bytes : PublicKeyBytes) : Root :=
  HashFunction.digest bytes

end

end ForkChoice
