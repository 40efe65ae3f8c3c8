import ForkChoice.Bls.Encoding
import ForkChoice.Bls.HashToCurve
import ForkChoice.Bls.Pairing
import ForkChoice.SignatureScheme

/-!
# ForkChoice — BLS signatures

Secret keys are residues modulo the group order, public keys are points of the first group, and
signatures are points of the second curve. Signatures of one message by several keys add up to a
signature that verifies under the sum of the public keys.

* `SecretKey`, `PublicKey`, `Signature` — with reading, writing and addition;
* `SecretKey.sign`, `Signature.verify`, `Signature.verifyAll`, `Signature.multiVerify` — checks;
* `Bls.scheme` — the scheme for the 32 bytes of a root as message.
-/

namespace ForkChoice

namespace Bls

/-- A secret key: a number that is neither zero nor as great as the group order. -/
structure SecretKey where
  scalar : Nat
  deriving DecidableEq

/-- A public key: a point of the first group. -/
structure PublicKey where
  point : G1.Point
  deriving DecidableEq, Inhabited, Repr

/-- A signature: a point of the second curve, possibly outside the second group. -/
structure Signature where
  point : G2.Point
  deriving DecidableEq, Inhabited, Repr

namespace SecretKey

/-- Reads 32 big-endian bytes. -/
def ofBytes (bytes : Root) : Except SignatureError SecretKey :=
  if 0 < bytes.toNat ∧ bytes.toNat < groupOrder then .ok ⟨bytes.toNat⟩ else .error .invalidSecretKey

/-- The 32 big-endian bytes. -/
def toBytes (key : SecretKey) : Root := BitVec.ofNat 256 key.scalar

/-- The public key that belongs to the secret key. -/
def publicKey (key : SecretKey) : PublicKey := ⟨G1.generatorTimes key.scalar⟩

/-- The signature of a message whose point is known. -/
def signPoint (key : SecretKey) (point : G2.Point) : Signature := ⟨point.times key.scalar⟩

/-- The signature of a message. -/
def sign (key : SecretKey) (message : List UInt8) : Signature :=
  key.signPoint (hashToGroup message)

end SecretKey

namespace PublicKey

/-- Reads a point of the first group that is not at infinity. -/
def ofBytes (bytes : PublicKeyBytes) : Except SignatureError PublicKey :=
  match G1.decompress? bytes with
  | some point =>
    if point.isInfinity || !point.inGroup then .error .invalidPublicKey else .ok ⟨point⟩
  | none => .error .invalidPublicKey

/-- The compressed point. -/
def toBytes (key : PublicKey) : PublicKeyBytes := G1.compress key.point

/-- The key under which sums of signatures verify. -/
def aggregate (key other : PublicKey) : PublicKey := ⟨key.point.add other.point⟩

/-- The sum of at least one key. -/
def aggregateAll : List PublicKey → Except SignatureError PublicKey
  | [] => .error .noPublicKeysToAggregate
  | key :: keys => .ok (keys.foldl aggregate key)

end PublicKey

namespace Signature

/-- Reads a point of the second curve. -/
def ofBytes (bytes : SignatureBytes) : Except SignatureError Signature :=
  match G2.decompress? bytes with
  | some point => .ok ⟨point⟩
  | none => .error .invalidSignature

/-- The compressed point. -/
def toBytes (signature : Signature) : SignatureBytes := G2.compress signature.point

/-- The signature without signers. -/
def empty : Signature := ⟨.infinity⟩

/-- The sum of two signatures. -/
def aggregate (signature other : Signature) : Signature := ⟨signature.point.add other.point⟩

/-- The sum of signatures, if there are any. -/
def aggregateAll? : List Signature → Option Signature
  | [] => none
  | signature :: signatures => some (signatures.foldl aggregate signature)

/-- Whether the signature is in the second group and verifies for a message whose point is
known. -/
def verifyPoint (signature : Signature) (message : G2.Point) (key : PublicKey) : Bool :=
  !key.point.isInfinity && signature.point.inGroup
    && pairingProductIsOne [(key.point, message), (G1.generator.neg, signature.point)]

/-- Whether the signature verifies for the message under the key. -/
def verify (signature : Signature) (message : List UInt8) (key : PublicKey) : Bool :=
  signature.verifyPoint (hashToGroup message) key

/-- Whether the signature verifies for the message under the sum of the keys. -/
def verifyAll (signature : Signature) (message : List UInt8) (keys : List PublicKey) :
    Bool :=
  match PublicKey.aggregateAll keys with
  | .ok key => signature.verify message key
  | .error _ => false

/-- Whether each signature verifies for its message under its key. -/
def multiVerify (messages : List (List UInt8)) (signatures : List Signature)
    (keys : List PublicKey) : Bool :=
  signatures.isEmpty ||
    (messages.length = signatures.length && keys.length = signatures.length
      && ((signatures.zip messages).zip keys).all fun ((signature, message), key) =>
        signature.verify message key)

end Signature

/-- The compressed signature without signers. -/
def emptySignatureBytes : SignatureBytes := Signature.empty.toBytes

/-- BLS signatures of roots. -/
@[reducible] def scheme : SignatureScheme where
  PublicKey := PublicKey
  Signature := Signature
  readKey? bytes := (PublicKey.ofBytes bytes).toOption
  writeKey := PublicKey.toBytes
  readSignature? bytes := (Signature.ofBytes bytes).toOption
  addKeys := PublicKey.aggregate
  addSignatures := Signature.aggregate
  verify signature message key := signature.verify (Bytes.ofBitVec message) key
  verifyAll signature message keys := signature.verifyAll (Bytes.ofBitVec message) keys

end Bls

end ForkChoice
