import ForkChoice.Bytes

/-!
# ForkChoice — signature schemes

Signatures of one message by several keys can be added up to one signature, and keys to one key.
The scheme is a parameter of everything that checks signatures: no more is needed of it than what
is listed here.

* `SignatureScheme` — the parameter;
* `SignatureError` — the errors of reading keys and signatures and of adding up keys.
-/

namespace ForkChoice

/-- Why a key or signature cannot be made. -/
inductive SignatureError where
  | invalidPublicKey
  | invalidSecretKey
  | invalidSignature
  | noPublicKeysToAggregate
  deriving Repr, DecidableEq

/-- The name of the error. -/
def SignatureError.name : SignatureError → String
  | .invalidPublicKey => "InvalidPublicKey"
  | .invalidSecretKey => "InvalidSecretKey"
  | .invalidSignature => "InvalidSignature"
  | .noPublicKeysToAggregate => "NoPublicKeysToAggregate"

/-- The text of the error. -/
def SignatureError.message : SignatureError → String
  | .invalidPublicKey => "invalid public key"
  | .invalidSecretKey => "invalid secret key"
  | .invalidSignature => "invalid signature"
  | .noPublicKeysToAggregate => "no public keys to aggregate"

/-- A scheme in which keys and signatures can be added up. -/
class SignatureScheme where
  PublicKey : Type
  Signature : Type
  /-- The key that 48 bytes stand for, if they stand for one. -/
  readKey? : PublicKeyBytes → Option PublicKey
  /-- The 48 bytes that stand for a key. -/
  writeKey : PublicKey → PublicKeyBytes
  /-- The signature that 96 bytes stand for, if they stand for one. -/
  readSignature? : SignatureBytes → Option Signature
  /-- The sum of two keys. -/
  addKeys : PublicKey → PublicKey → PublicKey
  /-- The sum of two signatures. -/
  addSignatures : Signature → Signature → Signature
  /-- Whether a signature of a message verifies under a key. -/
  verify : Signature → Root → PublicKey → Bool
  /-- Whether a sum of signatures of a message verifies under all keys together. -/
  verifyAll : Signature → Root → List PublicKey → Bool

namespace SignatureScheme

variable [SignatureScheme]

/-- The key that 48 bytes stand for. -/
def readKey (bytes : PublicKeyBytes) : Except SignatureError PublicKey :=
  match readKey? bytes with
  | some key => .ok key
  | none => .error .invalidPublicKey

/-- The signature that 96 bytes stand for. -/
def readSignature (bytes : SignatureBytes) : Except SignatureError Signature :=
  match readSignature? bytes with
  | some signature => .ok signature
  | none => .error .invalidSignature

/-- The sum of at least one key. -/
def sumKeys : List PublicKey → Except SignatureError PublicKey
  | [] => .error .noPublicKeysToAggregate
  | key :: keys => .ok (keys.foldl addKeys key)

end SignatureScheme

end ForkChoice
