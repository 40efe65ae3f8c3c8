import ForkChoice.Chain.Attestation
import ForkChoice.SignatureScheme

/-!
# ForkChoice — folding signatures together

Signatures of one message can be checked at once. Only attestations without common participants
are folded together, as a signature would count twice otherwise.

* `SignatureFold.add` — folds an attestation in, unless it shares a participant;
* `SignatureFold.verify` — checks all signatures at once.
-/

namespace ForkChoice

open SignatureScheme

variable [SignatureScheme]

/-- The attestations that have been folded together. -/
structure SignatureFold where
  /-- The participants of all of them. -/
  bits : Option AggregationBits := none
  keys : List PublicKey := []
  /-- The sum of their signatures. -/
  signature : Option Signature := none

namespace SignatureFold

/-- The number of attestations. -/
def size (f : SignatureFold) : Nat := f.keys.length

/-- Whether there are no attestations. -/
def isEmpty (f : SignatureFold) : Bool := f.keys.isEmpty

/-- Whether an attestation shares a participant with those folded so far. -/
def overlaps (f : SignatureFold) (bits : AggregationBits) : Bool :=
  match f.bits with
  | some folded => folded.intersects bits
  | none => false

/-- The fold with one more attestation, which shares no participant. -/
def extended (f : SignatureFold) (bits : AggregationBits) (key : PublicKey)
    (signature : Signature) : SignatureFold where
  bits := match f.bits with
    | some folded => some (folded.union bits)
    | none => some bits
  keys := f.keys ++ [key]
  signature := match f.signature with
    | some sum => some (addSignatures sum signature)
    | none => some signature

/-- Folds an attestation in and tells whether it could be. -/
def add (f : SignatureFold) (bits : AggregationBits) (key : PublicKey) (signature : Signature) :
    Bool × SignatureFold :=
  if f.overlaps bits then (false, f) else (true, f.extended bits key signature)

/-- Checks all signatures at once; no attestations never verify. -/
def verify (f : SignatureFold) (message : Root) : Bool :=
  match f.signature with
  | some signature => verifyAll signature message f.keys
  | none => false

end SignatureFold

end ForkChoice
