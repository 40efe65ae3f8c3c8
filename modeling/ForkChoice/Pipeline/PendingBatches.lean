import ForkChoice.Chain.Attestation
import ForkChoice.LinkedMap

/-!
# ForkChoice — attestations that share a state

Attestations with one target that vote for one block are checked against one state, so they are
collected in batches. The batches are the entries of a linked map. An attestation is added to its
batch where the batch is, and a new batch is inserted; the one at the front is taken. So a batch
keeps its place in the queue when it grows, as long as the map keeps the place of its entry.

* `BatchKey` — what the attestations of a batch have in common;
* `BatchQueue.push`, `BatchQueue.take?` — the ends of the queue, whichever the map is;
* `PendingBatches` — the queue that is used.
-/

namespace ForkChoice

/-- The target and the block of the attestations of a batch. -/
structure BatchKey where
  target : Checkpoint
  blockRoot : Root
  deriving Repr, DecidableEq, Inhabited

/-- The batch that an attestation belongs to. -/
def ReceivedAttestation.batchKey (a : ReceivedAttestation) : BatchKey :=
  ⟨a.data.target, a.data.blockRoot⟩

/-- Attestations that are checked together. -/
structure Batch where
  key : BatchKey
  attestations : List ReceivedAttestation
  deriving Inhabited

/-- Batches that have not been checked, the oldest first, in a map. -/
structure BatchQueue (M : Type) [LinkedMap M BatchKey (List ReceivedAttestation)] where
  map : M := LinkedMap.empty

namespace BatchQueue

open LinkedMap (entries getMut? popFront?)

variable {M : Type} [LinkedMap M BatchKey (List ReceivedAttestation)]

instance : Inhabited (BatchQueue M) := ⟨{}⟩

/-- All batches, the oldest first. -/
def all (p : BatchQueue M) : List Batch :=
  (entries p.map).map fun e => ⟨e.1, e.2⟩

/-- Adds an attestation to its batch, or as a new one. -/
def push (p : BatchQueue M) (a : ReceivedAttestation) : BatchQueue M :=
  match getMut? p.map a.batchKey with
  | some batch => ⟨batch.put (batch.value ++ [a])⟩
  | none => ⟨LinkedMap.insert p.map a.batchKey [a]⟩

/-- Takes the oldest batch. -/
def take? (p : BatchQueue M) : Option (Batch × BatchQueue M) :=
  match popFront? p.map with
  | none => none
  | some ((key, attestations), rest) => some (⟨key, attestations⟩, ⟨rest⟩)

/-- The number of batches. -/
def size (p : BatchQueue M) : Nat := LinkedMap.size p.map

/-- The number of attestations in all batches. -/
def attestationCount (p : BatchQueue M) : Nat :=
  (entries p.map).foldl (fun count e => count + e.2.length) 0

/-- Whether there are no batches. -/
def isEmpty (p : BatchQueue M) : Bool := LinkedMap.isEmpty p.map

end BatchQueue

/-- Batches that have not been checked, in the list of their entries. -/
abbrev PendingBatches : Type := BatchQueue (Linked BatchKey (List ReceivedAttestation))

end ForkChoice
