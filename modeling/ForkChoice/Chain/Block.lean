import ForkChoice.Chain.Attestation

/-!
# ForkChoice — blocks

* `Block`, `BlockBody` — a block and its content;
* `BlockHeader` — a block with the root of its body in place of the body;
* `Block.treeRoot` — the hash tree root, which is that of the header.
-/

namespace ForkChoice

/-- A block with the root of its body in place of the body. -/
structure BlockHeader where
  slot : Slot
  proposerIndex : ValidatorIndex
  parentRoot : Root
  stateRoot : Root
  bodyRoot : Root
  deriving Repr, DecidableEq, Inhabited

/-- The hash tree root. -/
def BlockHeader.treeRoot [HashFunction] (h : BlockHeader) : Root :=
  Merkle.containerRoot
    [wordChunk h.slot, wordChunk h.proposerIndex, h.parentRoot, h.stateRoot, h.bodyRoot]

/-- The content of a block. -/
structure BlockBody where
  randaoReveal : SignatureBytes
  graffiti : Root
  attestations : List Attestation
  deriving DecidableEq, Inhabited

/-- The hash tree root. -/
def BlockBody.treeRoot [HashFunction] (b : BlockBody) : Checked Root := do
  let attestations ← b.attestations.mapM Attestation.treeRoot
  return Merkle.containerRoot
    [Merkle.signatureRoot b.randaoReveal, b.graffiti,
      ← Merkle.listRoot attestations maxAttestations]

/-- A block. -/
structure Block where
  slot : Slot
  proposerIndex : ValidatorIndex
  parentRoot : Root
  stateRoot : Root
  body : BlockBody
  deriving DecidableEq, Inhabited

namespace Block

/-- The block with the root of its body in place of the body. -/
def header [HashFunction] (b : Block) : Checked BlockHeader := do
  return ⟨b.slot, b.proposerIndex, b.parentRoot, b.stateRoot, ← b.body.treeRoot⟩

/-- The hash tree root. -/
def treeRoot [HashFunction] (b : Block) : Checked Root := do
  return (← b.header).treeRoot

end Block

end ForkChoice
