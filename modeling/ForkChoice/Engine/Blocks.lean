import ForkChoice.Engine.Attestations

/-!
# ForkChoice — blocks reach the store

A block that is imported may let other blocks and attestations go on that have waited for it.
Blocks that go on join the end of the queue, so that a message is done when the queue is empty.

* `Engine.importBlock` — one block: imported, refused, or made to wait;
* `Engine.processBlocks` — a queue of blocks and all that they let go on.
-/

namespace ForkChoice

namespace Engine

variable [HashFunction] [SignatureScheme]

/-- The votes in a block, as far as the committees are known at the state after it. -/
def blockVotes (p : Preset) (state : BeaconState) : List Attestation → Checked (List Vote)
  | [] => .ok []
  | a :: rest =>
    match state.attestingIndices p a.data a.aggregationBits with
    | .ok indices => do return (indices, a.data.message) :: (← blockVotes p state rest)
    | .error (.error _) => blockVotes p state rest
    | .error (.fault reason) => .error reason

/-- Follows the votes in a block that has been imported, and finds the head anew. -/
def afterImport (e : Engine) (root : Root) (block : Block) : Run :=
  match e.store.view.state? root with
  | none => ⟨e, some (.fault (.violated "post-state of an imported block is in the store"))⟩
  | some state =>
    match blockVotes e.store.preset state block.body.attestations with
    | .error reason => ⟨e, some (.fault reason)⟩
    | .ok votes =>
      let (_, tracker) := e.tracker.onBlock e.store.view block votes
      { e with tracker := tracker }.refreshHead

/-- Takes the attestations that have waited for a block and applies them. -/
def releaseAttestations (t : StateTransition) (e : Engine) (root : Root) : Run :=
  let (released, waiting) := e.waiting.takeUntilBlock root
  { e with waiting := waiting }.processAttestations t released

/-- A queue of blocks that is being worked off. -/
structure BlockProgress where
  run : Run
  /-- The blocks that may go on because of the last one. -/
  released : List PendingBlock := []

/-- Follows a block that has just been imported: its votes, those who verify attestations, and
all that has waited for it. -/
def settleImport (t : StateTransition) (e : Engine) (root : Root) (block : Block) :
    BlockProgress :=
  let run := (e.afterImport root block).andThen fun e => ⟨e.notify (.blockImported root), none⟩
  match run.failure with
  | some _ => { run := run }
  | none =>
    let (children, waiting) := run.engine.waiting.takeUntilParent root
    { run := { run.engine with waiting := waiting }.releaseAttestations t root
      released := children.map PendingBlock.retry }

/-- Lets a block wait if the reason for not importing it may pass, and refuses it else. A block
that has waited for its parent before does not wait for it again. -/
def delayOrRefuseBlock (e : Engine) (b : PendingBlock) (reason : StoreError) : Engine :=
  match reason with
  | .blockInFuture .. => { e with waiting := e.waiting.delayUntilSlot b }
  | .noParentBlock .. =>
    if b.retried then e.record (.blockRefused b.block reason)
    else { e with waiting := e.waiting.delayUntilParent b }
  | reason => e.record (.blockRefused b.block reason)

/-- Imports one block in a draft of its own, which is given up unless the block is new. -/
def importBlock (t : StateTransition) (e : Engine) (b : PendingBlock) : BlockProgress :=
  match (Draft.ofStore e.store).importBlock t b.block with
  | (.ok (.imported root), d) =>
    ((e.publish d).record (.blockImported b.block)).settleImport t root b.block
  | (.ok (.alreadyKnown _), d) =>
    { run := ⟨(e.abandon d).record (.blockKnown b.block), none⟩ }
  | (.error (.error reason), d) => { run := ⟨(e.abandon d).delayOrRefuseBlock b reason, none⟩ }
  | (.error (.fault reason), d) => { run := ⟨e.abandon d, some (.fault reason)⟩ }

/-- Works off a queue of blocks in at most `fuel` steps. -/
def blocksFrom (t : StateTransition) : Nat → List PendingBlock → Engine → Run
  | _, [], e => ⟨e, none⟩
  | 0, _ :: _, e => ⟨e, some (.fault (.violated "a block is tried at most twice"))⟩
  | fuel + 1, b :: queue, e =>
    let progress := e.importBlock t b
    progress.run.andThen (blocksFrom t fuel (queue ++ progress.released))

/-- How often blocks can be tried: a block that has not waited yet may wait for its parent and
then be tried once more. -/
def tries (queue : List PendingBlock) (waiting : Waiting) : Nat :=
  2 * queue.length + waiting.blocksUntilParent.length

/-- Imports blocks and all that they let go on. -/
def processBlocks (t : StateTransition) (e : Engine) (queue : List PendingBlock) : Run :=
  blocksFrom t (tries queue e.waiting) queue e

end Engine

end ForkChoice
