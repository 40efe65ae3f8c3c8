import ForkChoice.Store.Draft

/-!
# ForkChoice — following the head

The head is found from votes that are collected apart from those in the store: they are forgotten
whenever a later checkpoint is justified. Each change of the head is published once.

* `HeadTracker` — the collected votes, the head, and what has been published;
* `HeadTracker.updateHead` — finds the head anew;
* `HeadTracker.onJustified`, `HeadTracker.onBlock`, `HeadTracker.onAttestation` — news.

Operations that can fail return their result together with the tracker that they leave.
-/

namespace ForkChoice

/-- The announcement of a new head. -/
structure HeadEvent where
  root : Root
  stateRoot : Root
  slot : Slot
  deriving Repr, DecidableEq, Inhabited

/-- The collected votes and the head. -/
structure HeadTracker where
  justified : Checkpoint := .empty
  votes : LatestMessages := .empty
  head : Option Root := none
  /-- The changes of the head, in order. -/
  published : List HeadEvent := []

/-- The validators that take part in an attestation, and what they vote for. -/
abbrev Vote := List ValidatorIndex × LatestMessage

namespace HeadTracker

/-- Finds the head anew, and publishes it if it has changed. -/
def updateHead (v : StoreView) (h : HeadTracker) : Outcome StoreError Unit × HeadTracker :=
  match v.head h.votes with
  | .error failure => (.error failure, h)
  | .ok root =>
    if h.head = some root then (.ok (), h)
    else
      match v.block? root with
      | none =>
        (.error (.fault (.violated "get_head only returns roots of blocks in the store")), h)
      | some block =>
        (.ok (), { h with
          head := some root
          published := h.published ++ [⟨root, block.stateRoot, block.slot⟩] })

/-- Collects the votes of several validators for one message. -/
def recordVotes (h : HeadTracker) (indices : List ValidatorIndex) (message : LatestMessage) :
    HeadTracker :=
  { h with votes := h.votes.mergeAll indices message }

/-- Collects votes in order. -/
def recordAll (h : HeadTracker) (votes : List Vote) : HeadTracker :=
  votes.foldl (fun h (indices, message) => h.recordVotes indices message) h

/-- Collects the votes of an attestation and finds the head anew. -/
def onAttestation (v : StoreView) (h : HeadTracker) (indices : List ValidatorIndex)
    (message : LatestMessage) : Outcome StoreError Unit × HeadTracker :=
  (h.recordVotes indices message).updateHead v

/-- Forgets all votes and finds the head anew if a later checkpoint is justified. -/
def onJustified (v : StoreView) (h : HeadTracker) (checkpoint : Checkpoint) :
    Outcome StoreError Unit × HeadTracker :=
  if checkpoint.epoch ≤ h.justified.epoch then (.ok (), h)
  else { h with justified := checkpoint, votes := .empty }.updateHead v

/-! ## Votes in blocks -/

/-- Whether, going back at most `fuel` blocks from one on, a block is met before the epoch of the
checkpoint whose grandparent has the root of the checkpoint. -/
def descendsFrom (v : StoreView) (checkpoint : Checkpoint) : Nat → Block → Bool
  | 0, _ => false
  | fuel + 1, block =>
    if v.preset.epochAt block.slot < checkpoint.epoch then false
    else
      match v.block? block.parentRoot with
      | none => false
      | some parent =>
        if parent.parentRoot = checkpoint.root then true
        else descendsFrom v checkpoint fuel parent

/-- Whether the votes in a block count. A child of the justified block does not pass by itself,
only its descendants do. -/
def acceptsVotesOf (v : StoreView) (h : HeadTracker) (block : Block) : Bool :=
  if h.justified.isEmpty && block.slot = 0 then true
  else descendsFrom v h.justified (v.importCount + 2) block

/-- Collects the votes in a block if they count, and tells whether they do. -/
def onBlock (v : StoreView) (h : HeadTracker) (block : Block) (votes : List Vote) :
    Bool × HeadTracker :=
  if h.acceptsVotesOf v block then (true, h.recordAll votes) else (false, h)

end HeadTracker

end ForkChoice
