import ForkChoice.Engine.HeadTracker
import ForkChoice.Engine.Waiting

/-!
# ForkChoice — the engine

The engine is the only writer of the store. It takes one message after another, commits what
changes, follows the head, and lets wait what comes too early.

* `Engine` — the store, the head, what waits, and what has been reported so far;
* `Fate` — what became of a block or an attestation, other than to wait;
* `Run` — an engine at work: once it has failed it does nothing any more;
* `Engine.adoptJustified`, `Engine.refreshHead` — the head after a change of the store.
-/

namespace ForkChoice

/-- What those who verify attestations are told. -/
inductive Notice where
  | blockImported (root : Root)
  | slotBegan (slot : Slot)
  deriving Repr, DecidableEq

/-- What became of a block or an attestation. -/
inductive Fate where
  | blockImported (block : Block)
  | blockKnown (block : Block)
  | blockRefused (block : Block) (reason : StoreError)
  | attestationApplied (attestation : ReceivedAttestation)
  | attestationRefused (attestation : ReceivedAttestation) (reason : StoreError)
  deriving DecidableEq

/-- The store, the head, what waits, and what has been reported so far. -/
structure Engine where
  store : Store
  tracker : HeadTracker := {}
  waiting : Waiting := {}
  /-- What those who verify attestations have been told, in order. -/
  notices : List Notice := []
  /-- What became of blocks and attestations, the last ones first. -/
  journal : List Fate := []
  calls : TransitionCalls := {}

/-- An engine at work, and why it has failed if it has. -/
structure Run where
  engine : Engine
  failure : Option (Failure StoreError) := none

namespace Run

/-- Goes on unless the engine has failed. -/
def andThen (run : Run) (next : Engine → Run) : Run :=
  match run.failure with
  | none => next run.engine
  | some _ => run

/-- The engine after an operation of the head tracker. -/
def ofTracked (e : Engine) : Outcome StoreError Unit × HeadTracker → Run
  | (.ok (), tracker) => ⟨{ e with tracker := tracker }, none⟩
  | (.error failure, tracker) => ⟨{ e with tracker := tracker }, some failure⟩

end Run

namespace Engine

/-- Writes down what became of something. -/
def record (e : Engine) (fate : Fate) : Engine := { e with journal := fate :: e.journal }

/-- Tells those who verify attestations. -/
def notify (e : Engine) (notice : Notice) : Engine := { e with notices := e.notices ++ [notice] }

/-- Makes the changes of a draft visible. -/
def publish (e : Engine) (d : Draft) : Engine :=
  { e with store := d.commit, calls := e.calls.add d.calls }

/-- Gives a draft up, with all changes. -/
def abandon (e : Engine) (d : Draft) : Engine := { e with calls := e.calls.add d.calls }

/-! ## The head -/

/-- Finds the head anew. -/
def updateHead (e : Engine) : Run := .ofTracked e (e.tracker.updateHead e.store.view)

/-- Forgets the votes that the store has, if the tracker has just forgotten its own. -/
def followTracker (previous : Checkpoint) (e : Engine) : Engine :=
  if e.tracker.justified = previous then e
  else e.publish (Draft.ofStore e.store).discardVotes

/-- Takes note of a justified checkpoint: a later one makes all votes forgotten, those that have
been collected and those in the store. -/
def adoptJustified (e : Engine) (checkpoint : Checkpoint) : Run :=
  (Run.ofTracked e (e.tracker.onJustified e.store.view checkpoint)).andThen fun e' =>
    ⟨e'.followTracker e.tracker.justified, none⟩

/-- Finds the head anew after a change of the store. -/
def refreshHead (e : Engine) : Run :=
  (e.adoptJustified e.store.justified).andThen updateHead

/-- An engine that begins with a store, and publishes the first head. -/
def start (store : Store) : Run := refreshHead { store := store }

end Engine

end ForkChoice
