import Mathlib.Data.List.Basic
import ForkChoice.Proofs.Engine.Run

/-!
# ForkChoice — queues are worked off

An engine works off two queues: its inbox, from which attestations in a row are taken at once, and
the blocks of a message, each of which may let go on others that have waited for it. Both loops
count down a bound. The bounds are never met, so what the engine does is what the loops would do
without them.

Each delivery takes a message out of the inbox. A block is tried at most twice, because it waits
for its parent only once: what falls with each try is `Engine.triesLeft`.

* `Inbox.next?_eq_some` — messages are neither lost nor handled out of order;
* `Engine.drain_eq_deliver` — what has arrived at once is handled by a run of these messages;
* `Engine.importBlock_triesLeft` — a block that is tried uses up a try;
* `Engine.processBlocks_cons` — the loop over blocks without its bound;
* `Engine.WorkedOff` — the course of this loop, `workedOff_processBlocks` — it comes to an end.
-/

namespace ForkChoice

/-! ## The inbox -/

/-- The messages that are handled at once. -/
def Delivery.messages : Delivery → List Message
  | .tick time => [.tick time]
  | .block b => [.block b]
  | .burst attestations => attestations.map .attestation
  | .justified checkpoint => [.justified checkpoint]

namespace Inbox

variable {i i' : Inbox} {ready : Nat} {delivery : Delivery}

/-- The messages that are to be handled, in order. -/
def messages (i : Inbox) : List Message :=
  i.held.toList ++ i.queue

theorem size_eq (i : Inbox) : i.size = i.messages.length := by
  obtain ⟨_ | message, queue⟩ := i <;> simp [size, messages, Nat.add_comm]

theorem eq_empty (h : i.messages = []) : i = {} := by
  obtain ⟨_ | held, _ | ⟨first, rest⟩⟩ := i <;> cases h
  rfl

/-- What is gathered and what remains are all there was. -/
theorem gather_eq (ready : Nat) (queue : List Message) :
    (gather ready queue).1.map .attestation ++ (gather ready queue).2.messages = queue := by
  induction queue generalizing ready with
  | nil => cases ready <;> rfl
  | cons message rest ih =>
    cases ready with
    | zero => rfl
    | succ ready =>
      cases message with
      | attestation a => exact congrArg (Message.attestation a :: ·) (ih ready)
      | tick time => rfl
      | block block => rfl
      | justified checkpoint => rfl

theorem receive?_eq_some {message : Message} (h : i.receive? = some (message, i')) :
    i.messages = message :: i'.queue ∧ i'.held = none := by
  obtain ⟨_ | held, _ | ⟨first, rest⟩⟩ := i <;> cases h <;> exact ⟨rfl, rfl⟩

theorem receive?_eq_none (h : i.receive? = none) : i.messages = [] := by
  obtain ⟨_ | held, _ | ⟨first, rest⟩⟩ := i <;> cases h
  rfl

theorem next?_eq_none (h : i.next? ready = none) : i.messages = [] := by
  unfold next? at h
  split at h
  · rename_i hNone
    exact receive?_eq_none hNone
  all_goals cases h

/-- **The next delivery** takes the first messages out of the inbox, one at least. -/
theorem next?_eq_some (h : i.next? ready = some (delivery, i')) :
    i.messages = delivery.messages ++ i'.messages ∧ delivery.messages ≠ [] := by
  -- Nothing is held after a message was received.
  have hReceived : ∀ {message rest}, i.receive? = some (message, rest) →
      i.messages = message :: rest.messages := by
    intro message rest hFirst
    obtain ⟨hMessages, hHeld⟩ := receive?_eq_some hFirst
    rw [hMessages, messages, hHeld]
    rfl
  unfold next? at h
  split at h <;> rename_i hFirst
  · cases h
  · cases h
    exact ⟨hReceived hFirst, List.cons_ne_nil _ _⟩
  · cases h
    exact ⟨hReceived hFirst, List.cons_ne_nil _ _⟩
  · cases h
    exact ⟨hReceived hFirst, List.cons_ne_nil _ _⟩
  · rename_i a rest
    cases h
    refine ⟨?_, by simp [Delivery.messages]⟩
    rw [(receive?_eq_some hFirst).1, Delivery.messages, List.map_cons, List.cons_append,
      gather_eq]

theorem size_lt_of_next? (h : i.next? ready = some (delivery, i')) : i'.size < i.size := by
  obtain ⟨hMessages, hNonempty⟩ := next?_eq_some h
  have hLength := congrArg List.length hMessages
  have hPos := List.length_pos_iff.mpr hNonempty
  rw [size_eq, size_eq]
  rw [List.length_append] at hLength
  omega

end Inbox

namespace Engine

variable [HashFunction] [SignatureScheme] {t : StateTransition}

theorem drainFrom_eq_deliver {fuel : Nat} (inbox : Inbox) (e : Engine)
    (hFuel : inbox.size ≤ fuel) :
    ∃ deliveries, deliveries.flatMap Delivery.messages = inbox.messages ∧
      drainFrom t fuel inbox e = deliver t ⟨e, none⟩ deliveries := by
  induction fuel generalizing inbox e with
  | zero =>
    rw [Inbox.size_eq, Nat.le_zero, List.length_eq_zero_iff] at hFuel
    exact ⟨[], hFuel.symm, rfl⟩
  | succ fuel ih =>
    rw [drainFrom]
    cases hNext : inbox.next? inbox.size with
    | none => exact ⟨[], (Inbox.next?_eq_none hNext).symm, rfl⟩
    | some next =>
      obtain ⟨delivery, inbox'⟩ := next
      obtain ⟨hMessages, -⟩ := Inbox.next?_eq_some hNext
      have hShorter : inbox'.size ≤ fuel := by
        have hLess := Inbox.size_lt_of_next? hNext
        omega
      obtain ⟨rest, hRest, hRun⟩ := ih inbox' (e.handle t delivery).engine hShorter
      refine ⟨delivery :: rest, by rw [List.flatMap_cons, hRest, hMessages], ?_⟩
      show (e.handle t delivery).andThen (drainFrom t fuel inbox') =
        deliver t (e.handle t delivery) rest
      -- After a failure the rest of the inbox is not handled, and neither is the rest of the run.
      cases hFailure : (e.handle t delivery).failure with
      | some failure =>
        rw [deliver_of_failed t hFailure, Run.andThen, hFailure]
      | none =>
        have hRunning : (⟨(e.handle t delivery).engine, none⟩ : Run) = e.handle t delivery := by
          rw [← hFailure]
        rw [← hRunning, ← hRun, Run.andThen]

/-- **The inbox.** Messages that have all arrived before the first one is handled are handled by a
run, in their order, and none of them is left. -/
theorem drain_eq_deliver (e : Engine) (messages : List Message) :
    ∃ deliveries, deliveries.flatMap Delivery.messages = messages ∧
      e.drain t messages = deliver t ⟨e, none⟩ deliveries :=
  drainFrom_eq_deliver { queue := messages } e (by simp [Inbox.size])

end Engine

/-! ## What an engine lets wait -/

namespace Waiting

/-- The same blocks wait. -/
def SameBlocks (w w' : Waiting) : Prop :=
  w' = { w with
    attestationsUntilTick := w'.attestationsUntilTick
    attestationsUntilBlock := w'.attestationsUntilBlock }

namespace SameBlocks

variable {w w' w'' : Waiting}

theorem refl (w : Waiting) : SameBlocks w w :=
  rfl

theorem of_eq (h : w' = w) : SameBlocks w w' := by
  rw [h]
  rfl

theorem trans (h : SameBlocks w w') (h' : SameBlocks w' w'') : SameBlocks w w'' := by
  unfold SameBlocks at h'
  rw [h] at h'
  exact h'

theorem blocksUntilParent (h : SameBlocks w w') : w'.blocksUntilParent = w.blocksUntilParent := by
  rw [h]

end SameBlocks

theorem takeUntilParent_length (w : Waiting) (parent : Root) :
    (w.takeUntilParent parent).1.length + (w.takeUntilParent parent).2.blocksUntilParent.length =
      w.blocksUntilParent.length := by
  simp only [takeUntilParent, List.partition_eq_filter_filter]
  exact (List.length_eq_length_filter_add _).symm

end Waiting

namespace Engine

open Waiting

variable {e : Engine}

theorem updateHead_waiting : e.updateHead.engine.waiting = e.waiting := by
  unfold Engine.updateHead
  rcases e.tracker.updateHead e.store.view with ⟨_ | _, tracker⟩ <;> rfl

theorem followTracker_waiting (previous : Checkpoint) :
    (e.followTracker previous).waiting = e.waiting := by
  unfold followTracker
  split <;> rfl

theorem adoptJustified_waiting (checkpoint : Checkpoint) :
    (e.adoptJustified checkpoint).engine.waiting = e.waiting := by
  unfold adoptJustified Run.andThen
  rcases e.tracker.onJustified e.store.view checkpoint with ⟨_ | _, tracker⟩
  · rfl
  · exact followTracker_waiting _

theorem refreshHead_waiting : e.refreshHead.engine.waiting = e.waiting := by
  have hAdopted := adoptJustified_waiting (e := e) e.store.justified
  unfold refreshHead Run.andThen
  split
  · exact updateHead_waiting.trans hAdopted
  · exact hAdopted

theorem delayOrRefuse_sameBlocks (a : ReceivedAttestation) (reason : StoreError) :
    SameBlocks e.waiting (e.delayOrRefuse a reason).waiting := by
  unfold delayOrRefuse
  split <;> rfl

theorem finishBurst_waiting (b : BurstProgress) :
    (finishBurst b).engine.waiting = b.engine.waiting := by
  unfold finishBurst
  split
  · rfl
  · dsimp only
    split
    · rfl
    · exact updateHead_waiting

variable [HashFunction]

theorem afterImport_waiting (root : Root) (block : Block) :
    (e.afterImport root block).engine.waiting = e.waiting := by
  unfold afterImport
  split
  · rfl
  · split
    · rfl
    · exact refreshHead_waiting

variable [SignatureScheme] {t : StateTransition}

theorem attest_sameBlocks (b : BurstProgress) (a : ReceivedAttestation) :
    SameBlocks b.engine.waiting (attest t b a).engine.waiting := by
  unfold attest
  split
  · rfl
  · split
    · rfl
    · exact delayOrRefuse_sameBlocks a _
    · rfl

/-- A burst lets attestations wait, and no block. -/
theorem processAttestations_sameBlocks (attestations : List ReceivedAttestation) :
    SameBlocks e.waiting (e.processAttestations t attestations).engine.waiting := by
  have hBurst : ∀ (burst : List ReceivedAttestation) (b : BurstProgress),
      SameBlocks b.engine.waiting (burst.foldl (attest t) b).engine.waiting := by
    intro burst
    induction burst with
    | nil => exact fun b => SameBlocks.refl _
    | cons a rest ih => exact fun b => (attest_sameBlocks b a).trans (ih _)
  unfold processAttestations
  split
  · rfl
  · exact (hBurst (byArrival attestations) ⟨e, Draft.ofStore e.store, [], none⟩).trans
      (SameBlocks.of_eq (finishBurst_waiting _))

theorem releaseAttestations_sameBlocks (root : Root) :
    SameBlocks e.waiting (e.releaseAttestations t root).engine.waiting := by
  have hTaken : SameBlocks e.waiting (e.waiting.takeUntilBlock root).2 := rfl
  exact hTaken.trans (processAttestations_sameBlocks _)

end Engine

/-! ## The blocks of a message -/

namespace Engine

variable {e : Engine}

/-- How often the blocks of a queue can still be tried, and those that wait for a parent: a block
in the queue that has not waited yet may wait for its parent, and be tried once more. -/
def triesLeft (queue : List PendingBlock) (waiting : Waiting) : Nat :=
  queue.length + queue.countP (fun b => !b.retried) + waiting.blocksUntilParent.length

theorem triesLeft_retried (blocks : List PendingBlock) (waiting : Waiting) :
    triesLeft (blocks.map PendingBlock.retry) waiting =
      blocks.length + waiting.blocksUntilParent.length := by
  have hNone : (blocks.map PendingBlock.retry).countP (fun b => !b.retried) = 0 := by
    simp [PendingBlock.retry]
  rw [triesLeft, hNone, List.length_map, Nat.add_zero]

/-- What is left for a queue that goes on after its first block, if that block uses up a try. -/
theorem triesLeft_append_lt {b : PendingBlock} {released : List PendingBlock}
    {waiting waiting' : Waiting} (h : triesLeft released waiting' < triesLeft [b] waiting)
    (queue : List PendingBlock) :
    triesLeft (queue ++ released) waiting' < triesLeft (b :: queue) waiting := by
  simp only [triesLeft, List.length_append, List.countP_append, List.length_cons, List.length_nil,
    List.countP_cons, List.countP_nil] at h ⊢
  omega

theorem triesLeft_le_tries (queue : List PendingBlock) (waiting : Waiting) :
    triesLeft queue waiting ≤ tries queue waiting := by
  have hSome : queue.countP (fun b => !b.retried) ≤ queue.length := List.countP_le_length
  unfold triesLeft tries
  omega

theorem triesLeft_nil_lt (b : PendingBlock) (waiting : Waiting) :
    triesLeft [] waiting < triesLeft [b] waiting := by
  simp only [triesLeft, List.length_nil, List.countP_nil, List.length_singleton]
  omega

theorem delayOrRefuseBlock_triesLeft (b : PendingBlock) (reason : StoreError) :
    triesLeft [] (e.delayOrRefuseBlock b reason).waiting < triesLeft [b] e.waiting := by
  have hFewer := triesLeft_nil_lt b e.waiting
  unfold delayOrRefuseBlock
  split
  · exact hFewer
  · split
    · exact hFewer
    · -- The block waits for its parent, but it will not do so again.
      rename_i hFirst
      simp [triesLeft, Waiting.delayUntilParent, hFirst]
      omega
  · exact hFewer

variable [HashFunction] [SignatureScheme] {t : StateTransition}

/-- The blocks that an imported block lets go on are those that do not wait any longer. -/
theorem settleImport_triesLeft (root : Root) (block : Block) :
    triesLeft (e.settleImport t root block).released
        (e.settleImport t root block).run.engine.waiting =
      triesLeft [] e.waiting := by
  unfold settleImport
  dsimp only
  have hImport : ((e.afterImport root block).andThen fun e =>
      ⟨e.notify (.blockImported root), none⟩).engine.waiting = e.waiting := by
    unfold Run.andThen
    split
    · exact afterImport_waiting root block
    · exact afterImport_waiting root block
  generalize (e.afterImport root block).andThen (fun e =>
    ⟨e.notify (.blockImported root), none⟩) = run at hImport
  split
  · rw [hImport]
  · have hReleased := releaseAttestations_sameBlocks (t := t) root
      (e := { run.engine with waiting := (run.engine.waiting.takeUntilParent root).2 })
    dsimp only
    rw [triesLeft_retried, hReleased.blocksUntilParent, ← hImport, triesLeft]
    exact (Waiting.takeUntilParent_length _ root).trans (Nat.zero_add _).symm

/-- **One block less.** A block that is tried uses up a try. -/
theorem importBlock_triesLeft (b : PendingBlock) :
    triesLeft (e.importBlock t b).released (e.importBlock t b).run.engine.waiting <
      triesLeft [b] e.waiting := by
  have hFewer := triesLeft_nil_lt b e.waiting
  unfold importBlock
  split
  · rename_i root d _
    have hSettled := settleImport_triesLeft (t := t) root b.block
      (e := (e.publish d).record (.blockImported b.block))
    rw [hSettled]
    exact hFewer
  · exact hFewer
  · rename_i reason d _
    exact delayOrRefuseBlock_triesLeft (e := e.abandon d) b reason
  · exact hFewer

/-- A bound that allows for all tries that are left makes no difference. -/
theorem blocksFrom_eq {fuel fuel' : Nat} {queue : List PendingBlock}
    (h : triesLeft queue e.waiting ≤ fuel) (h' : triesLeft queue e.waiting ≤ fuel') :
    blocksFrom t fuel queue e = blocksFrom t fuel' queue e := by
  -- With each block, what is left to try falls by one at least, as both bounds do.
  induction fuel generalizing fuel' queue e with
  | zero =>
    cases queue with
    | nil => cases fuel' <;> rfl
    | cons b queue =>
      rw [triesLeft, List.length_cons] at h
      omega
  | succ fuel ih =>
    cases queue with
    | nil => cases fuel' <;> rfl
    | cons b queue =>
      have hLess := triesLeft_append_lt (importBlock_triesLeft (t := t) (e := e) b) queue
      cases fuel' with
      | zero => omega
      | succ fuel' =>
        rw [blocksFrom, blocksFrom, Run.andThen, Run.andThen]
        split
        · exact ih (by omega) (by omega)
        · rfl

@[simp] theorem processBlocks_nil : e.processBlocks t [] = ⟨e, none⟩ := by
  unfold processBlocks
  cases tries [] e.waiting <;> rfl

/-- **The blocks of a message.** A block is tried, those that it lets go on join the queue, and
this goes on until the queue is empty or the engine fails. -/
theorem processBlocks_cons (b : PendingBlock) (queue : List PendingBlock) :
    e.processBlocks t (b :: queue) = (e.importBlock t b).run.andThen fun e' =>
      e'.processBlocks t (queue ++ (e.importBlock t b).released) := by
  have hLess := triesLeft_append_lt (importBlock_triesLeft (t := t) (e := e) b) queue
  have hTries := triesLeft_le_tries (b :: queue) e.waiting
  obtain ⟨fuel, hFuel⟩ : ∃ fuel, tries (b :: queue) e.waiting = fuel + 1 :=
    Nat.exists_eq_succ_of_ne_zero (by omega)
  rw [processBlocks, hFuel, blocksFrom, Run.andThen, Run.andThen]
  split
  · exact blocksFrom_eq (by omega) (triesLeft_le_tries _ _)
  · rfl

/-- The course of the loop over blocks: one block after the other is tried, and what it lets go on
joins the end of the queue, until a try fails or the queue is empty. -/
inductive WorkedOff (t : StateTransition) : List PendingBlock → Engine → Run → Prop
  | done {e : Engine} : WorkedOff t [] e ⟨e, none⟩
  | fails {e : Engine} {b : PendingBlock} {queue : List PendingBlock} {failure : Failure StoreError}
    (h : (e.importBlock t b).run.failure = some failure) :
    WorkedOff t (b :: queue) e (e.importBlock t b).run
  | next {e : Engine} {b : PendingBlock} {queue : List PendingBlock} {run : Run}
    (h : (e.importBlock t b).run.failure = none)
    (hRest : WorkedOff t (queue ++ (e.importBlock t b).released) (e.importBlock t b).run.engine
      run) : WorkedOff t (b :: queue) e run

/-- **The blocks of a message** are worked off, whatever the rules are, and however many of them
wait. -/
theorem workedOff_processBlocks (t : StateTransition) (e : Engine) (queue : List PendingBlock) :
    WorkedOff t queue e (e.processBlocks t queue) := by
  -- With each block, what is left to try falls.
  induction hLeft : triesLeft queue e.waiting using Nat.strongRecOn generalizing queue e with
  | _ left ih =>
    cases queue with
    | nil =>
      rw [processBlocks_nil]
      exact .done
    | cons b queue =>
      have hLess := triesLeft_append_lt (importBlock_triesLeft (t := t) (e := e) b) queue
      rw [processBlocks_cons]
      cases hRun : (e.importBlock t b).run.failure with
      | some failure =>
        rw [Run.andThen, hRun]
        exact .fails hRun
      | none =>
        rw [Run.andThen_of_ok hRun]
        exact .next hRun (ih _ (hLeft ▸ hLess) _ _ rfl)

end Engine

end ForkChoice
