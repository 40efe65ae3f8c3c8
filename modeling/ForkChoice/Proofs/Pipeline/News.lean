import ForkChoice.Proofs.Engine.Notices
import ForkChoice.Proofs.Engine.Wakeup
import ForkChoice.Proofs.Pipeline.Passing
import ForkChoice.Proofs.Pipeline.Threads

/-!
# ForkChoice — news of imported blocks

An attestation for a block that is not known waits until the block is imported. Its thread takes a
view of the store first and lets it wait afterwards, and the engine commits the block first and
tells of it afterwards. The block may be committed before, after or between the two steps of the
thread, but the news come later than the commit, and the thread does not take note of any news
between its two steps. So an attestation that waits for a block that has been committed is one
whose thread will hear of it.

Attestations reach a batch only if their block is known, either because a view has it or because it
has been told of, and what has once been committed can be read from then on, together with its
state.

* `StoreView.Holds` — what the check of a batch needs, `System.UpToDate` — that nobody is about to
  hear of a block;
* `System.Informed` — the invariant, `Informed.hear`, `Informed.enter`, `Informed.take` — the steps
  that matter;
* `System.wellInformed_of_run` — no panic, and no attestation waits in vain.
-/

namespace ForkChoice

/-- Whether the block is known. -/
def StoreView.Knows (v : StoreView) (root : Root) : Prop :=
  ∃ block, v.block? root = some block

/-- Whether the block is known and the state after it, as the check of a batch needs it. -/
def StoreView.Holds (v : StoreView) (root : Root) : Prop :=
  v.Knows root ∧ ∃ state, v.state? root = some state

namespace StoreView

variable {v v' : StoreView} {root : Root}

theorem containsBlock_iff : v.containsBlock root = true ↔ v.Knows root :=
  Option.isSome_iff_exists

theorem Knows.mono (h : v.Knows root) (hMore : Extends v v') : v'.Knows root :=
  let ⟨block, hBlock⟩ := h
  ⟨block, hMore root block hBlock⟩

/-- Blocks come with their states. -/
theorem Rooted.holds (hv : v.Rooted) (h : v.Knows root) : v.Holds root := by
  refine ⟨h, ?_⟩
  rw [← Option.isSome_iff_exists, ← hv.paired, Option.isSome_iff_exists]
  exact h

/-- The search for the state of a batch does not panic for want of the block or of its state. If it
panics, the transition to a later slot does. -/
theorem Holds.fault_of_batchState {t : StateTransition} {key : BatchKey} {fault : Fault}
    (h : v.Holds key.blockRoot) (hFault : (v.batchState t key).state = .error (.fault fault)) :
    ∃ state, v.state? key.blockRoot = some state ∧
      t.processSlots state (v.preset.startSlot key.target.epoch) = .error (.fault fault) := by
  obtain ⟨hKnown, state, hState⟩ := h
  refine ⟨state, hState, ?_⟩
  unfold batchState at hFault
  simp only [hState, containsBlock_iff.mpr hKnown] at hFault
  split at hFault
  · rename_i hMissing
    cases hMissing
  · split at hFault
    · cases hFault
    · split at hFault
      · cases hFault
      · split at hFault
        · cases hFault
        · exact Outcome.orFail_eq_fault.mp hFault

end StoreView

open StoreView

section

variable [SignatureScheme]

/-- What is known of the view that a thread has taken. -/
def StatePhase.Informed (m : Mutator) (read : Nat) : StatePhase → Prop
  | .entering a v => Extends v m.view ∧
    (m.view.Knows a.data.blockRoot → v.Knows a.data.blockRoot ∨ m.WillTell read a.data.blockRoot)
  | .checking batch v => v.Holds batch.key.blockRoot
  | _ => True

namespace System

/-- Nobody can have missed a block: blocks in batches are known, and blocks that attestations wait
for are not, unless the news are on the way. -/
structure Informed (sys : System) : Prop where
  rooted : sys.view.Rooted
  read_le : sys.noticesRead ≤ sys.mutator.notices.length
  told : ∀ {root}, sys.mutator.WillTell 0 root → sys.view.Knows root
  batches : ∀ batch ∈ sys.pipeline.batches.all, sys.view.Knows batch.key.blockRoot
  pool : ∀ a ∈ sys.pipeline.pool.attestations, sys.view.Knows a.data.blockRoot →
    sys.mutator.WillTell sys.noticesRead a.data.blockRoot
  states : sys.states.Informed sys.mutator sys.noticesRead

variable {t : StateTransition} {sys sys' : System} {s : Store} {actions : List Action}
  {action : Action} {m : Mutator}

namespace Informed

/-- Nothing that matters has changed. -/
theorem frame (h : sys.Informed) (hMutator : sys'.mutator = sys.mutator)
    (hRead : sys'.noticesRead = sys.noticesRead)
    (hBatches : ∀ batch ∈ sys'.pipeline.batches.all, batch ∈ sys.pipeline.batches.all)
    (hPool : sys'.pipeline.pool = sys.pipeline.pool)
    (hStates : sys'.states.Informed sys.mutator sys.noticesRead) : sys'.Informed where
  rooted := by
    rw [view, hMutator]
    exact h.rooted
  read_le := by
    rw [hMutator, hRead]
    exact h.read_le
  told := by
    rw [view, hMutator]
    exact h.told
  batches := by
    rw [view, hMutator]
    exact fun batch hBatch => h.batches batch (hBatches batch hBatch)
  pool := by
    rw [view, hMutator, hRead, hPool]
    exact h.pool
  states := by
    rw [hMutator, hRead]
    exact hStates

/-- **The mutator** goes on, whatever the other threads are doing. -/
theorem continues (h : sys.Informed) (hMutator : sys.mutator.Continues m) :
    { sys with mutator := m }.Informed := by
  -- Blocks that are new will be told of, and what was to be told still is.
  have hWill : ∀ {root}, m.view.Knows root →
      (sys.view.Knows root → sys.mutator.WillTell sys.noticesRead root) →
        m.WillTell sys.noticesRead root := by
    rintro root ⟨block, hBlock⟩ hOld
    rcases hMutator.fresh hBlock with hKnown | hOwed
    · exact hMutator.willTell h.read_le (hOld hKnown)
    · exact Or.inl hOwed
  exact {
    rooted := hMutator.rooted h.rooted
    read_le := Nat.le_trans h.read_le hMutator.notices_le
    told := by
      intro root hTold
      rcases hMutator.told hTold with hOld | hKnown
      · exact (h.told hOld).mono hMutator.extends_
      · exact hKnown
    batches := fun batch hBatch => (h.batches batch hBatch).mono hMutator.extends_
    pool := fun a ha hKnown => hWill hKnown (h.pool a ha)
    states := by
      have hStates := h.states
      show sys.states.Informed m sys.noticesRead
      cases hPhase : sys.states with
      | entering a v =>
        rw [hPhase] at hStates
        obtain ⟨hMore, hEntering⟩ := hStates
        refine ⟨hMore.trans hMutator.extends_, fun hKnown => ?_⟩
        by_cases hSeen : v.Knows a.data.blockRoot
        · exact Or.inl hSeen
        · exact Or.inr (hWill hKnown fun hOld => (hEntering hOld).resolve_left hSeen)
      | checking batch v =>
        rw [hPhase] at hStates
        exact hStates
      | _ => trivial }

/-- **News.** Those that have waited for the block go on, and it is known. -/
theorem hear (h : sys.Informed) {notice : Notice}
    (hNotice : sys.mutator.notices[sys.noticesRead]? = some notice) :
    Informed { sys with
      noticesRead := sys.noticesRead + 1
      pipeline := sys.pipeline.handleNotice sys.view.preset notice
      states := .draining } := by
  have hRead : sys.noticesRead + 1 ≤ sys.mutator.notices.length :=
    (List.getElem?_eq_some_iff.mp hNotice).1
  cases notice with
  | blockImported root =>
    have hKnown : sys.view.Knows root := h.told (Or.inr (List.mem_of_getElem? hNotice))
    simp only [Pipeline.handleNotice, UnknownBlockPool.takeForBlock,
      UnknownBlockPool.takeWhere_eq, Pipeline.foldl_release]
    exact {
      rooted := h.rooted
      read_le := hRead
      told := h.told
      batches := by
        intro batch hBatch
        rcases BatchQueue.mem_pushAll hBatch with ⟨a, ha, hKey⟩ | ⟨old, hOld, hKey⟩
        · rw [hKey]
          have hRoot : a.data.blockRoot = root := of_decide_eq_true (List.mem_filter.mp ha).2
          exact hRoot ▸ hKnown
        · rw [← hKey]
          exact h.batches old hOld
      pool := by
        intro a ha hKnown
        obtain ⟨hOld, hOther⟩ := List.mem_filter.mp ha
        refine (h.pool a hOld hKnown).next hNotice ?_
        rintro hSame
        cases hSame
        simp at hOther
      states := trivial }
  | slotBegan slot =>
    simp only [Pipeline.handleNotice, UnknownBlockPool.prune, UnknownBlockPool.takeWhere_eq,
      Pipeline.foldl_expire]
    exact {
      rooted := h.rooted
      read_le := hRead
      told := h.told
      batches := h.batches
      pool := fun a ha hKnown =>
        (h.pool a (List.mem_filter.mp ha).1 hKnown).next hNotice (by simp)
      states := trivial }

/-- **An attestation enters.** If its block was not known when the view was taken, and is known now,
the news are still to come. -/
theorem enter (h : sys.Informed) {a : ReceivedAttestation} {v : StoreView} {pipeline : Pipeline}
    (hPhase : sys.states = .entering a v)
    (hIngested : Pipeline.Ingested v (sys.pipeline.elapse 1) a pipeline) :
    Informed { sys with pipeline := pipeline, states := .draining } := by
  have hStates := h.states
  rw [hPhase] at hStates
  obtain ⟨hMore, hEntering⟩ := hStates
  cases hIngested with
  | refused reason => exact h.frame rfl rfl (fun _ => id) rfl trivial
  | known hKnown =>
    refine ⟨h.rooted, h.read_le, h.told, fun batch hBatch => ?_, h.pool, trivial⟩
    rcases BatchQueue.mem_push hBatch with hKey | ⟨old, hOld, hKey⟩
    · rw [hKey]
      exact (containsBlock_iff.mp hKnown).mono hMore
    · rw [← hKey]
      exact h.batches old hOld
  | parked hUnknown =>
    rw [Pipeline.park_eq]
    refine ⟨h.rooted, h.read_le, h.told, h.batches, fun a' ha' hKnown => ?_, trivial⟩
    have hMem := (UnknownBlockPool.insert_perm sys.pipeline.pool a).subset
      (List.mem_append_right _ ha')
    rcases List.mem_cons.mp hMem with rfl | hOld
    · refine (hEntering hKnown).resolve_left fun hSeen => ?_
      rw [containsBlock_iff.mpr hSeen] at hUnknown
      cases hUnknown
    · exact h.pool a' hOld hKnown

/-- **A batch is taken.** Its block can be read, and the state after it. -/
theorem take (h : sys.Informed) {batch : Batch} {batches : PendingBatches}
    (hBatches : sys.pipeline.batches.all = batch :: batches.all) :
    Informed { sys with
      pipeline := { sys.pipeline with batches := batches }
      states := .checking batch sys.view } := by
  have hKnown := h.batches batch (hBatches ▸ List.mem_cons_self)
  exact h.frame rfl rfl (fun _ hMem => hBatches ▸ List.mem_cons_of_mem _ hMem) rfl
    (h.rooted.holds hKnown)

/-- The check of signatures does not matter. -/
theorem flush (h : sys.Informed) (last : Bool)
    (x : Option (List VerifiedAttestation) × Window VerifiedAttestation) :
    (sys.flush last x).Informed := by
  obtain ⟨_ | batch, window⟩ := x <;> exact h.frame rfl rfl (fun _ => id) rfl h.states

/-- **One step** of any of the threads. -/
theorem step [HashFunction] (hStep : Step t sys action sys') (h : sys.Informed) :
    sys'.Informed := by
  cases hStep with
  | work => exact h.continues (Mutator.work_continues t sys.mutator)
  | @receive ready delivery inbox hTasks hNext =>
    have hTaken := h.continues (Mutator.Continues.of_delivery hTasks delivery)
    exact hTaken.frame rfl rfl (fun _ => id) rfl hTaken.states
  | hear hTakes hNotice => exact h.hear hNotice
  | load hTakes hInput =>
    exact h.frame rfl rfl (fun _ => id) rfl ⟨Extends.refl _, Or.inl⟩
  | enter hPhase hIngested => exact h.enter hPhase hIngested
  | take hPhase hBatches => exact h.take hBatches
  | pause | idle | check | reported | passed | refused | send | leave =>
    exact h.frame rfl rfl (fun _ => id) rfl trivial
  | submit | close | message | concluded | tell =>
    exact h.frame rfl rfl (fun _ => id) rfl h.states
  | @collect now a rest hPhase hChannel =>
    have hTaken : Informed { sys with channel := rest } :=
      h.frame rfl rfl (fun _ => id) rfl h.states
    exact hTaken.flush _ _
  | expire hPhase => exact h.flush _ _
  | finish hPhase hChannel hStates =>
    have hEnded : Informed { sys with signatures := .ended } :=
      h.frame rfl rfl (fun _ => id) rfl h.states
    exact hEnded.flush _ _
  | @conclude verdict rest last hPhase hOutbox =>
    refine h.frame rfl rfl ?_ ?_ h.states <;> unfold Pipeline.conclude <;> split <;>
      simp [Pipeline.report]

/-- At the beginning nothing has been imported but the anchor, and nothing waits. -/
theorem start [HashFunction] (hs : s.IsAnchored) (limits : WindowLimits)
    (poolSize capacity : Nat) : (System.start s limits poolSize capacity).Informed := by
  obtain ⟨hTree, hNotices⟩ := (Engine.Still.refreshHead { store := s }).quiet
  exact {
    rooted := (rooted_of_anchored hs).of_sameTree hTree
    read_le := Nat.zero_le _
    told := by
      rintro root (hOwed | hTold)
      · exact absurd hOwed List.not_mem_nil
      · rw [Mutator.notices, System.start, Engine.start, hNotices] at hTold
        exact absurd hTold List.not_mem_nil
    batches := fun batch hBatch => absurd hBatch List.not_mem_nil
    pool := fun a ha => absurd ha List.not_mem_nil
    states := trivial }

end Informed

/-- Nobody is about to hear of a block: all news have been taken note of, the engine is not between
the commit of a block and the news of it, and no attestation is between the view that has been taken
for it and its entrance. -/
structure UpToDate (sys : System) : Prop where
  heard : sys.mutator.notices.length ≤ sys.noticesRead
  told : ∀ root, ¬ sys.mutator.Owes root
  entered : ∀ a v, sys.states ≠ .entering a v

/-- What is true of the wait for blocks, at any time. -/
structure WellInformed (t : StateTransition) (sys : System) : Prop where
  /-- A batch is checked with a view that has the block and the state that the check needs. -/
  holds : ∀ batch v, sys.states = .checking batch v → v.Holds batch.key.blockRoot
  /-- So if there is a panic before the attestations are looked at, it is one of the transition. -/
  faults : ∀ batch v fault, sys.states = .checking batch v →
    (v.batchState t batch.key).state = .error (.fault fault) →
      ∃ state, v.state? batch.key.blockRoot = some state ∧
        t.processSlots state (v.preset.startSlot batch.key.target.epoch) = .error (.fault fault)
  /-- No attestation waits for a block that has been committed, unless somebody is about to hear
  of it. -/
  waits : sys.UpToDate → ∀ a ∈ sys.pipeline.pool.attestations,
    sys.view.block? a.data.blockRoot = none

/-- **No lost wakeup, and no panic.** Whatever the threads do, and in whatever order: no batch is
checked without its block and its state, and no attestation waits in vain. -/
theorem wellInformed_of_run [HashFunction] (hs : s.IsAnchored) {limits : WindowLimits}
    {poolSize capacity : Nat}
    (hRun : (start s limits poolSize capacity).run t actions = some sys) :
    sys.WellInformed t := by
  have hInformed : sys.Informed := invariant (Informed.start hs limits poolSize capacity)
    Informed.step hRun
  have hHolds (batch v) (hPhase : sys.states = .checking batch v) :
      v.Holds batch.key.blockRoot := by
    have hStates := hInformed.states
    rwa [hPhase] at hStates
  refine ⟨hHolds, fun batch v fault hPhase hFault => ?_, fun hUpToDate a ha => ?_⟩
  · exact (hHolds batch v hPhase).fault_of_batchState hFault
  · cases hBlock : sys.view.block? a.data.blockRoot with
    | none => rfl
    | some block =>
      rcases hInformed.pool a ha ⟨block, hBlock⟩ with hOwed | hTold
      · exact absurd hOwed (hUpToDate.told _)
      · rw [List.drop_eq_nil_of_le hUpToDate.heard] at hTold
        exact absurd hTold List.not_mem_nil

end System

end

/-! ## A race -/

/-- A vote is submitted and taken, its block is committed, and only then does the vote enter. -/
def Engine.ChainedNetwork.voteDuringImport (n : Engine.ChainedNetwork) : List Action :=
  [.message (.tick 6), .receive 0] ++ List.replicate 6 .work ++
    [.submit n.vote.attestation .gossip, .load, .message (.block n.first), .receive 0, .work,
      .enter]

/-- The engine tells of the block, and the batch of the vote is taken. -/
def Action.newsOfImport : List Action :=
  [.work, .work, .hear, .hear, .pause, .take]

/-- Whether a vote is in the batch that is being checked. -/
def System.isChecking [SignatureScheme] (sys : System) (a : ReceivedAttestation) : Bool :=
  match sys.states with
  | .checking batch _ => decide (a ∈ batch.attestations)
  | _ => false

/-- In a small network a vote waits for a block that has been committed while it was between its two
steps. The engine owes the news, and when they have been taken note of the vote is in the batch that
is checked next. -/
theorem wellInformed_of_voteDuringImport :
    letI : HashFunction := Engine.linearHash
    letI : SignatureScheme := Bls.scheme
    ∃ (n : Engine.ChainedNetwork) (sys sys' : System) (a : ReceivedAttestation) (batch : Batch)
      (v : StoreView), Engine.chainedNetwork = some n ∧ n.store.IsAnchored ∧
        let t := slotTransition n.store.preset
        (System.start n.store ⟨1, 0⟩ 1 1).run t n.voteDuringImport = some sys ∧
        sys.WellInformed t ∧ a ∈ sys.pipeline.pool.attestations ∧
        sys.view.Knows a.data.blockRoot ∧ ¬ sys.UpToDate ∧
        sys.run t Action.newsOfImport = some sys' ∧ sys'.WellInformed t ∧
        sys'.states = .checking batch v ∧ a ∈ batch.attestations ∧ v.Holds batch.key.blockRoot := by
  let : HashFunction := Engine.linearHash
  let : SignatureScheme := Bls.scheme
  have hRuns : (Engine.chainedNetwork.any fun n =>
      let t := slotTransition n.store.preset
      ((System.start n.store ⟨1, 0⟩ 1 1).run t n.voteDuringImport).any fun sys =>
        (sys.run t Action.newsOfImport).any fun sys' =>
          sys.pipeline.pool.attestations.any fun a =>
            sys.view.containsBlock a.data.blockRoot && sys'.isChecking a) = true := by
    decide +kernel
  obtain ⟨n, hNetwork, hGenesis, hRun⟩ := Engine.exists_chainedNetwork hRuns
  simp only [Option.any_eq_true, List.any_eq_true, Bool.and_eq_true] at hRun
  obtain ⟨sys, hFirst, sys', hSecond, a, ha, hKnown, hChecked⟩ := hRun
  have hs := hGenesis.isAnchored
  have hInformed := System.wellInformed_of_run hs hFirst
  have hWhole : (System.start n.store ⟨1, 0⟩ 1 1).run (slotTransition n.store.preset)
      (n.voteDuringImport ++ Action.newsOfImport) = some sys' := by
    rw [System.run_append, hFirst]
    exact hSecond
  have hInformed' := System.wellInformed_of_run hs hWhole
  obtain ⟨block, hBlock⟩ := containsBlock_iff.mp hKnown
  have hOnTheWay : ¬ sys.UpToDate := fun hUpToDate => by
    rw [hInformed.waits hUpToDate a ha] at hBlock
    cases hBlock
  unfold System.isChecking at hChecked
  split at hChecked
  · rename_i batch v hPhase
    exact ⟨n, sys, sys', a, batch, v, hNetwork, hs, hFirst, hInformed, ha, ⟨block, hBlock⟩,
      hOnTheWay, hSecond, hInformed', hPhase, of_decide_eq_true hChecked,
      hInformed'.holds batch v hPhase⟩
  · cases hChecked

end ForkChoice
