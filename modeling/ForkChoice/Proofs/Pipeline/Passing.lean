import Mathlib.Data.List.Perm.Basic
import ForkChoice.Pipeline.Basic
import ForkChoice.Proofs.Pipeline.BatchQueue
import ForkChoice.Proofs.Pipeline.SignatureBatch
import ForkChoice.Proofs.Pipeline.StateCheck

/-!
# ForkChoice — attestations are passed on

The pool of attestations for unknown blocks, the window and the two checks all arrange attestations
anew, as the queue of batches does. None of them loses one or makes one up: what comes out, with what
stays inside, is what was there, in some order.

* `UnknownBlockPool.insert_perm`, `takeForBlock_perm`, `prune_perm` — the pool;
* `Window.receive_eq`, `expire_eq`, `close_eq` — the window;
* `verdicts_of_verifyBatch`, `verifySignatures_perm` — the checks;
* `Pipeline.Ingested`, `ingested_of_ingest` — an attestation that enters;
* `handleNotice_blockImported`, `handleNotice_slotBegan` — attestations that do not have to wait any
  longer;
* `conclude_eq`, `foldl_conclude` — reports on signatures.
-/

namespace ForkChoice

/-! ## The pool -/

namespace UnknownBlockPool

variable {pool : UnknownBlockPool} {a : ReceivedAttestation}

/-- One attestation more is in the pool, unless one has to leave. -/
theorem insert_perm (pool : UnknownBlockPool) (a : ReceivedAttestation) :
    ((pool.insert a).1.toList ++ (pool.insert a).2.attestations).Perm
      (a :: pool.attestations) := by
  unfold insert
  split
  · exact .refl _
  · split
    · exact List.perm_append_singleton a pool.attestations
    · cases pool.attestations with
      | nil => exact .refl _
      | cons first rest =>
        exact ((List.perm_append_singleton a rest).cons first).trans (.swap a first rest)

theorem takeWhere_eq (pool : UnknownBlockPool) (condition : ReceivedAttestation → Bool) :
    pool.takeWhere condition = (pool.attestations.filter condition,
      { pool with attestations := pool.attestations.filter (not ∘ condition) }) := by
  rw [takeWhere, List.partition_eq_filter_filter]

theorem takeWhere_perm (pool : UnknownBlockPool) (condition : ReceivedAttestation → Bool) :
    ((pool.takeWhere condition).1 ++ (pool.takeWhere condition).2.attestations).Perm
      pool.attestations := by
  rw [takeWhere_eq]
  exact List.filter_append_perm _ _

theorem takeForBlock_perm (pool : UnknownBlockPool) (root : Root) :
    ((pool.takeForBlock root).1 ++ (pool.takeForBlock root).2.attestations).Perm
      pool.attestations :=
  pool.takeWhere_perm _

theorem prune_perm (pool : UnknownBlockPool) (epoch : Epoch) :
    ((pool.prune epoch).1 ++ (pool.prune epoch).2.attestations).Perm pool.attestations :=
  pool.takeWhere_perm _

end UnknownBlockPool

/-! ## The window -/

namespace Window

variable {α : Type}

/-- What goes on and what is still collected are what was there before, and the new item. -/
theorem receive_eq (limits : WindowLimits) (now : Nat) (w : Window α) (x : α) :
    ((w.receive limits now x).1.getD []) ++ (w.receive limits now x).2.buffer =
      w.buffer ++ [x] := by
  unfold receive
  dsimp only
  split
  · exact List.append_nil _
  · rfl

/-- There are enough items with the new one. -/
theorem receive_of_full (limits : WindowLimits) (now : Nat) (w : Window α) (x : α)
    (h : limits.maxSize ≤ w.buffer.length + 1) :
    w.receive limits now x = (some (w.buffer ++ [x]), {}) := by
  unfold receive
  dsimp only
  rw [if_pos (by rw [List.length_append, List.length_singleton]; exact h)]

/-- There are not enough items yet. -/
theorem receive_of_not_full (limits : WindowLimits) (now : Nat) (w : Window α) (x : α)
    (h : ¬ limits.maxSize ≤ w.buffer.length + 1) :
    ∃ deadline, w.receive limits now x = (none, ⟨w.buffer ++ [x], deadline⟩) := by
  unfold receive
  dsimp only
  rw [if_neg (by rw [List.length_append, List.length_singleton]; exact h)]
  exact ⟨_, rfl⟩

theorem expire_eq (w : Window α) : (w.expire.1.getD []) ++ w.expire.2.buffer = w.buffer := by
  unfold expire
  split
  · exact List.append_nil _
  · rfl

theorem close_eq (w : Window α) : w.close.1.getD [] = w.buffer ∧ w.close.2.buffer = [] := by
  unfold close
  split
  · rename_i hEmpty
    rw [List.isEmpty_iff] at hEmpty
    rw [hEmpty]
    exact ⟨rfl, rfl⟩
  · exact ⟨rfl, rfl⟩

end Window

/-! ## The checks -/

namespace SignatureVerdict

/-- Why a signature is rejected, if it is. -/
def rejection (verdict : SignatureVerdict) : Option Rejection :=
  match verdict.result with
  | .ok () => none
  | .error reason => some reason

/-- The attestations whose signatures are valid. -/
def valid (verdicts : List SignatureVerdict) : List ReceivedAttestation :=
  verdicts.flatMap fun verdict =>
    if verdict.rejection = none then [verdict.attestation] else []

end SignatureVerdict

variable [SignatureScheme]

/-- The attestation that a verdict is about. -/
def StateVerdict.attestation : StateVerdict → ReceivedAttestation
  | .ok verified => verified.attestation
  | .error rejected => rejected.attestation

/-- **The check against a state** finds out something about each attestation of the batch. -/
theorem StoreView.verdicts_of_verifyBatch [HashFunction] {t : StateTransition} {v : StoreView}
    {key : BatchKey} {batch : List ReceivedAttestation} {found : BatchVerdict}
    (h : v.verifyBatch t key batch = .ok found) :
    found.verdicts.map StateVerdict.attestation = batch := by
  unfold verifyBatch at h
  dsimp only at h
  split at h
  · cases h
  · cases h
    simp [StateVerdict.attestation, Function.comp_def]
  · rename_i state _
    simp only [bind_eq_ok, pure_eq_ok] at h
    obtain ⟨verdicts, hVerdicts, rfl⟩ := h
    dsimp only
    rw [mapM_eq_ok_iff] at hVerdicts
    induction hVerdicts with
    | nil => rfl
    | @cons a verdict batch verdicts hVerdict _ ih =>
      rw [List.map_cons, ih]
      congr 1
      unfold BeaconState.verifyAttestation at hVerdict
      split at hVerdict <;> cases hVerdict <;> rfl

/-- Groups hold what has been put into them. -/
theorem addToGroup_perm (groups : GroupMap) (c : SignedCandidate) :
    ((LinkedMap.entries (addToGroup groups c)).flatMap Prod.snd).Perm
      ((LinkedMap.entries groups).flatMap Prod.snd ++ [c]) := by
  obtain ⟨group, hGroup, hEntries⟩ := entries_addToGroup groups c
  rw [hEntries, List.flatMap_append, List.flatMap_singleton, ← List.append_assoc]
  refine List.Perm.append_right [c] ?_
  rcases hGroup with hOld | ⟨rfl, hNew⟩
  · have hMoved := (LinkedMap.Lawful.perm_of_mem hOld).flatMap_right Prod.snd
    rw [List.flatMap_append, List.flatMap_singleton] at hMoved
    exact hMoved.symm
  · rw [List.append_nil, List.filter_eq_self.mpr fun e he => decide_eq_true (hNew e he)]

theorem foldl_addToGroup_perm (groups : GroupMap) (candidates : List SignedCandidate) :
    ((LinkedMap.entries (candidates.foldl addToGroup groups)).flatMap Prod.snd).Perm
      ((LinkedMap.entries groups).flatMap Prod.snd ++ candidates) := by
  induction candidates generalizing groups with
  | nil => rw [List.append_nil]; rfl
  | cons c rest ih =>
    rw [List.foldl_cons, List.append_cons]
    exact (ih _).trans ((addToGroup_perm groups c).append_right rest)

theorem signatureGroups_perm (candidates : List SignedCandidate) :
    ((signatureGroups candidates).flatMap (·.members)).Perm candidates := by
  rw [signatureGroups, List.flatMap_map]
  exact foldl_addToGroup_perm LinkedMap.empty candidates

/-- A group is folded or checked one by one, but nothing is left out. -/
theorem verifyGroup_perm (members : List SignedCandidate) :
    ((verifyGroup members).map (·.attestation)).Perm
      (members.map (·.verified.attestation)) := by
  have hPerm :=
    (foldDisjoint_perm {} (byParticipants members)).trans (List.mergeSort_perm members _)
  unfold verifyGroup
  generalize foldDisjoint {} (byParticipants members) = parts at hPerm ⊢
  obtain ⟨fold, folded, deferred⟩ := parts
  dsimp only at hPerm ⊢
  refine List.Perm.trans (.of_eq ?_) (hPerm.map _)
  cases verifiesTogether fold folded <;> simp [verifyAlone, Function.comp_def]

/-- A signature can be read or not. -/
theorem readable_unreadable_perm (batch : List VerifiedAttestation) :
    ((unreadable batch).map (·.attestation) ++
      (readable batch).map (·.verified.attestation)).Perm (batch.map (·.attestation)) := by
  induction batch with
  | nil => exact .refl _
  | cons v rest ih =>
    unfold unreadable readable at ih ⊢
    simp only [List.filterMap_cons]
    cases hRead : readCandidate v with
    | error verdict =>
      unfold readCandidate at hRead
      split at hRead <;> cases hRead
      exact ih.cons _
    | ok candidate =>
      unfold readCandidate at hRead
      split at hRead <;> cases hRead
      exact List.perm_middle.trans (ih.cons _)

/-- **The check of signatures** finds out something about each attestation of the batch. -/
theorem verifySignatures_perm (batch : List VerifiedAttestation) :
    ((verifySignatures batch).map (·.attestation)).Perm (batch.map (·.attestation)) := by
  have hGroups := signatureGroups_perm (readable batch)
  unfold verifySignatures
  generalize signatureGroups (readable batch) = groups at hGroups ⊢
  have hChecked : ((groups.flatMap fun g => verifyGroup g.members).map (·.attestation)).Perm
      ((groups.flatMap (·.members)).map (·.verified.attestation)) := by
    clear hGroups
    induction groups with
    | nil => exact .refl _
    | cons g rest ih =>
      rw [List.flatMap_cons, List.flatMap_cons, List.map_append, List.map_append]
      exact (verifyGroup_perm g.members).append ih
  rw [List.map_append]
  exact ((hChecked.trans (hGroups.map _)).append_left _).trans (readable_unreadable_perm batch)

/-! ## Handlers -/

namespace Pipeline

variable {p p' : Pipeline} {v : StoreView} {a : ReceivedAttestation}

/-- An attestation has to wait, and the one that makes room for it is reported on. -/
theorem park_eq (p : Pipeline) (a : ReceivedAttestation) :
    p.park a = { p with
      pool := (p.pool.insert a).2
      events := p.events ++ (p.pool.insert a).1.toList.map fun evicted =>
        ⟨.unknownBlock, evicted, some (.evictedFromUnknownBlockPool evicted.data.blockRoot)⟩ } := by
  unfold park
  split <;> rename_i hInsert <;> rw [hInsert]
  · simp
  · rfl

/-- What becomes of an attestation that enters. -/
inductive Ingested (v : StoreView) (p : Pipeline) (a : ReceivedAttestation) : Pipeline → Prop
  | refused (reason : Rejection) : Ingested v p a (p.report .sanity a (some reason))
  | known (hKnown : v.containsBlock a.data.blockRoot = true) :
    Ingested v p a { p.report .sanity a none with batches := p.batches.push a }
  | parked (hUnknown : v.containsBlock a.data.blockRoot = false) :
    Ingested v p a ((p.report .sanity a none).park a)

theorem ingested_of_ingest (h : p.ingest v a = .ok p') : Ingested v (p.elapse 1) a p' := by
  unfold ingest at h
  dsimp only at h
  split at h
  · cases h
    unfold dispatch
    split
    · rename_i hKnown
      exact .known hKnown
    · rename_i hUnknown
      exact .parked (Bool.eq_false_iff.mpr hUnknown)
  · cases h
    exact .refused _
  · cases h

theorem foldl_release (released : List ReceivedAttestation) (p : Pipeline) :
    released.foldl release p = { p with
      events := p.events ++ released.map fun a => ⟨.unknownBlock, a, none⟩
      batches := released.foldl BatchQueue.push p.batches } := by
  induction released generalizing p with
  | nil => simp
  | cons a rest ih =>
    rw [List.foldl_cons, ih]
    simp [release, report]

theorem foldl_expire (expired : List ReceivedAttestation) (p : Pipeline) :
    expired.foldl expire p = { p with
      events := p.events ++ expired.map fun a => ⟨.unknownBlock, a,
        some (.unknownBlockExpired a.data.blockRoot a.data.target.epoch)⟩ } := by
  induction expired generalizing p with
  | nil => simp
  | cons a rest ih =>
    rw [List.foldl_cons, ih]
    simp [expire, report]

theorem conclude_eq (p : Pipeline) (verdict : SignatureVerdict) :
    p.conclude verdict = { p with
      events := p.events ++ [⟨.signature, verdict.attestation, verdict.rejection⟩]
      outbox := p.outbox ++ if verdict.rejection = none then [verdict.attestation] else [] } := by
  obtain ⟨a, reason | ⟨⟩⟩ := verdict
  · simp [conclude, SignatureVerdict.rejection, report]
  · rfl

theorem foldl_conclude (verdicts : List SignatureVerdict) (p : Pipeline) :
    verdicts.foldl conclude p = { p with
      events := p.events ++ verdicts.map fun verdict =>
        ⟨.signature, verdict.attestation, verdict.rejection⟩
      outbox := p.outbox ++ SignatureVerdict.valid verdicts } := by
  induction verdicts generalizing p with
  | nil => simp [SignatureVerdict.valid]
  | cons verdict rest ih =>
    rw [List.foldl_cons, ih, conclude_eq]
    simp [SignatureVerdict.valid]

/-- Attestations whose block has been imported go on. -/
theorem handleNotice_blockImported (preset : Preset) (p : Pipeline) (root : Root) :
    p.handleNotice preset (.blockImported root) = { p with
      pool := (p.pool.takeForBlock root).2
      events := p.events ++ (p.pool.takeForBlock root).1.map fun a => ⟨.unknownBlock, a, none⟩
      batches := (p.pool.takeForBlock root).1.foldl BatchQueue.push p.batches } :=
  foldl_release _ _

/-- Attestations that have waited too long are given up. -/
theorem handleNotice_slotBegan (preset : Preset) (p : Pipeline) (slot : Slot) :
    p.handleNotice preset (.slotBegan slot) =
      let (expired, pool) := p.pool.prune (Word.satSub (preset.epochAt slot) 1)
      { p with
        pool := pool
        events := p.events ++ expired.map fun a => ⟨.unknownBlock, a,
          some (.unknownBlockExpired a.data.blockRoot a.data.target.epoch)⟩ } :=
  foldl_expire _ _

end Pipeline

end ForkChoice
