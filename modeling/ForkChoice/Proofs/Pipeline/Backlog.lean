import ForkChoice.Proofs.Pipeline.Passing

/-!
# ForkChoice — the backlog of a pipeline

Behind the check against states there are attestations whose signatures have not been checked: those
of the batches that are being checked, and those in the window. What is in front of them goes on in
the same way whatever they are. Batches go on from the window as soon as they are full, so it can be
told from the attestations alone where a batch ends.

* `Pipeline.unchecked` — the backlog, `Pipeline.front` — the pipeline without it;
* `pass_ok`, `front_handleNotice`, `front_ingest` — what operations do to the two;
* `verifyNext_cases` — all that the check of a batch can do;
* `Pipeline.Fits` — batches are full, and there are not too many attestations.
-/

namespace ForkChoice

variable [SignatureScheme]

/-- How many attestations are checked at once. -/
def WindowLimits.fullSize (limits : WindowLimits) : Nat :=
  max 1 limits.maxSize

namespace Pipeline

/-- Attestations whose signatures have not been checked. -/
def unchecked (p : Pipeline) : List VerifiedAttestation :=
  p.running.flatMap (·.batch) ++ p.window.buffer

/-- The pipeline up to the check of signatures, and all reports. -/
def front (p : Pipeline) : Pipeline :=
  { p with overlap := 0, window := {}, running := [] }

/-- Batches of signatures are full, and there are no more than `count` attestations. -/
structure Fits (count : Nat) (p : Pipeline) : Prop where
  load : p.unchecked.length + p.batches.attestations.length + p.pool.attestations.length ≤ count
  running : ∀ c ∈ p.running, c.batch.length = p.limits.fullSize
  window : p.window.buffer.length < p.limits.fullSize
  outbox : p.outbox = []

variable {p p' : Pipeline} {count : Nat}

theorem Fits.mono {more : Nat} (h : p.Fits count) (hMore : count ≤ more) : p.Fits more :=
  ⟨Nat.le_trans h.load hMore, h.running, h.window, h.outbox⟩

theorem unchecked_elapse (p : Pipeline) (work : Nat) : (p.elapse work).unchecked = p.unchecked := by
  simp [unchecked, elapse, List.flatMap_map]

theorem Fits.elapse (h : p.Fits count) (work : Nat) : (p.elapse work).Fits count where
  load := by
    rw [unchecked_elapse]
    exact h.load
  running c hc := by
    obtain ⟨c', hc', rfl⟩ := List.mem_map.mp hc
    exact h.running c' hc'
  window := h.window
  outbox := h.outbox

/-- What passes the check against a state is on its way to the check of signatures. -/
theorem pass_ok (now : Nat) (p : Pipeline) (a : VerifiedAttestation) :
    (p.pass now (.ok a)).front = p.front.report .state a.attestation none ∧
      (p.pass now (.ok a)).unchecked = p.unchecked ++ [a] := by
  have hItems := Window.receive_eq p.limits now p.window a
  unfold pass
  dsimp only [report]
  generalize p.window.receive p.limits now a = x at hItems ⊢
  obtain ⟨_ | batch, window⟩ := x <;> refine ⟨rfl, ?_⟩ <;>
    simp only [flush, unchecked, List.flatMap_append, List.flatMap_singleton, List.append_assoc] <;>
      exact congrArg (_ ++ ·) hItems

theorem Fits.pass (h : p.Fits count) (now : Nat) (verdict : StateVerdict) :
    (p.pass now verdict).Fits (count + 1) := by
  cases verdict with
  | error rejected => exact ⟨Nat.le_succ_of_le h.load, h.running, h.window, h.outbox⟩
  | ok a =>
    obtain ⟨hFront, hUnchecked⟩ := p.pass_ok now a
    have hLoad : (p.pass now (.ok a)).unchecked.length +
        (p.pass now (.ok a)).front.batches.attestations.length +
          (p.pass now (.ok a)).front.pool.attestations.length ≤ count + 1 := by
      have hBefore : p.unchecked.length + p.front.batches.attestations.length +
          p.front.pool.attestations.length ≤ count := h.load
      rw [hFront, hUnchecked, List.length_append, List.length_singleton]
      dsimp only [report]
      omega
    have hOutbox : (p.pass now (.ok a)).front.outbox = [] := by
      rw [hFront]
      exact h.outbox
    have hLess := h.window
    rw [WindowLimits.fullSize] at hLess
    have hPass : p.pass now (.ok a) = (p.report .state a.attestation none).flush
      (p.window.receive p.limits now a) := rfl
    by_cases hFull : p.limits.maxSize ≤ p.window.buffer.length + 1
    · rw [Window.receive_of_full _ _ _ _ hFull] at hPass
      refine ⟨hLoad, fun c hc => ?_, ?_, hOutbox⟩
      · rw [hPass] at hc ⊢
        rcases List.mem_append.mp hc with hOld | hNew
        · exact h.running c hOld
        · rw [List.mem_singleton.mp hNew, WindowLimits.fullSize]
          simp only [flush, report, List.length_append, List.length_singleton]
          omega
      · rw [hPass]
        exact Nat.lt_of_lt_of_le Nat.zero_lt_one (Nat.le_max_left _ _)
    · obtain ⟨deadline, hMore⟩ := Window.receive_of_not_full p.limits now p.window a hFull
      rw [hMore] at hPass
      refine ⟨hLoad, ?_, ?_, hOutbox⟩
      · rw [hPass]
        exact h.running
      · rw [hPass]
        simp only [flush, report, List.length_append, List.length_singleton, WindowLimits.fullSize]
        omega

theorem Fits.passAll (h : p.Fits count) (now : Nat) (verdicts : List StateVerdict) :
    (verdicts.foldl (Pipeline.pass now) p).Fits (count + verdicts.length) := by
  induction verdicts generalizing p count with
  | nil => exact h
  | cons verdict rest ih =>
    have hRest := ih (h.pass now verdict)
    rwa [Nat.add_assoc, Nat.add_comm 1] at hRest

/-- The oldest batch is checked, if there is one. -/
theorem verifyNext_cases [HashFunction] {t : StateTransition} {v : StoreView} {now : Nat}
    (h : p.verifyNext t v now = .ok p') :
    p.batches.all = [] ∧ p' = p ∨ ∃ batch batches found,
      p.batches.take? = some (batch, batches) ∧
        v.verifyBatch t batch.key batch.attestations = .ok found ∧
          p' = found.verdicts.foldl (pass now)
            ({ p with batches := batches }.elapse found.calls.processSlots) := by
  unfold verifyNext at h
  split at h
  · rename_i hTake
    cases h
    exact Or.inl ⟨BatchQueue.all_eq_nil hTake, rfl⟩
  · rename_i batch batches hTake
    simp only [bind_eq_ok, pure_eq_ok] at h
    obtain ⟨found, hFound, rfl⟩ := h
    exact Or.inr ⟨batch, batches, found, hTake, hFound, rfl⟩

theorem Fits.verifyNext [HashFunction] {t : StateTransition} {v : StoreView} {now : Nat}
    (h : p.Fits count) (hNext : p.verifyNext t v now = .ok p') : p'.Fits count := by
  obtain ⟨-, rfl⟩ | ⟨batch, batches, found, hTake, hFound, rfl⟩ := verifyNext_cases hNext
  · exact h
  · have hVerdicts := congrArg List.length (StoreView.verdicts_of_verifyBatch hFound)
    have hBatches : p.batches.attestations.length =
        batch.attestations.length + batches.attestations.length := by
      rw [BatchQueue.attestations, BatchQueue.all_eq_cons hTake, List.flatMap_cons,
        List.length_append]
      rfl
    have hLoad := h.load
    rw [List.length_map] at hVerdicts
    rw [hBatches] at hLoad
    have hTaken : Fits (count - batch.attestations.length) { p with batches := batches } := by
      refine ⟨?_, h.running, h.window, h.outbox⟩
      show p.unchecked.length + batches.attestations.length + _ ≤ _
      dsimp only
      omega
    refine ((hTaken.elapse _).passAll now found.verdicts).mono ?_
    omega

theorem Fits.verifyPending [HashFunction] {t : StateTransition} {v : StoreView} {now : Nat}
    (h : p.Fits count) (hVerified : p.verifyPending t v now = .ok p') : p'.Fits count := by
  unfold Pipeline.verifyPending at hVerified
  generalize p.batches.size = size at hVerified
  induction size generalizing p with
  | zero =>
    cases hVerified
    exact h
  | succ size ih =>
    simp only [verifyBatches, bind_eq_ok] at hVerified
    obtain ⟨middle, hNext, hRest⟩ := hVerified
    exact ih (h.verifyNext hNext) hRest

/-- A batch less is left. -/
theorem batches_verifyNext [HashFunction] {t : StateTransition} {v : StoreView} {now : Nat}
    (h : p.verifyNext t v now = .ok p') : p'.batches.all = p.batches.all.tail := by
  obtain ⟨hNone, rfl⟩ | ⟨batch, batches, found, hTake, -, rfl⟩ := verifyNext_cases h
  · rw [hNone]
    rfl
  · rw [BatchQueue.all_eq_cons hTake, List.tail_cons]
    have hKept (verdicts : List StateVerdict) (q : Pipeline) :
        (verdicts.foldl (pass now) q).batches = q.batches := by
      induction verdicts generalizing q with
      | nil => rfl
      | cons verdict rest ih =>
        rw [List.foldl_cons, ih]
        cases verdict with
        | error rejected => rfl
        | ok a =>
          have hBatches := congrArg Pipeline.batches (q.pass_ok now a).1
          exact hBatches
    rw [hKept]
    rfl

/-- All batches are checked. -/
theorem batches_verifyPending [HashFunction] {t : StateTransition} {v : StoreView} {now : Nat}
    (h : p.verifyPending t v now = .ok p') : p'.batches.all = [] := by
  have hAll : ∀ {size : Nat} {q : Pipeline}, q.verifyBatches t v now size = .ok p' →
      p'.batches.all = q.batches.all.drop size := by
    intro size q hq
    induction size generalizing q with
    | zero =>
      cases hq
      rfl
    | succ size ih =>
      simp only [verifyBatches, bind_eq_ok] at hq
      obtain ⟨middle, hNext, hRest⟩ := hq
      rw [ih hRest, batches_verifyNext hNext, List.drop_tail]
  rw [hAll h, BatchQueue.size_eq]
  exact List.drop_length

/-- News are taken note of in the same way whatever is on the way to the check of signatures. -/
theorem front_handleNotice (preset : Preset) (p : Pipeline) (notice : Notice) :
    (p.handleNotice preset notice).front = p.front.handleNotice preset notice := by
  cases notice with
  | blockImported root =>
    rw [handleNotice_blockImported, handleNotice_blockImported]
    rfl
  | slotBegan slot =>
    rw [handleNotice_slotBegan, handleNotice_slotBegan]
    rfl

theorem unchecked_handleNotice (preset : Preset) (p : Pipeline) (notice : Notice) :
    (p.handleNotice preset notice).unchecked = p.unchecked := by
  cases notice with
  | blockImported root =>
    rw [handleNotice_blockImported]
    rfl
  | slotBegan slot =>
    rw [handleNotice_slotBegan]
    rfl

theorem Fits.handleNotice (h : p.Fits count) (preset : Preset) (notice : Notice) :
    (p.handleNotice preset notice).Fits count := by
  have hLoad := h.load
  cases notice with
  | blockImported root =>
    have hPool := (p.pool.takeForBlock_perm root).length_eq
    have hBatches := (BatchQueue.pushAll_perm p.batches (p.pool.takeForBlock root).1).length_eq
    rw [List.length_append] at hPool hBatches
    rw [handleNotice_blockImported]
    refine ⟨?_, h.running, h.window, h.outbox⟩
    show p.unchecked.length + _ + _ ≤ _
    dsimp only
    omega
  | slotBegan slot =>
    have hPool := (p.pool.prune_perm (Word.satSub (preset.epochAt slot) 1)).length_eq
    rw [List.length_append] at hPool
    rw [handleNotice_slotBegan]
    refine ⟨?_, h.running, h.window, h.outbox⟩
    show p.unchecked.length + p.batches.attestations.length + _ ≤ _
    dsimp only
    omega

theorem foldl_handleNotice (preset : Preset) (news : List Notice) (p : Pipeline) :
    (news.foldl (Pipeline.handleNotice preset) p).front =
        news.foldl (Pipeline.handleNotice preset) p.front ∧
      (news.foldl (Pipeline.handleNotice preset) p).unchecked = p.unchecked := by
  induction news generalizing p with
  | nil => exact ⟨rfl, rfl⟩
  | cons notice rest ih =>
    obtain ⟨hFront, hUnchecked⟩ := ih (p.handleNotice preset notice)
    rw [front_handleNotice] at hFront
    rw [unchecked_handleNotice] at hUnchecked
    exact ⟨hFront, hUnchecked⟩

theorem Fits.handleNotices (h : p.Fits count) (preset : Preset) (news : List Notice) :
    (news.foldl (Pipeline.handleNotice preset) p).Fits count := by
  induction news generalizing p with
  | nil => exact h
  | cons notice rest ih => exact ih (h.handleNotice preset notice)

theorem front_dispatch (v : StoreView) (p : Pipeline) (a : ReceivedAttestation) :
    (p.dispatch v a).front = p.front.dispatch v a ∧ (p.dispatch v a).unchecked = p.unchecked := by
  unfold dispatch
  split
  · exact ⟨rfl, rfl⟩
  · rw [park_eq, park_eq]
    exact ⟨rfl, rfl⟩

/-- So do attestations enter. -/
theorem front_ingest {v : StoreView} {a : ReceivedAttestation} (h : p.ingest v a = .ok p') :
    p.front.ingest v a = .ok p'.front ∧ p'.unchecked = p.unchecked := by
  unfold ingest at h ⊢
  dsimp only at h ⊢
  split at h
  · cases h
    obtain ⟨hFront, hUnchecked⟩ := front_dispatch v ((p.elapse 1).report .sanity a none) a
    rw [hFront, hUnchecked]
    exact ⟨rfl, unchecked_elapse p 1⟩
  · cases h
    exact ⟨rfl, unchecked_elapse p 1⟩
  · cases h

theorem Fits.ingest {v : StoreView} {a : ReceivedAttestation} (h : p.Fits count)
    (hIngest : p.ingest v a = .ok p') : p'.Fits (count + 1) := by
  have hElapsed := h.elapse 1
  have hLoad := hElapsed.load
  cases ingested_of_ingest hIngest with
  | refused reason =>
    exact ⟨Nat.le_succ_of_le hElapsed.load, hElapsed.running, hElapsed.window, hElapsed.outbox⟩
  | known hKnown =>
    have hBatches := (BatchQueue.push_perm p.batches a).length_eq
    refine ⟨?_, hElapsed.running, hElapsed.window, hElapsed.outbox⟩
    show (p.elapse 1).unchecked.length + (p.batches.push a).attestations.length +
      p.pool.attestations.length ≤ _
    rw [hBatches, List.length_cons]
    have hBefore : (p.elapse 1).unchecked.length + p.batches.attestations.length +
      p.pool.attestations.length ≤ count := hLoad
    omega
  | parked hUnknown =>
    have hPool := (p.pool.insert_perm a).length_eq
    rw [List.length_append, List.length_cons] at hPool
    rw [park_eq]
    refine ⟨?_, hElapsed.running, hElapsed.window, hElapsed.outbox⟩
    show (p.elapse 1).unchecked.length + p.batches.attestations.length +
      (p.pool.insert a).2.attestations.length ≤ _
    have hBefore : (p.elapse 1).unchecked.length + p.batches.attestations.length +
      p.pool.attestations.length ≤ count := hLoad
    omega

end Pipeline

end ForkChoice
