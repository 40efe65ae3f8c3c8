import ForkChoice.Pipeline.StateCheck
import ForkChoice.Proofs.Transition.Network

/-!
# ForkChoice — what is known of an attestation that a state accepts

The checks against a state end with the participants, the sum of their keys and the root that they
have signed. All three are functions of the state and the attestation, and of the state they need
only what all states of a network share.

* `BeaconState.SignedBy` — how participants, key and root belong to an attestation,
  `verifyFields_signedBy` — they do when it is accepted;
* `StoreView.accepted_of_verifyBatch` — an attestation of a batch that is accepted;
* `StoreView.batchState_reaches` — the state that it is checked against.
-/

namespace ForkChoice

section

variable [HashFunction] [SignatureScheme]

namespace BeaconState

variable {p : Preset} {config : Config} {s : BeaconState} {a : Attestation}

/-- The participants of the attestation, their keys and what they have to sign, as the state
tells them. -/
structure SignedBy (p : Preset) (config : Config) (s : BeaconState) (a : Attestation)
    (info : SignerInfo) : Prop where
  /-- The participants are those members of the committee whose bits are set. -/
  participants : ∃ committee, s.committee p a.data.slot a.data.index = .ok committee ∧
    a.aggregationBits.length = committee.length ∧
      info.attestingIndices = (committee.zip a.aggregationBits.bits).filterMap fun (index, bit) =>
        if bit then some index else none
  publicKey : ∃ keys, info.attestingIndices.mapM s.readKey = .ok keys ∧
    SignatureScheme.sumKeys keys = .ok info.publicKey
  signingRoot : info.signingRoot = a.data.signingRoot p config s

omit [HashFunction] in
theorem availableKey_eq_ok {index : ValidatorIndex} {key : SignatureScheme.PublicKey} :
    s.availableKey index = .ok key ↔ s.readKey index = .ok key := by
  unfold availableKey
  split <;> simp_all

omit [HashFunction] in
theorem sumOfKeys_eq_ok {indices : List ValidatorIndex} {key : SignatureScheme.PublicKey} :
    s.sumOfKeys indices = .ok key ↔
      ∃ keys, indices.mapM s.readKey = .ok keys ∧ SignatureScheme.sumKeys keys = .ok key := by
  simp only [sumOfKeys, bind_eq_ok, mapM_eq_ok_iff, availableKey_eq_ok]
  constructor
  · rintro ⟨keys, hKeys, h⟩
    refine ⟨keys, hKeys, ?_⟩
    split at h <;> simp_all
  · rintro ⟨keys, hKeys, h⟩
    refine ⟨keys, hKeys, ?_⟩
    rw [h]

/-- **Acceptance.** What the checks give for an attestation belongs to it. -/
theorem verifyFields_signedBy {info : SignerInfo} (h : s.verifyFields p config a = .ok info) :
    s.SignedBy p config a info := by
  simp only [verifyFields, Outcome.orFail, bind_eq_ok, Checked.liftM_eq, Checked.toOutcome_eq_ok,
    Outcome.guard_eq_ok, Outcome.mapError_eq_ok, Classical.not_not, ne_eq] at h
  obtain ⟨epoch, -, perSlot, -, -, committee, hCommittee, hLength, h⟩ := h
  split at h
  · exact absurd h Outcome.fail_ne_ok
  · rename_i key hKey
    cases h
    exact ⟨⟨committee, hCommittee, hLength, rfl⟩, sumOfKeys_eq_ok.mp hKey, rfl⟩

/-- The state gives the verdict of acceptance only with what belongs to the attestation. -/
theorem verifyAttestation_signedBy {a : ReceivedAttestation} {accepted : VerifiedAttestation}
    (h : s.verifyAttestation p config a = .ok (.ok accepted)) :
    accepted.attestation = a ∧ s.SignedBy p config a.attestation accepted.toSignerInfo := by
  unfold verifyAttestation at h
  split at h
  · rename_i info hFields
    cases h
    exact ⟨rfl, verifyFields_signedBy hFields⟩
  · cases h
  · cases h

end BeaconState

namespace StoreView

variable {t : StateTransition} {v : StoreView} {key : BatchKey}

omit [HashFunction] [SignatureScheme] in
/-- The batch is checked against the state after the block that is voted for, or against this
state moved on to the beginning of the target epoch. -/
theorem batchState_reaches {state : BeaconState} (h : (v.batchState t key).state = .ok state) :
    ∃ blockState, v.state? key.blockRoot = some blockState ∧
      (state = blockState ∨
        t.processSlots blockState (v.preset.startSlot key.target.epoch) = .ok state) := by
  unfold batchState at h
  split at h
  · cases h
  · rename_i blockState hState
    refine ⟨blockState, hState, ?_⟩
    split at h
    · cases h
    · dsimp only at h
      split at h
      · exact absurd h Outcome.fail_ne_ok
      · split at h
        · exact absurd h Outcome.fail_ne_ok
        · split at h
          · cases h
            exact Or.inl rfl
          · exact Or.inr (Outcome.mapError_eq_ok.mp h)

/-- An attestation of a batch that is accepted has been accepted at the state of the batch. -/
theorem accepted_of_verifyBatch {batch : List ReceivedAttestation} {found : BatchVerdict}
    {accepted : VerifiedAttestation} (h : v.verifyBatch t key batch = .ok found)
    (hAccepted : .ok accepted ∈ found.verdicts) :
    ∃ state, (v.batchState t key).state = .ok state ∧ accepted.attestation ∈ batch ∧
      state.SignedBy v.preset v.config accepted.attestation.attestation accepted.toSignerInfo := by
  unfold verifyBatch at h
  dsimp only at h
  split at h
  · cases h
  · -- The batch is refused as a whole.
    cases h
    obtain ⟨a, -, hRejected⟩ := List.mem_map.mp hAccepted
    cases hRejected
  · rename_i state hState
    obtain ⟨verdicts, hVerdicts, hFound⟩ := bind_eq_ok.mp h
    cases hFound
    obtain ⟨a, hMem, hVerdict⟩ := mem_of_mapM_eq_ok hVerdicts hAccepted
    obtain ⟨rfl, hSigned⟩ := BeaconState.verifyAttestation_signedBy hVerdict
    exact ⟨state, hState, hMem, hSigned⟩

end StoreView

end

end ForkChoice
