import Mathlib.Data.List.Zip
import ForkChoice.Devnet.Genesis
import ForkChoice.Proofs.Engine.Reach
import ForkChoice.Proofs.Pipeline.Pairing
import ForkChoice.Proofs.Pipeline.StateCheck
import ForkChoice.Proofs.Store.Network

/-!
# ForkChoice — votes go to those who have signed

The signature of an attestation is checked once, before it comes to the store: against the state
after the block that is voted for, moved on to the target epoch if need be. The store does not
check it again. It finds out for itself who takes part, at the state of the target checkpoint,
which is another state: of an earlier block, perhaps one that was moved on and stored long ago.

Nevertheless both find the same validators, the same keys and the same root to be signed, because
all states of a store are of one network and committees do not depend on the slot. So the store
never credits a vote to anybody but those for whom the signature was checked, and it would come to
the same decision if it did check the signature.

* `Store.Opens` — a draft that is open at some time;
* `Draft.CreditsSigners` — both checks agree about an attestation;
* `SignedBy.participants_eq`, `SignedBy.signature_iff` — two states of one network;
* `creditsSigners_of_opens` — the store and the check before it.
-/

namespace ForkChoice

section

open SignatureScheme

variable [SignatureScheme]

variable [HashFunction]

/-- A draft that is open at some time. -/
def Store.Opens (t : StateTransition) (s : Store) (d : Draft) : Prop :=
  ∃ history changes, d = (Draft.ofStore (s.after t history)).changeAll t changes

theorem Store.Opens.shows {t : StateTransition} {s : Store} {d : Draft} (h : s.Opens t d) :
    s.Shows t d.view := by
  obtain ⟨history, changes, rfl⟩ := h
  exact ⟨history, Or.inr ⟨changes, rfl⟩⟩

/-- The votes of an attestation go to those validators for whom its signature is checked before,
and a check by the store would come to the same decision. -/
structure Draft.CreditsSigners (t : StateTransition) (d : Draft) (accepted : VerifiedAttestation)
    (indices : List ValidatorIndex) : Prop where
  participants : indices.Perm accepted.attestingIndices
  ascending : indices.Pairwise (· < ·)
  checked : (∃ credited d', d.attest t .perform accepted.attestation.attestation =
      (.ok credited, d')) ↔
    ∃ signature, readSignature accepted.attestation.attestation.signature = .ok signature ∧
      verify signature accepted.signingRoot accepted.publicKey = true
  /-- If the check by the store succeeds, the votes are recorded as they are without it. -/
  unchanged : ∀ credited d',
    d.attest t .perform accepted.attestation.attestation = (.ok credited, d') →
      d.attest t .skip accepted.attestation.attestation = (.ok credited, d')

/-! ## Two states of one network -/

namespace BeaconState.SignedBy

variable {p : Preset} {config : Config} {s s' : BeaconState} {a : Attestation} {info : SignerInfo}
  {members : List ValidatorIndex}

/-- Another state of the network tells the same participants, if it tells any. -/
theorem participants_eq (h : s.SignedBy p config a info) (hNetwork : s.SameNetwork s')
    (hMembers : s'.attestingIndices p a.data a.aggregationBits = .ok members) :
    members = info.attestingIndices := by
  obtain ⟨committee, hCommittee, hLength, hIndices⟩ := h.participants
  obtain ⟨committee', hCommittee', -, rfl⟩ := attestingIndices_eq_ok.mp hMembers
  obtain rfl := hNetwork.committee_unique hCommittee hCommittee'
  rw [hIndices, ← List.zip_swap, List.filterMap_map]
  rfl

/-- The signature verifies under the keys that another state of the network tells of the
participants, in any order, if it verifies under the sum of the keys. -/
theorem signature_iff (h : s.SignedBy p config a info) (hNetwork : s.SameNetwork s')
    (hSums : ChecksSums) {indices : List ValidatorIndex}
    (hIndices : indices.Perm info.attestingIndices) :
    SignatureCheck.perform.all (a.data.signingRoot p config s') a.signature
        (fun _ => indices.mapM s'.readKey) .attestation = .ok () ↔
      ∃ signature, readSignature a.signature = .ok signature ∧
        verify signature info.signingRoot info.publicKey = true := by
  obtain ⟨keys, hKeys, hSum⟩ := h.publicKey
  have hRead : s'.readKey = s.readKey := funext hNetwork.readKey_eq
  obtain ⟨keys', hKeys', hPerm⟩ := mapM_perm hKeys hIndices
  rw [SignatureCheck.all_perform, hRead, hNetwork.signingRoot_eq, ← h.signingRoot]
  constructor
  · rintro ⟨signature, hSignature, found, hFound, hVerifies⟩
    cases hKeys'.symm.trans hFound
    exact ⟨signature, hSignature, hSums signature _ keys keys' _ hPerm hSum ▸ hVerifies⟩
  · rintro ⟨signature, hSignature, hVerifies⟩
    exact ⟨signature, hSignature, keys', hKeys',
      hSums signature _ keys keys' _ hPerm hSum ▸ hVerifies⟩

end BeaconState.SignedBy

/-! ## The store and the check before it -/

section

variable {s : Store} {v : StoreView} {d d' : Draft} {key : BatchKey}
  {batch : List ReceivedAttestation} {found : StoreView.BatchVerdict}
  {accepted : VerifiedAttestation} {indices : List ValidatorIndex}

/-- An attestation that is accepted has been accepted by some state of the network. -/
theorem signedBy_of_verifyBatch {origin : BeaconState} (hv : v.InNetwork s origin)
    (hBatch : v.verifyBatch (slotTransition s.preset) key batch = .ok found)
    (hAccepted : .ok accepted ∈ found.verdicts) :
    ∃ state, origin.SameNetwork state ∧
      state.SignedBy s.preset s.config accepted.attestation.attestation accepted.toSignerInfo := by
  obtain ⟨state, hState, -, hSigned⟩ := StoreView.accepted_of_verifyBatch hBatch hAccepted
  rw [hv.preset, hv.config] at hSigned
  refine ⟨state, ?_, hSigned⟩
  obtain ⟨blockState, hBlock, rfl | hMoved⟩ := StoreView.batchState_reaches hState
  · exact hv.state hBlock
  · exact (hv.state hBlock).trans (BeaconState.slotTransition_processSlots_sameNetwork hMoved)

/-- **Votes go to those who have signed.** Whenever an attestation passes the check against the
state of its batch, and whenever it comes to the store after that (or before), the store credits
its votes to the participants whose keys and message were checked, or refuses it. -/
theorem creditsSigners_of_opens (hs : s.IsGenesis) (hSums : ChecksSums)
    (hv : s.Shows (slotTransition s.preset) v) (hd : s.Opens (slotTransition s.preset) d)
    (hBatch : v.verifyBatch (slotTransition s.preset) key batch = .ok found)
    (hAccepted : .ok accepted ∈ found.verdicts)
    (hAttest : d.attest (slotTransition s.preset) .skip accepted.attestation.attestation =
      (.ok indices, d')) :
    d.CreditsSigners (slotTransition s.preset) accepted indices := by
  obtain ⟨origin, hOrigin⟩ := StoreView.exists_inNetwork_of_shows hs
  have hStore := hOrigin hd.shows
  -- The state against which the batch was checked.
  obtain ⟨state, hBatchState, hSigned⟩ := signedBy_of_verifyBatch (hOrigin hv) hBatch hAccepted
  -- The state at which the store finds the participants.
  obtain ⟨targetState, atTarget, cached, hVote, hCached, ⟨members, hMembers, hSorted⟩, hAscending,
    hPerform⟩ := Draft.attest_perform_iff hAttest
  obtain ⟨-, -, -, hTarget, -⟩ := StoreView.admitVote_eq_ok.mp hVote
  have hFound := hStore.checkpointState_draft (hStore.state hTarget)
    accepted.attestation.attestation.data.target
  rw [hCached] at hFound
  obtain ⟨hAfter, hAtTarget⟩ := hFound
  have hNetwork := hBatchState.symm.trans (hAtTarget atTarget rfl)
  -- Both states are of one network, under the same rules.
  rw [hAfter.preset] at hMembers
  rw [hAfter.preset, hAfter.config] at hPerform
  have hPerm : indices.Perm accepted.attestingIndices := by
    rw [hSorted, ← hSigned.participants_eq hNetwork hMembers]
    exact List.mergeSort_perm _ _
  have hSignature := hSigned.signature_iff hNetwork hSums hPerm
  exact {
    participants := hPerm
    ascending := pairwise_of_isStrictlyAscending hAscending
    checked := by
      constructor
      · rintro ⟨credited, d'', h⟩
        exact hSignature.mp ((hPerform credited d'').mp h).2.2
      · intro h
        exact ⟨indices, d', (hPerform indices d').mpr ⟨rfl, rfl, hSignature.mpr h⟩⟩
    unchanged := by
      intro credited d'' h
      obtain ⟨rfl, rfl, -⟩ := (hPerform credited d'').mp h
      exact hAttest }

end

end

/-! ## A small network -/

/-- A network of sixteen validators at genesis, whose keys can be read as numbers. -/
def signingNetwork [HashFunction] : Option Store := do
  let validators := (List.range 16).map fun i => Devnet.keylessValidator (i + 1)
  let state ← (Devnet.genesisState .minimal .minimal 0 validators).toOption
  let anchor ← (Devnet.genesisBlock .minimal state).toOption
  (Store.ofAnchor .minimal .minimal {} anchor state).toOption

theorem isGenesis_of_signingNetwork [HashFunction] {s : Store} (h : signingNetwork = some s) :
    s.IsGenesis := by
  simp only [signingNetwork, Option.bind_eq_bind, Option.bind_eq_some_iff,
    Engine.toOption_eq_some] at h
  obtain ⟨state, hState, anchor, hAnchor, hStore⟩ := h
  exact (Store.isGenesis_of_ofAnchor hState hAnchor hStore).1

/-- The vote for the anchor by members of the first committee, of which there are two. -/
def firstVote (s : Store) (member member' : Bool) (signature : SignatureBytes) :
    ReceivedAttestation :=
  have hRoom : 2 ≤ maxValidatorsPerCommittee := by decide
  ⟨⟨⟨[member, member'], hRoom⟩, ⟨0, 0, s.anchorRoot, .empty, ⟨0, s.anchorRoot⟩⟩, signature⟩,
    .gossip, 0⟩

/-- The signature that is right for this vote. -/
def signatureOf [HashFunction] (s : Store) (member member' : Bool) : Option SignatureBytes :=
  letI := integerScheme
  do
    let state ← s.view.state? s.anchorRoot
    let vote := (firstVote s member member' 0).attestation
    let info ← (state.verifyFields s.preset s.config vote).toOption
    let key : ℤ := info.publicKey
    return BitVec.ofInt 768 (key * messageNumber info.signingRoot)

/-- The first member of the committee votes in the first slot, with the right signature. -/
theorem creditsSigners_of_firstVote :
    letI : HashFunction := Engine.linearHash
    letI : SignatureScheme := integerScheme
    ∃ (s : Store) (d d' : Draft) (found : StoreView.BatchVerdict) (accepted : VerifiedAttestation)
      (indices : List ValidatorIndex),
      s.IsGenesis ∧ SignatureScheme.ChecksSums ∧ s.Opens (slotTransition s.preset) d ∧
        d.view.verifyBatch (slotTransition s.preset) accepted.attestation.batchKey
          [accepted.attestation] = .ok found ∧ .ok accepted ∈ found.verdicts ∧
        d.attest (slotTransition s.preset) .skip accepted.attestation.attestation =
          (.ok indices, d') ∧
        d.CreditsSigners (slotTransition s.preset) accepted indices ∧
        ∃ credited d'', d.attest (slotTransition s.preset) .perform
          accepted.attestation.attestation = (.ok credited, d'') := by
  let : HashFunction := Engine.linearHash
  let : SignatureScheme := integerScheme
  have hRuns : (signingNetwork.any fun s => (signatureOf s true false).any fun signature =>
      let t := slotTransition s.preset
      let vote := firstVote s true false signature
      let d := (Draft.ofStore s).changeAll t [.tick 6]
      (d.attest t .perform vote.attestation).1.toOption.isSome &&
        (d.attest t .skip vote.attestation).1.toOption.isSome &&
          (d.view.verifyBatch t vote.batchKey [vote]).toOption.any
            (·.verdicts.any (·.toOption.isSome))) = true := by
    decide +kernel
  obtain ⟨s, hNetwork, hRun⟩ := (Option.any_eq_true ..).mp hRuns
  obtain ⟨signature, -, hRun⟩ := (Option.any_eq_true ..).mp hRun
  have hs := isGenesis_of_signingNetwork hNetwork
  let t := slotTransition s.preset
  let d := (Draft.ofStore s).changeAll t [.tick 6]
  have hOpen : s.Opens t d := ⟨[], [.tick 6], rfl⟩
  simp only [Bool.and_eq_true, Option.any_eq_true, List.any_eq_true, Option.isSome_iff_exists,
    Engine.toOption_eq_some] at hRun
  obtain ⟨⟨⟨credited, hPerform⟩, indices, hSkip⟩, found, hBatch, _, hMem, accepted, rfl⟩ := hRun
  -- The batch holds one vote only.
  obtain ⟨-, -, hOnly, -⟩ := StoreView.accepted_of_verifyBatch hBatch hMem
  rw [← List.mem_singleton.mp hOnly] at hPerform hSkip hBatch
  exact ⟨s, d, _, found, accepted, indices, hs, integerPairing.checksSums, hOpen, hBatch, hMem,
    Prod.ext hSkip rfl, creditsSigners_of_opens hs integerPairing.checksSums hOpen.shows hOpen
      hBatch hMem (Prod.ext hSkip rfl), credited, _, Prod.ext hPerform rfl⟩

end ForkChoice
