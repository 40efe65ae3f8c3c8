import ForkChoice.Proofs.Chain.Participants
import ForkChoice.Proofs.Pipeline.Attribution
import ForkChoice.Proofs.Store.LatestVotes

/-!
# ForkChoice — whose votes an attestation changes

An attestation is indexed at a state: the members of its committee whose bits are set are sorted by
index. Everything that is asked of an indexed attestation before its signature is then true unless
no bit is set, because no member stands in a committee twice. So an attestation that the store
accepts changes the votes of exactly these members, and of nobody else.

* `BeaconState.TakesPart` — a member of the committee whose bit is set;
* `IndexedAttestation.WellFormed`, `BeaconState.indexed_wellFormed` — an indexed attestation;
* `Draft.Considers`, `Draft.considers_of_attest` — an attestation that is accepted;
* `participants_of_attestation` — both.
-/

namespace ForkChoice

section

variable [HashFunction]

/-- The validator is a member of the committee of the attestation, and its bit is set. -/
def BeaconState.TakesPart (p : Preset) (s : BeaconState) (a : Attestation) (i : ValidatorIndex) :
    Prop :=
  ∃ committee, s.committee p a.data.slot a.data.index = .ok committee ∧
    committee.length = a.aggregationBits.length ∧
      ∃ k : Nat, committee[k]? = some i ∧ a.aggregationBits.bits[k]? = some true

variable {p : Preset} {s : BeaconState} {a : Attestation} {x : IndexedAttestation}

/-- The participants are those members of the committee whose bits are set, in another order. -/
theorem BeaconState.indexed_eq_ok :
    s.indexed p a = .ok x ↔ ∃ committee, s.committee p a.data.slot a.data.index = .ok committee ∧
      committee.length = a.aggregationBits.length ∧
        x = ⟨(selected a.aggregationBits.bits committee).mergeSort fun i j => decide (i ≤ j),
          a.data, a.signature⟩ := by
  simp only [indexed, bind_eq_ok, pure_eq_ok, attestingIndices_eq_ok]
  constructor
  · rintro ⟨_, ⟨committee, hCommittee, hLength, rfl⟩, rfl⟩
    exact ⟨committee, hCommittee, hLength, rfl⟩
  · rintro ⟨committee, hCommittee, hLength, rfl⟩
    exact ⟨_, ⟨committee, hCommittee, hLength, rfl⟩, rfl⟩

/-- A state that tells the committee tells who takes part. -/
theorem BeaconState.takesPart_iff {committee : List ValidatorIndex}
    (hCommittee : s.committee p a.data.slot a.data.index = .ok committee)
    (hLength : committee.length = a.aggregationBits.length) {i : ValidatorIndex} :
    s.TakesPart p a i ↔
      i ∈ (selected a.aggregationBits.bits committee).mergeSort fun i j => decide (i ≤ j) := by
  rw [List.mem_mergeSort, mem_selected]
  constructor
  · rintro ⟨_, hSame, -, k, hk⟩
    cases hCommittee.symm.trans hSame
    exact ⟨k, hk⟩
  · rintro ⟨k, hk⟩
    exact ⟨committee, hCommittee, hLength, k, hk⟩

end

/-! ## Indexed attestations -/

section

variable [SignatureScheme]

/-- Reading the key of a validator says nothing about the order of validators. -/
theorem BeaconState.readKey_ne_notSorted (s : BeaconState) (index : ValidatorIndex) :
    s.readKey index ≠ .error .notSortedAndUnique := by
  unfold readKey
  split
  · rename_i validator _
    cases SignatureScheme.readKey validator.publicKey <;> nofun
  · nofun

/-- Neither does the check of a signature. -/
theorem SignatureCheck.all_ne_notSorted (check : SignatureCheck) (message : Root)
    (signature : SignatureBytes) (s : BeaconState) (indices : List ValidatorIndex)
    (kind : SignatureKind) :
    check.all message signature (fun _ => indices.mapM s.readKey) kind ≠
      .error .notSortedAndUnique := by
  cases check with
  | skip => nofun
  | perform =>
    intro h
    simp only [all] at h
    rcases bind_eq_error.mp h with hSignature | ⟨decoded, -, h⟩
    · cases hRead : SignatureScheme.readSignature signature <;> rw [hRead] at hSignature <;>
        cases hSignature
    rcases bind_eq_error.mp h with hKeys | ⟨keys, -, hVerdict⟩
    · obtain ⟨index, -, hKey⟩ := exists_of_mapM_eq_error hKeys
      exact s.readKey_ne_notSorted index hKey
    · split at hVerdict <;> cases hVerdict

variable [HashFunction]

/-- What an attestation is, once it has been indexed at a state. -/
structure IndexedAttestation.WellFormed (p : Preset) (s : BeaconState) (a : Attestation)
    (x : IndexedAttestation) : Prop where
  data_eq : x.data = a.data
  signature_eq : x.signature = a.signature
  ascending : x.attestingIndices.Pairwise (· < ·)
  mem_iff : ∀ i, i ∈ x.attestingIndices ↔ s.TakesPart p a i
  /-- Participants are active in the epoch of the slot. -/
  active : ∀ i ∈ x.attestingIndices, ∃ validator, s.validators[i.toNat]? = some validator ∧
    validator.isActive (p.epochAt a.data.slot) = true
  length_eq : x.attestingIndices.length = a.aggregationBits.count
  /-- It is never refused for the order of its participants, at whatever state it is checked. -/
  sorted : ∀ config s' check,
    x.validate p config s' check true ≠ .error .notSortedAndUnique
  /-- Without the check of its signature it is refused only if no bit is set. -/
  skipped : ∀ config s', x.validate p config s' .skip true =
    if a.aggregationBits.any then .ok () else .error .noAttestingIndices

/-- **Indexed attestations** are well formed. The registry has a number for every validator. -/
theorem BeaconState.indexed_wellFormed {p : Preset} {s : BeaconState} {a : Attestation}
    {x : IndexedAttestation} (hRegistry : s.validators.size ≤ UInt64.size)
    (h : s.indexed p a = .ok x) : x.WellFormed p s a := by
  obtain ⟨committee, hCommittee, hLength, rfl⟩ := indexed_eq_ok.mp h
  have hSublist := selected_sublist a.aggregationBits.bits committee
  have hAscending := pairwise_lt_mergeSort
    ((committee_nodup hRegistry hCommittee).sublist hSublist)
  have hCount : ((selected a.aggregationBits.bits committee).mergeSort
      fun i j => decide (i ≤ j)).length = a.aggregationBits.count := by
    rw [List.length_mergeSort, length_selected hLength.symm]
    rfl
  -- There are participants exactly if a bit is set.
  have hEmpty : ((selected a.aggregationBits.bits committee).mergeSort
      fun i j => decide (i ≤ j)).isEmpty = !a.aggregationBits.any := by
    rw [Bool.eq_iff_iff, List.isEmpty_iff, ← List.length_eq_zero_iff, hCount, BitList.count,
      List.count_eq_zero, Bool.not_eq_true', BitList.any, List.any_eq_false]
    simp
  have hSorted := isStrictlyAscending_of_pairwise hAscending
  exact {
    data_eq := rfl
    signature_eq := rfl
    ascending := hAscending
    mem_iff := fun i => (takesPart_iff hCommittee hLength).symm
    active := by
      intro i hMem
      exact isActive_of_mem_committee hRegistry hCommittee
        (hSublist.subset (List.mem_mergeSort.mp hMem))
    length_eq := hCount
    sorted := by
      intro config s' check
      unfold IndexedAttestation.validate
      rw [hSorted]
      split
      · nofun
      · exact check.all_ne_notSorted _ _ _ _ _
    skipped := by
      intro config s'
      unfold IndexedAttestation.validate
      rw [hSorted, hEmpty]
      cases a.aggregationBits.any <;> rfl }

end

/-! ## Accepted attestations -/

section

variable [HashFunction]

/-- What an accepted attestation does: `indices` are its participants at the state of its target,
and their votes are those that change. -/
structure Draft.Considers (d : Draft) (a : Attestation) (indices : List ValidatorIndex)
    (d' : Draft) : Prop where
  ascending : indices.Pairwise (· < ·)
  mem_iff : ∃ state, d'.view.checkpointState? a.data.target = some state ∧
    ∀ i, i ∈ indices ↔ state.TakesPart d.view.preset a i
  nonempty : indices ≠ []
  considered : ∀ i ∈ indices, d'.view.latestMessage? i =
    if LatestMessages.replaces a.data.message (d.view.latestMessage? i) then some a.data.message
    else d.view.latestMessage? i
  unchanged : ∀ i, i ∉ indices → d'.view.latestMessage? i = d.view.latestMessage? i

omit [HashFunction] in
/-- The state at a checkpoint is stored from when it has been asked for. -/
theorem Draft.checkpointState?_of_ok {t : StateTransition} {d d' : Draft} {target : Checkpoint}
    {targetState state : BeaconState}
    (h : d.checkpointState t target targetState = (.ok state, d')) :
    d'.view.checkpointState? target = some state := by
  rcases d.checkpointState_cases t target targetState with
    ⟨failure, cached, hEnd, -⟩ | ⟨found, hEnd, hFound⟩ | ⟨made, cached, hEnd, hView, -⟩ <;>
    cases h.symm.trans hEnd
  · exact hFound
  · rw [hView]
    exact if_pos rfl

variable [SignatureScheme]

/-- **Accepted attestations** change the votes of their participants, under whatever rules. -/
theorem Draft.considers_of_attest {t : StateTransition} {check : SignatureCheck} {d d' : Draft}
    {a : Attestation} {indices : List ValidatorIndex}
    (h : d.attest t check a = (.ok indices, d')) : d.Considers a indices d' := by
  obtain ⟨targetState, -, state, cached, hCached, hParticipants, rfl⟩ := attest_eq_ok.mp h
  have hSame : d.Cached cached := by
    have hDraft := d.checkpointState_cached t a.data.target targetState
    rwa [hCached] at hDraft
  have hPreset : cached.view.preset = d.view.preset := by rw [hSame]; rfl
  have hVotes : cached.view.latestMessage? = d.view.latestMessage? := by rw [hSame]; rfl
  obtain ⟨-, members, hMembers, hIndices, hSome, hAscending, -⟩ :=
    StoreView.admitParticipants_eq_ok.mp hParticipants
  obtain ⟨committee, hCommittee, hLength, rfl⟩ := BeaconState.attestingIndices_eq_ok.mp hMembers
  rw [hPreset] at hCommittee
  exact {
    ascending := pairwise_of_isStrictlyAscending hAscending
    mem_iff := by
      refine ⟨state, ?_, fun i => ?_⟩
      · rw [mergeVotes_view]
        exact checkpointState?_of_ok hCached
      · rw [hIndices]
        exact (BeaconState.takesPart_iff hCommittee hLength).symm
    nonempty := hSome
    considered := by
      intro i hMem
      rw [latestMessage?_mergeVotes, hVotes]
      simp only [hMem, true_and]
    unchanged := by
      intro i hMem
      rw [latestMessage?_mergeVotes, hVotes]
      simp only [hMem, false_and, if_false] }

/-- **Participants.** An attestation that is indexed at a state with a number for every validator
names active members of its committee, in strictly ascending order, exactly those whose bits are
set: it is never refused for their order, and, but for its signature, only if there are none. If a
draft accepts the attestation, under whatever rules and whether or not its signature is checked,
then it considers exactly those whose bits are set, and the votes of all others stay as they are. -/
theorem participants_of_attestation (a : Attestation) :
    (∀ (p : Preset) (s : BeaconState) (x : IndexedAttestation),
      s.validators.size ≤ UInt64.size → s.indexed p a = .ok x → x.WellFormed p s a) ∧
    ∀ (t : StateTransition) (check : SignatureCheck) (d d' : Draft)
      (indices : List ValidatorIndex),
      d.attest t check a = (.ok indices, d') → d.Considers a indices d' :=
  ⟨fun _ _ _ hRegistry h => BeaconState.indexed_wellFormed hRegistry h,
    fun _ _ _ _ _ h => Draft.considers_of_attest h⟩

end

/-- Of the two members of a committee the first one votes: it alone takes part, at the state of the
anchor and in the store. -/
theorem participants_of_firstMember :
    letI : HashFunction := Engine.linearHash
    letI : SignatureScheme := integerScheme
    ∃ (s : Store) (state : BeaconState) (x : IndexedAttestation) (indices : List ValidatorIndex),
      signingNetwork = some s ∧ s.view.state? s.anchorRoot = some state ∧
        let t := slotTransition s.preset
        let d := (Draft.ofStore s).changeAll t [.tick 6]
        let vote := (firstVote s true false 0).attestation
        state.validators.size ≤ UInt64.size ∧ state.indexed s.preset vote = .ok x ∧
          x.WellFormed s.preset state vote ∧ x.attestingIndices.length = 1 ∧
            ∃ d', d.attest t .skip vote = (.ok indices, d') ∧ d.Considers vote indices d' := by
  let : HashFunction := Engine.linearHash
  let : SignatureScheme := integerScheme
  have hRuns : (signingNetwork.any fun s => (s.view.state? s.anchorRoot).any fun state =>
      let t := slotTransition s.preset
      let vote := (firstVote s true false 0).attestation
      let d := (Draft.ofStore s).changeAll t [.tick 6]
      state.validators.size ≤ UInt64.size && (state.indexed s.preset vote).toOption.isSome &&
        vote.aggregationBits.count = 1 && (d.attest t .skip vote).1.toOption.isSome) = true := by
    decide +kernel
  obtain ⟨s, hNetwork, hRun⟩ := (Option.any_eq_true ..).mp hRuns
  obtain ⟨state, hState, hRun⟩ := (Option.any_eq_true ..).mp hRun
  simp only [Bool.and_eq_true, decide_eq_true_eq, Option.isSome_iff_exists,
    Engine.toOption_eq_some] at hRun
  obtain ⟨⟨⟨hRegistry, x, hIndexed⟩, hOne⟩, indices, hAttest⟩ := hRun
  obtain ⟨hWellFormed, hConsiders⟩ :=
    participants_of_attestation (firstVote s true false 0).attestation
  have hx := hWellFormed s.preset state x hRegistry hIndexed
  exact ⟨s, state, x, indices, hNetwork, hState, hRegistry, hIndexed, hx,
    hx.length_eq.trans hOne, _, Prod.ext hAttest rfl,
    hConsiders _ .skip _ _ indices (Prod.ext hAttest rfl)⟩

end ForkChoice
