import Mathlib.Algebra.Group.Submonoid.BigOperators
import ForkChoice.Proofs.Chain.Participants
import ForkChoice.Proofs.Pipeline.Attribution
import ForkChoice.Proofs.Pipeline.SignatureBatch

/-!
# ForkChoice — wrong signatures that cancel out

The sum of signatures of one message verifies under the sum of the keys if the errors of the
signatures add up to zero. It does not follow that each error is zero. Two validators who exchange
their signatures spoil both of them, but the sum is what it was, so a fold of both is accepted. The
check of one signature after the other would reject them; so would a check of the sum with random
factors.

What a batch accepts is therefore this: the signatures that verify, and besides those in folds
whose errors cancel out. One wrong signature is not enough for that, as its error is not zero, but
two are.

* `StateChecked` — what is known of attestations that a state has accepted,
  `stateChecked_of_verifyBatch` — it is known of those that come from the check against a state;
* `Pairing.Cancels` — the errors of a fold add up to zero, `Pairing.verifiesTogether_iff` — then and
  only then it verifies;
* `batch_accepts_iff` — what a batch accepts;
* `exchangedVotes`, `exchanged_signatures_accepted` — two votes with exchanged signatures.
-/

namespace ForkChoice

open SignatureScheme

section

variable [SignatureScheme]

/-! ## Attestations that a state has accepted -/

/-- The participants of the attestation by position. -/
def VerifiedAttestation.bits (a : VerifiedAttestation) : AggregationBits :=
  a.attestation.attestation.aggregationBits

/-- Attestations with the same data are of the same committee and have the same root signed, and
the key of each is the sum of the keys of its participants. -/
structure StateChecked (batch : List VerifiedAttestation) : Prop where
  length_eq : ∀ a ∈ batch, ∀ b ∈ batch, a.attestation.data = b.attestation.data →
    a.bits.length = b.bits.length
  signingRoot_eq : ∀ a ∈ batch, ∀ b ∈ batch, a.attestation.data = b.attestation.data →
    a.signingRoot = b.signingRoot
  publicKey : ∀ a ∈ batch, ∃ keys : List PublicKey, keys.length = a.bits.count ∧
    sumKeys keys = .ok a.publicKey

omit [SignatureScheme] in
/-- The number of those elements whose bits are set is that of the bits. -/
theorem length_filterMap_zip {α : Type} {xs : List α} {bits : List Bool}
    (h : bits.length = xs.length) :
    ((xs.zip bits).filterMap fun (x, bit) => if bit then some x else none).length =
      bits.count true := by
  rw [← List.zip_swap, List.filterMap_map]
  exact length_selected h

/-- **What a state has accepted** is as it should be, for any number of batches that have been
checked against whatever was known at the time. -/
theorem stateChecked_of_verifyBatch [HashFunction] {s : Store} (hs : s.IsGenesis)
    {accepted : List VerifiedAttestation}
    (h : ∀ a ∈ accepted, ∃ v key batch found, s.Shows (slotTransition s.preset) v ∧
      v.verifyBatch (slotTransition s.preset) key batch = .ok found ∧ .ok a ∈ found.verdicts) :
    StateChecked accepted := by
  obtain ⟨origin, hOrigin⟩ := StoreView.exists_inNetwork_of_shows hs
  have hSigned : ∀ a ∈ accepted, ∃ state, origin.SameNetwork state ∧
      state.SignedBy s.preset s.config a.attestation.attestation a.toSignerInfo := by
    intro a ha
    obtain ⟨v, key, batch, found, hv, hBatch, hAccepted⟩ := h a ha
    exact signedBy_of_verifyBatch (hOrigin hv) hBatch hAccepted
  constructor
  · intro a ha b hb hSame
    obtain ⟨state, hState, hA⟩ := hSigned a ha
    obtain ⟨state', hState', hB⟩ := hSigned b hb
    obtain ⟨committee, hCommittee, hLength, -⟩ := hA.participants
    obtain ⟨committee', hCommittee', hLength', -⟩ := hB.participants
    -- The same committee is told by both states.
    change a.attestation.attestation.data = b.attestation.attestation.data at hSame
    rw [← hSame] at hCommittee'
    obtain rfl := (hState.symm.trans hState').committee_unique hCommittee hCommittee'
    exact hLength.trans hLength'.symm
  · intro a ha b hb hSame
    obtain ⟨state, hState, hA⟩ := hSigned a ha
    obtain ⟨state', hState', hB⟩ := hSigned b hb
    change a.attestation.attestation.data = b.attestation.attestation.data at hSame
    rw [hA.signingRoot, hB.signingRoot, hSame, (hState.symm.trans hState').signingRoot_eq]
  · intro a ha
    obtain ⟨state, -, hA⟩ := hSigned a ha
    obtain ⟨committee, -, hLength, hIndices⟩ := hA.participants
    obtain ⟨keys, hKeys, hSum⟩ := hA.publicKey
    refine ⟨keys, ?_, hSum⟩
    rw [← (mapM_eq_ok_iff.mp hKeys).length_eq, hIndices, length_filterMap_zip hLength]
    rfl

/-! ## Errors -/

namespace SignatureScheme.Pairing

variable {K S T : Type} [AddCommGroup K] [AddCommGroup S] [AddCommGroup T] (P : Pairing K S T)
  {folded : List SignedCandidate}

/-- By how much the equation of an attestation is missed. -/
def errorOf (c : SignedCandidate) : T :=
  P.error c.signature c.verified.signingRoot c.verified.publicKey

/-- The errors of attestations cancel out. -/
structure Cancels (folded : List SignedCandidate) : Prop where
  key : (folded.map fun c => P.keyPoint c.verified.publicKey).sum ≠ 0
  signature : (folded.map fun c => P.signaturePoint c.signature).sum ∈ P.group
  errors : (folded.map P.errorOf).sum = 0

theorem isValid_iff {c : SignedCandidate} : c.isValid = true ↔
    P.keyPoint c.verified.publicKey ≠ 0 ∧ P.signaturePoint c.signature ∈ P.group ∧
      P.errorOf c = 0 :=
  P.verify_iff_error

/-- Attestations whose signatures verify contribute no error to a fold. -/
theorem sums_of_valid (h : ∀ c ∈ folded, c.isValid = true) :
    (folded.map P.errorOf).sum = 0 ∧
      (folded.map fun c => P.signaturePoint c.signature).sum ∈ P.group := by
  constructor
  · refine List.sum_eq_zero fun error hMem => ?_
    obtain ⟨c, hc, rfl⟩ := List.mem_map.mp hMem
    exact (P.isValid_iff.mp (h c hc)).2.2
  · refine list_sum_mem fun point hMem => ?_
    obtain ⟨c, hc, rfl⟩ := List.mem_map.mp hMem
    exact (P.isValid_iff.mp (h c hc)).2.1

/-- **One is not enough.** If errors cancel out and all others verify, so does an attestation
with a key. -/
theorem Cancels.isValid (hCancels : P.Cancels folded) (hNodup : folded.Nodup)
    {c : SignedCandidate} (hc : c ∈ folded) (hKey : P.keyPoint c.verified.publicKey ≠ 0)
    (hOthers : ∀ c' ∈ folded, c' ≠ c → c'.isValid = true) : c.isValid = true := by
  obtain ⟨before, after, rfl⟩ := List.append_of_mem hc
  rw [List.nodup_append, List.nodup_cons] at hNodup
  obtain ⟨-, ⟨hAfter, -⟩, hBefore⟩ := hNodup
  have hBeforeValid : ∀ c' ∈ before, c'.isValid = true := fun c' hMem =>
    hOthers c' (List.mem_append_left _ hMem) (hBefore c' hMem c List.mem_cons_self)
  have hAfterValid : ∀ c' ∈ after, c'.isValid = true := fun c' hMem =>
    hOthers c' (List.mem_append_right _ (List.mem_cons_of_mem _ hMem))
      fun hSame => hAfter (hSame ▸ hMem)
  obtain ⟨hErrors, hGroup⟩ := P.sums_of_valid hBeforeValid
  obtain ⟨hErrors', hGroup'⟩ := P.sums_of_valid hAfterValid
  -- Without the errors of the others, that of the attestation is the whole sum.
  have hTotal := hCancels.errors
  have hTotalGroup := hCancels.signature
  rw [List.map_append, List.sum_append, List.map_cons, List.sum_cons] at hTotal hTotalGroup
  rw [hErrors, hErrors', zero_add, add_zero] at hTotal
  rw [P.group.add_mem_cancel_left hGroup, P.group.add_mem_cancel_right hGroup'] at hTotalGroup
  exact P.isValid_iff.mpr ⟨hKey, hTotalGroup, hTotal⟩

/-- **Errors add up.** The error of a sum of signatures of one message is the sum of their
errors. -/
theorem sum_errors {message : Root} (h : ∀ c ∈ folded, c.verified.signingRoot = message) :
    (folded.map P.errorOf).sum =
      P.pair P.generator (folded.map fun c => P.signaturePoint c.signature).sum -
        P.pair (folded.map fun c => P.keyPoint c.verified.publicKey).sum
          (P.messagePoint message) := by
  induction folded with
  | nil => simp
  | cons c rest ih =>
    rw [List.forall_mem_cons] at h
    -- The pairing is additive on both sides, and on the right all messages are the same.
    simp only [List.map_cons, List.sum_cons, ih h.2, errorOf, error, h.1, map_add,
      AddMonoidHom.add_apply]
    exact sub_add_sub_comm ..

/-- The signature of a fold stands for the sum of the points. -/
theorem signaturePoint_foldl (folded : List SignedCandidate) (sum : Signature) : ∃ total,
    folded.foldl addTo (some sum) = some total ∧ P.signaturePoint total =
      P.signaturePoint sum + (folded.map fun c => P.signaturePoint c.signature).sum := by
  induction folded generalizing sum with
  | nil => exact ⟨sum, rfl, by simp⟩
  | cons c rest ih =>
    obtain ⟨total, hTotal, hPoint⟩ := ih (addSignatures sum c.signature)
    refine ⟨total, hTotal, ?_⟩
    rw [hPoint, P.signaturePoint_addSignatures, List.map_cons, List.sum_cons, add_assoc]

/-- **Folds.** A fold of attestations with one message verifies if their errors cancel out. -/
theorem verifiesTogether_iff {members : List SignedCandidate} {message : Root}
    (hFolded : (foldDisjoint {} members).2.1 = folded) (hSome : folded ≠ [])
    (hMessage : ∀ c ∈ folded, c.verified.signingRoot = message) :
    verifiesTogether (foldDisjoint {} members).1 folded = true ↔ P.Cancels folded := by
  have hKeys := foldDisjoint_keys {} members
  have hSignature := foldDisjoint_signature {} members
  rw [hFolded] at hKeys hSignature
  -- The sums of the points are those of one signature and of one key.
  obtain ⟨total, hTotal, hTotalPoint⟩ : ∃ total, folded.foldl addTo none = some total ∧
      P.signaturePoint total = (folded.map fun c => P.signaturePoint c.signature).sum := by
    cases folded with
    | nil => exact absurd rfl hSome
    | cons first rest =>
      obtain ⟨total, hTotal, hPoint⟩ := P.signaturePoint_foldl rest first.signature
      exact ⟨total, hTotal, by rw [hPoint, List.map_cons, List.sum_cons]⟩
  have hVerify : verifiesTogether (foldDisjoint {} members).1 folded =
      verifyAll total message (folded.map (·.verified.publicKey)) := by
    cases folded with
    | nil => exact absurd rfl hSome
    | cons first rest =>
      rw [verifiesTogether, SignatureFold.verify, hSignature, hTotal,
        hMessage first List.mem_cons_self, hKeys]
      rfl
  have hSomeKeys : folded.map (·.verified.publicKey) ≠ [] := by simpa using hSome
  obtain ⟨key, hSum⟩ := sumKeys_defined hSomeKeys
  have hKeyPoint : P.keyPoint key = (folded.map fun c => P.keyPoint c.verified.publicKey).sum := by
    rw [P.keyPoint_sumKeys hSum, List.map_map]
    rfl
  have hError : P.error total message key = (folded.map P.errorOf).sum := by
    rw [P.sum_errors hMessage, error, hTotalPoint, hKeyPoint]
  rw [hVerify, P.verifyAll_eq hSum, P.verify_iff_error, hKeyPoint, hTotalPoint, hError]
  constructor
  · rintro ⟨hKey, hGroup, hErrors⟩
    exact ⟨hKey, hGroup, hErrors⟩
  · intro h
    exact ⟨h.key, h.signature, h.errors⟩

end SignatureScheme.Pairing

/-! ## What a batch accepts -/

/-- The attestations of a batch that are folded together and have the data. -/
def foldedWith (batch : List VerifiedAttestation) (data : AttestationData) :
    List SignedCandidate :=
  (foldDisjoint {} (byParticipants (groupOf (readable batch) data).members)).2.1

section

variable {batch : List VerifiedAttestation} {c c' : SignedCandidate} {data : AttestationData}

theorem mem_of_mem_foldedWith (h : c ∈ foldedWith batch data) :
    c ∈ readable batch ∧ c.data = data := by
  have hMember : c ∈ byParticipants (groupOf (readable batch) data).members :=
    (foldDisjoint_perm {} _).subset (List.mem_append_left _ h)
  exact mem_groupOf.mp (mem_byParticipants.mp hMember)

namespace StateChecked

/-- An attestation has a participant, as no key is the sum of none. -/
theorem any_bits (h : StateChecked batch) (hc : c ∈ readable batch) : c.bits.any = true := by
  obtain ⟨keys, hLength, hSum⟩ := h.publicKey _ (mem_readable.mp hc).1
  have hCount : 0 < c.bits.bits.count true := by
    show 0 < c.verified.bits.count
    rw [← hLength, List.length_pos_iff]
    rintro rfl
    cases hSum
  exact List.any_eq_true.mpr ⟨true, List.count_pos_iff.mp hCount, rfl⟩

/-- The attestations that are folded together have one message. -/
theorem signingRoot_foldedWith (h : StateChecked batch) (hc : c ∈ foldedWith batch data)
    (hc' : c' ∈ foldedWith batch data) : c'.verified.signingRoot = c.verified.signingRoot := by
  obtain ⟨hRead, hData⟩ := mem_of_mem_foldedWith hc
  obtain ⟨hRead', hData'⟩ := mem_of_mem_foldedWith hc'
  exact h.signingRoot_eq _ (mem_readable.mp hRead').1 _ (mem_readable.mp hRead).1
    (hData'.trans hData.symm)

/-- The lists of participants of one data are equally long. -/
theorem exists_length (h : StateChecked batch) (data : AttestationData) :
    ∃ length, ∀ c ∈ byParticipants (groupOf (readable batch) data).members,
      c.bits.length = length := by
  have hMember : ∀ c ∈ byParticipants (groupOf (readable batch) data).members,
      c ∈ readable batch ∧ c.data = data :=
    fun c hc => mem_groupOf.mp (mem_byParticipants.mp hc)
  cases hMembers : byParticipants (groupOf (readable batch) data).members with
  | nil => exact ⟨0, fun c hc => absurd hc List.not_mem_nil⟩
  | cons first rest =>
    rw [hMembers] at hMember
    obtain ⟨hFirst, hFirstData⟩ := hMember first List.mem_cons_self
    refine ⟨first.bits.length, fun c hc => ?_⟩
    obtain ⟨hRead, hData⟩ := hMember c hc
    exact h.length_eq _ (mem_readable.mp hRead).1 _ (mem_readable.mp hFirst).1
      (hData.trans hFirstData.symm)

/-- No attestation is folded twice, as it would share its participants with itself. -/
theorem nodup_foldedWith (h : StateChecked batch) (data : AttestationData) :
    (foldedWith batch data).Nodup := by
  obtain ⟨length, hLength⟩ := h.exists_length data
  have hEmpty : ∀ bits, ({} : SignatureFold).bits = some bits → bits.length = length :=
    fun _ hNone => nomatch hNone
  obtain ⟨-, hApart⟩ := foldDisjoint_pairwise hEmpty hLength
  refine hApart.imp_of_mem fun {c c'} hc _ hDisjoint hSame => ?_
  rw [← hSame, BitList.intersects_self, h.any_bits (mem_of_mem_foldedWith hc).1] at hDisjoint
  cases hDisjoint

end StateChecked

variable {K S T : Type} [AddCommGroup K] [AddCommGroup S] [AddCommGroup T]

/-- **What a batch accepts**: attestations whose signatures verify, and besides those that are
folded with others so that all errors cancel out. An attestation whose signature does not verify
is accepted only together with another one of this kind, unless its key is zero. -/
theorem batch_accepts_iff (P : Pairing K S T) (hBatch : StateChecked batch)
    (data : AttestationData) :
    (∀ a, ⟨a, .ok ()⟩ ∈ verifySignatures batch ↔
      ∃ c ∈ readable batch, c.verified.attestation = a ∧
        (c.isValid = true ∨ c ∈ foldedWith batch c.data ∧ P.Cancels (foldedWith batch c.data))) ∧
    ∀ c ∈ foldedWith batch data, P.Cancels (foldedWith batch data) → c.isValid = false →
      P.keyPoint c.verified.publicKey ≠ 0 →
        ∃ c' ∈ foldedWith batch data, c' ≠ c ∧ c'.isValid = false := by
  constructor
  · intro a
    rw [accepted_iff]
    have hFold {c : SignedCandidate} :
        FoldedIn (groupOf (readable batch) c.data).members c ↔
          c ∈ foldedWith batch c.data ∧ P.Cancels (foldedWith batch c.data) := by
      refine and_congr_right fun hc => ?_
      exact P.verifiesTogether_iff rfl (List.ne_nil_of_mem hc)
        fun c' hc' => hBatch.signingRoot_foldedWith hc hc'
    simp only [hFold]
  · intro c hc hCancels hInvalid hKey
    by_contra hNone
    have hOthers : ∀ c' ∈ foldedWith batch data, c' ≠ c → c'.isValid = true := by
      intro c' hc' hNe
      by_contra hWrong
      exact hNone ⟨c', hc', hNe, Bool.eq_false_iff.mpr hWrong⟩
    rw [hCancels.isValid P (hBatch.nodup_foldedWith data) hc hKey hOthers] at hInvalid
    cases hInvalid

end

/-! ## Exchanged signatures -/

/-- Two members of a committee vote for the same, each with the signature of the other. -/
def exchangedVotes [HashFunction] (s : Store) : Option (List ReceivedAttestation) := do
  let first ← signatureOf s true false
  let second ← signatureOf s false true
  return [firstVote s true false second, firstVote s false true first]

/-- Whether all signatures of a batch are wrong, and all of it is folded together and verifies. -/
def foldsWrong (batch : List VerifiedAttestation) : Bool :=
  let candidates := readable batch
  let (fold, folded, deferred) := foldDisjoint {} candidates
  candidates.all (!·.isValid) && deferred.isEmpty && verifiesTogether fold folded &&
    decide (∀ c ∈ candidates, ∀ c' ∈ candidates, c.data = c'.data ∧ c.bits.count = c'.bits.count)

theorem accepted_of_foldsWrong {batch : List VerifiedAttestation} {c : SignedCandidate}
    (h : foldsWrong batch = true) (hc : c ∈ readable batch) :
    ⟨c.verified.attestation, .ok ()⟩ ∈ verifySignatures batch ∧ c.isValid = false := by
  simp only [foldsWrong, Bool.and_eq_true, List.all_eq_true, Bool.not_eq_true', List.isEmpty_iff,
    decide_eq_true_eq] at h
  obtain ⟨⟨⟨hWrong, hAll⟩, hVerifies⟩, hAlike⟩ := h
  have hData : ∀ c' ∈ readable batch, c'.data = c.data := fun c' hc' => (hAlike c' hc' c hc).1
  refine ⟨accepted_of_folded hData ?_ hAll hVerifies hc, hWrong c hc⟩
  exact List.pairwise_of_forall_mem_list fun c' hc' c'' hc'' => (hAlike c' hc' c'' hc'').2.le

end

/-- Both votes with exchanged signatures pass the check against the state, and they are accepted
although neither signature verifies. -/
theorem exists_exchangedVotes :
    letI : HashFunction := Engine.linearHash
    letI : SignatureScheme := integerScheme
    ∃ (s : Store) (batch : List VerifiedAttestation), s.IsGenesis ∧
      (∀ a ∈ batch, ∃ v key received found, s.Shows (slotTransition s.preset) v ∧
        v.verifyBatch (slotTransition s.preset) key received = .ok found ∧
          .ok a ∈ found.verdicts) ∧
      batch.length = 2 ∧ (∀ a ∈ batch, ⟨a.attestation, .ok ()⟩ ∈ verifySignatures batch) ∧
        ∀ c ∈ readable batch, c.isValid = false := by
  let : HashFunction := Engine.linearHash
  let : SignatureScheme := integerScheme
  have hRuns : (signingNetwork.any fun s => (exchangedVotes s).any fun votes =>
      let t := slotTransition s.preset
      let d := (Draft.ofStore s).changeAll t [.tick 6]
      votes.head?.any fun vote =>
        (d.view.verifyBatch t vote.batchKey votes).toOption.any fun found =>
          let batch := found.verdicts.filterMap (·.toOption)
          decide (batch.length = 2) && foldsWrong batch) = true := by
    decide +kernel
  simp only [Option.any_eq_true, Bool.and_eq_true, decide_eq_true_eq,
    Engine.toOption_eq_some] at hRuns
  obtain ⟨s, hNetwork, votes, -, vote, -, found, hBatch, hTwo, hWrong⟩ := hRuns
  refine ⟨s, _, isGenesis_of_signingNetwork hNetwork, ?_, hTwo, ?_, ?_⟩
  · intro a ha
    obtain ⟨verdict, hVerdict, hOk⟩ := List.mem_filterMap.mp ha
    rw [Engine.toOption_eq_some] at hOk
    exact ⟨_, vote.batchKey, votes, found, ⟨[], Or.inr ⟨[.tick 6], rfl⟩⟩, hBatch, hOk ▸ hVerdict⟩
  · intro a ha
    -- Every signature can be read as a number.
    have hRead : (⟨a, (a.attestation.attestation.signature.toNat : ℤ)⟩ : SignedCandidate) ∈
        readable (found.verdicts.filterMap (·.toOption)) := mem_readable.mpr ⟨ha, rfl⟩
    exact (accepted_of_foldsWrong hWrong hRead).1
  · intro c hc
    exact (accepted_of_foldsWrong hWrong hc).2

/-- Of two votes with exchanged signatures each is in a fold whose errors cancel out, so there is
another one in it whose signature is wrong. -/
theorem batch_accepts_exchanged :
    letI : HashFunction := Engine.linearHash
    letI : SignatureScheme := integerScheme
    ∃ batch : List VerifiedAttestation, StateChecked batch ∧ batch.length = 2 ∧
      ∀ a ∈ batch, ∃ c ∈ readable batch, c.verified.attestation = a.attestation ∧
        c.isValid = false ∧ c ∈ foldedWith batch c.data ∧
          integerPairing.Cancels (foldedWith batch c.data) ∧
          (c.verified.publicKey ≠ (0 : ℤ) →
            ∃ c' ∈ foldedWith batch c.data, c' ≠ c ∧ c'.isValid = false) := by
  let : HashFunction := Engine.linearHash
  let : SignatureScheme := integerScheme
  obtain ⟨s, batch, hs, hPassed, hTwo, hAccepted, hWrong⟩ := exists_exchangedVotes
  have hChecked := stateChecked_of_verifyBatch hs hPassed
  refine ⟨batch, hChecked, hTwo, fun a ha => ?_⟩
  have hAccepts := batch_accepts_iff integerPairing hChecked
  obtain ⟨c, hc, hSame, hReason⟩ :=
    ((hAccepts a.attestation.data).1 a.attestation).mp (hAccepted a ha)
  have hInvalid := hWrong c hc
  rcases hReason with hValid | ⟨hFolded, hCancels⟩
  · rw [hInvalid] at hValid
    cases hValid
  · exact ⟨c, hc, hSame, hInvalid, hFolded, hCancels,
      (hAccepts c.data).2 c hFolded hCancels hInvalid⟩

/-- **Wrong signatures are accepted.** -/
theorem exchanged_signatures_accepted :
    letI : HashFunction := Engine.linearHash
    letI : SignatureScheme := integerScheme
    Nonempty (Pairing ℤ ℤ ℤ) ∧ ∃ (s : Store) (batch : List VerifiedAttestation), s.IsGenesis ∧
      (∀ a ∈ batch, ∃ v key received found, s.Shows (slotTransition s.preset) v ∧
        v.verifyBatch (slotTransition s.preset) key received = .ok found ∧
          .ok a ∈ found.verdicts) ∧
      StateChecked batch ∧ batch.length = 2 ∧
        ∀ a ∈ batch, ⟨a.attestation, .ok ()⟩ ∈ verifySignatures batch ∧
          ¬∃ signature, readSignature a.attestation.attestation.signature = .ok signature ∧
            verify signature a.signingRoot a.publicKey = true := by
  let : HashFunction := Engine.linearHash
  let : SignatureScheme := integerScheme
  obtain ⟨s, batch, hs, hPassed, hTwo, hAccepted, hWrong⟩ := exists_exchangedVotes
  refine ⟨⟨integerPairing⟩, s, batch, hs, hPassed, stateChecked_of_verifyBatch hs hPassed, hTwo, ?_⟩
  intro a ha
  refine ⟨hAccepted a ha, ?_⟩
  rintro ⟨signature, hSignature, hVerifies⟩
  have hRead : (⟨a, signature⟩ : SignedCandidate) ∈ readable batch :=
    mem_readable.mpr ⟨ha, hSignature⟩
  exact absurd hVerifies (Bool.eq_false_iff.mp (hWrong _ hRead))

end ForkChoice
