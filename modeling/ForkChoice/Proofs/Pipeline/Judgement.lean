import ForkChoice.Proofs.Pipeline.Passing

/-!
# ForkChoice — no valid attestation of a batch is lost

Attestations go through many hands when the signatures of a batch are checked: they are read, put
into groups, sorted, folded or set aside, and checked together or alone. None is lost on the way and
none is judged for the company that it is in. Whoever chooses the other attestations of a batch can
make the check slower, but cannot have a valid attestation rejected: whatever is rejected has been
checked alone, and a fold that does not verify only leads to that check.

* `Judged` — what a verdict has to say about an attestation, which depends on nothing else;
* `JudgedAll` — the verdicts belong to the attestations of a batch, one to one;
* `judged_of_concluded` — a candidate is accepted with others or checked alone;
* `judgedAll_verifySignatures` — the verdicts of a batch.
-/

namespace ForkChoice

open SignatureScheme

variable [SignatureScheme]

/-- What a verdict has to say about an attestation, whatever else is in the batch. -/
structure Judged (v : VerifiedAttestation) (verdict : SignatureVerdict) : Prop where
  attestation : verdict.attestation = v.attestation
  /-- A signature that cannot be read is reported as such. -/
  unreadable : ∀ reason, readSignature v.attestation.attestation.signature = .error reason →
    verdict.result = .error .signatureUndecodable
  /-- An attestation is accepted if its own signature verifies. -/
  accepted : ∀ signature, readSignature v.attestation.attestation.signature = .ok signature →
    verify signature v.signingRoot v.publicKey = true → verdict.result = .ok ()
  /-- An attestation with a readable signature is rejected only by the check of this signature. -/
  rejected : ∀ signature reason,
    readSignature v.attestation.attestation.signature = .ok signature →
    verdict.result = .error reason →
      verify signature v.signingRoot v.publicKey = false ∧ reason = .signatureInvalid ∧
        verdict = verifyAlone ⟨v, signature⟩

/-- The verdicts, in some order of the batch, are about one attestation of the batch each. -/
def JudgedAll (batch : List VerifiedAttestation) (verdicts : List SignatureVerdict) : Prop :=
  ∃ order, order.Perm batch ∧ List.Forall₂ Judged order verdicts

namespace JudgedAll

variable {batch batch' : List VerifiedAttestation} {verdicts verdicts' : List SignatureVerdict}

theorem append (h : JudgedAll batch verdicts) (h' : JudgedAll batch' verdicts') :
    JudgedAll (batch ++ batch') (verdicts ++ verdicts') := by
  obtain ⟨order, hPerm, hEach⟩ := h
  obtain ⟨order', hPerm', hEach'⟩ := h'
  exact ⟨order ++ order', hPerm.append hPerm', List.rel_append hEach hEach'⟩

theorem perm (h : JudgedAll batch verdicts) (hPerm : batch.Perm batch') :
    JudgedAll batch' verdicts := by
  obtain ⟨order, hOrder, hEach⟩ := h
  exact ⟨order, hOrder.trans hPerm, hEach⟩

/-- Each attestation has as many verdicts as it has places in the batch. -/
theorem attestations (h : JudgedAll batch verdicts) :
    (verdicts.map (·.attestation)).Perm (batch.map (·.attestation)) := by
  obtain ⟨order, hPerm, hEach⟩ := h
  have hSame : order.map (·.attestation) = verdicts.map (·.attestation) := by
    clear hPerm
    induction hEach with
    | nil => rfl
    | cons hFirst _ ih => rw [List.map_cons, List.map_cons, hFirst.attestation, ih]
  rw [← hSame]
  exact hPerm.map _

end JudgedAll

/-! ## Candidates -/

/-- A candidate is accepted with others, or it is checked alone. -/
def Concluded (c : SignedCandidate) (verdict : SignatureVerdict) : Prop :=
  verdict = ⟨c.verified.attestation, .ok ()⟩ ∨ verdict = verifyAlone c

/-- Both ways are fair to a candidate whose signature is that of its attestation. -/
theorem judged_of_concluded {c : SignedCandidate} {verdict : SignatureVerdict}
    (hRead : readSignature c.verified.attestation.attestation.signature = .ok c.signature)
    (h : Concluded c verdict) : Judged c.verified verdict := by
  have hOwn : ∀ signature,
      readSignature c.verified.attestation.attestation.signature = .ok signature →
        signature = c.signature := by
    intro signature hSignature
    rw [hRead] at hSignature
    exact (Except.ok.inj hSignature).symm
  rcases h with rfl | rfl
  · -- Accepted with others: nothing has to be shown of how this came about.
    exact {
      attestation := rfl
      unreadable := fun reason hReason => by rw [hRead] at hReason; cases hReason
      accepted := fun _ _ _ => rfl
      rejected := fun _ _ _ hResult => by cases hResult }
  · refine ⟨rfl, fun reason hReason => ?_, fun signature hSignature hValid => ?_,
      fun signature reason hSignature hResult => ?_⟩
    · rw [hRead] at hReason
      cases hReason
    · obtain rfl := hOwn signature hSignature
      have hIsValid : c.isValid = true := hValid
      exact congrArg SignatureVerdict.result (verifyAlone_eq_ok.mpr ⟨rfl, hIsValid⟩)
    · obtain rfl := hOwn signature hSignature
      have hVerdict : (if c.isValid then .ok () else .error .signatureInvalid) =
          (.error reason : Except Rejection Unit) := hResult
      cases hValid : c.isValid with
      | true =>
        rw [hValid] at hVerdict
        cases hVerdict
      | false =>
        rw [hValid] at hVerdict
        cases hVerdict
        exact ⟨hValid, rfl, rfl⟩

/-! ## Groups -/

/-- What becomes of the attestations of a group: those that are folded together are accepted
together or checked one by one, the others are checked one by one. -/
theorem concluded_verifyGroup (members : List SignedCandidate) :
    ∃ order, order.Perm members ∧ List.Forall₂ Concluded order (verifyGroup members) := by
  have hPerm :=
    (foldDisjoint_perm {} (byParticipants members)).trans (List.mergeSort_perm members _)
  unfold verifyGroup
  generalize foldDisjoint {} (byParticipants members) = parts at hPerm ⊢
  obtain ⟨fold, folded, deferred⟩ := parts
  have hAlone : ∀ found : List SignedCandidate,
      List.Forall₂ Concluded found (found.map verifyAlone) := by
    intro found
    rw [List.forall₂_map_right_iff, List.forall₂_same]
    exact fun c _ => Or.inr rfl
  have hTogether : List.Forall₂ Concluded folded
      (folded.map fun c => ⟨c.verified.attestation, .ok ()⟩) := by
    rw [List.forall₂_map_right_iff, List.forall₂_same]
    exact fun c _ => Or.inl rfl
  refine ⟨folded ++ deferred, hPerm, ?_⟩
  show List.Forall₂ Concluded (folded ++ deferred) ((if _ then _ else _) ++ _)
  cases verifiesTogether fold folded with
  | true => exact List.rel_append hTogether (hAlone deferred)
  | false => exact List.rel_append (hAlone folded) (hAlone deferred)

/-- A group judges its members if their signatures are those of their attestations. -/
theorem judgedAll_verifyGroup {members : List SignedCandidate}
    (hRead : ∀ c ∈ members,
      readSignature c.verified.attestation.attestation.signature = .ok c.signature) :
    JudgedAll (members.map (·.verified)) (verifyGroup members) := by
  obtain ⟨order, hPerm, hEach⟩ := concluded_verifyGroup members
  refine ⟨order.map (·.verified), hPerm.map _, ?_⟩
  rw [List.forall₂_map_left_iff]
  have hBoth := (List.forall₂_and_left order (verifyGroup members)).mpr
    ⟨fun c hc => hRead c (hPerm.mem_iff.mp hc), hEach⟩
  exact hBoth.imp fun c verdict h => judged_of_concluded h.1 h.2

/-- So do several groups. -/
theorem judgedAll_groups {groups : List SignatureGroup}
    (hRead : ∀ c ∈ groups.flatMap (·.members),
      readSignature c.verified.attestation.attestation.signature = .ok c.signature) :
    JudgedAll ((groups.flatMap (·.members)).map (·.verified))
      (groups.flatMap fun g => verifyGroup g.members) := by
  induction groups with
  | nil => exact ⟨[], .nil, .nil⟩
  | cons g rest ih =>
    rw [List.flatMap_cons] at hRead ⊢
    rw [List.map_append, List.flatMap_cons]
    refine (judgedAll_verifyGroup fun c hc => ?_).append (ih fun c hc => ?_)
    · exact hRead c (List.mem_append_left _ hc)
    · exact hRead c (List.mem_append_right _ hc)

/-! ## Batches -/

/-- A signature can be read or not, and if not, this is what is reported. -/
theorem judged_unreadable (batch : List VerifiedAttestation) :
    ∃ refused, List.Forall₂ Judged refused (unreadable batch) ∧
      (refused ++ (readable batch).map (·.verified)).Perm batch := by
  induction batch with
  | nil => exact ⟨[], .nil, .nil⟩
  | cons v rest ih =>
    obtain ⟨refused, hEach, hPerm⟩ := ih
    cases hRead : readSignature v.attestation.attestation.signature with
    | error reason =>
      have hUnreadable : unreadable (v :: rest) =
          ⟨v.attestation, .error .signatureUndecodable⟩ :: unreadable rest := by
        simp [unreadable, readCandidate, hRead]
      have hReadable : readable (v :: rest) = readable rest := by
        simp [readable, readCandidate, hRead]
      rw [hUnreadable, hReadable]
      refine ⟨v :: refused, .cons ?_ hEach, hPerm.cons v⟩
      refine ⟨rfl, fun _ _ => rfl, fun signature hSignature => ?_, fun signature _ hSignature => ?_⟩
      · rw [hRead] at hSignature
        cases hSignature
      · rw [hRead] at hSignature
        cases hSignature
    | ok signature =>
      have hUnreadable : unreadable (v :: rest) = unreadable rest := by
        simp [unreadable, readCandidate, hRead]
      have hReadable : readable (v :: rest) = ⟨v, signature⟩ :: readable rest := by
        simp [readable, readCandidate, hRead]
      rw [hUnreadable, hReadable]
      exact ⟨refused, hEach, List.perm_middle.trans (hPerm.cons v)⟩

/-- **No valid attestation is lost.** The verdicts of a batch are about its attestations, one to
one, and each verdict is fair to its attestation whatever the other attestations are. -/
theorem judgedAll_verifySignatures (batch : List VerifiedAttestation) :
    JudgedAll batch (verifySignatures batch) ∧
      ((verifySignatures batch).map (·.attestation)).Perm (batch.map (·.attestation)) := by
  obtain ⟨refused, hRefused, hBatch⟩ := judged_unreadable batch
  have hGroups := signatureGroups_perm (readable batch)
  -- What the groups hold has been read.
  have hRead : ∀ c ∈ (signatureGroups (readable batch)).flatMap (·.members),
      readSignature c.verified.attestation.attestation.signature = .ok c.signature := by
    intro c hc
    exact (mem_readable.mp (hGroups.mem_iff.mp hc)).2
  have hCandidates : JudgedAll ((readable batch).map (·.verified))
      ((signatureGroups (readable batch)).flatMap fun g => verifyGroup g.members) :=
    (judgedAll_groups hRead).perm (hGroups.map _)
  have hAll : JudgedAll batch (verifySignatures batch) :=
    (JudgedAll.append ⟨refused, .refl _, hRefused⟩ hCandidates).perm hBatch
  exact ⟨hAll, hAll.attestations⟩

end ForkChoice
