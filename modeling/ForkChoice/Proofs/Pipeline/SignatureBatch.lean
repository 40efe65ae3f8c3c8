import Mathlib.Data.List.Induction
import ForkChoice.Pipeline.SignatureBatch
import ForkChoice.Proofs.LinkedMap
import ForkChoice.Proofs.Outcome
import ForkChoice.Proofs.Pipeline.FoldHistory

/-!
# ForkChoice — how signatures of a batch are checked

A batch is split into groups of attestations with the same data. In each group as many attestations
as share no participants, those with few participants first, are folded together: their keys and
their signatures are added up. If the sum of the signatures verifies under the sum of the keys, all
of them are accepted at once. Whatever is not accepted in this way is checked on its own.

So an attestation is accepted for one of two reasons: its signature verifies, or it was folded and
the fold verifies.

* `groupOf`, `mem_groups` — the groups of a batch;
* `foldDisjoint_perm`, `foldDisjoint_keys` — what a fold is;
* `foldDisjoint_pairwise` — it has no participant twice;
* `accepted_iff` — the two reasons.
-/

namespace ForkChoice

open SignatureScheme

open LinkedMap (entries Lawful)

variable [SignatureScheme]

/-! ## Groups -/

/-- All candidates that have the data. -/
def groupOf (candidates : List SignedCandidate) (data : AttestationData) : SignatureGroup :=
  ⟨data, candidates.filter fun c => decide (c.data = data)⟩

section

variable {candidates : List SignedCandidate} {c : SignedCandidate} {data : AttestationData}

theorem mem_groupOf : c ∈ (groupOf candidates data).members ↔ c ∈ candidates ∧ c.data = data := by
  rw [groupOf, List.mem_filter, decide_eq_true_eq]

theorem groupOf_concat_self :
    groupOf (candidates ++ [c]) c.data = ⟨c.data, (groupOf candidates c.data).members ++ [c]⟩ := by
  simp [groupOf, List.filter_append]

theorem groupOf_concat_of_ne (h : c.data ≠ data) :
    groupOf (candidates ++ [c]) data = groupOf candidates data := by
  simp [groupOf, List.filter_append, h]

/-- Candidates whose data is not among those of the others have no group yet. -/
theorem groupOf_members_eq_nil (h : ¬∃ c ∈ candidates, c.data = data) :
    (groupOf candidates data).members = [] := by
  refine List.filter_eq_nil_iff.mpr fun c hc hSame => ?_
  exact h ⟨c, hc, of_decide_eq_true hSame⟩

end

/-- A candidate joins its group, if there is one. The group comes last then. -/
theorem entries_addToGroup (groups : GroupMap) (c : SignedCandidate) :
    ∃ group, ((c.data, group) ∈ entries groups ∨
        group = [] ∧ ∀ e ∈ entries groups, e.1 ≠ c.data) ∧
      entries (addToGroup groups c) =
        (entries groups).filter (fun e => decide (e.1 ≠ c.data)) ++ [(c.data, group ++ [c])] := by
  have hEntries (value : List SignedCandidate) :
      entries ((LinkedMap.entry groups c.data []).put value) =
        (entries groups).filter (fun e => decide (e.1 ≠ c.data)) ++ [(c.data, value)] :=
    Lawful.entries_entry groups c.data [] value
  by_cases hOld : ∃ group, (c.data, group) ∈ entries groups
  · obtain ⟨group, hGroup⟩ := hOld
    refine ⟨group, Or.inl hGroup, ?_⟩
    rw [addToGroup, Lawful.entry_old hGroup, hEntries]
  · have hNew : ∀ e ∈ entries groups, e.1 ≠ c.data := by
      rintro ⟨data, group⟩ hMem rfl
      exact hOld ⟨group, hMem⟩
    refine ⟨[], Or.inr ⟨rfl, hNew⟩, ?_⟩
    rw [addToGroup, Lawful.entry_new hNew, hEntries]

theorem mem_foldl_addToGroup {candidates : List SignedCandidate}
    {e : AttestationData × List SignedCandidate} :
    e ∈ entries (candidates.foldl addToGroup LinkedMap.empty) ↔
      ∃ c ∈ candidates, e = (c.data, (groupOf candidates c.data).members) := by
  -- The candidates are added at the end, where the groups of all others are known.
  induction candidates using List.reverseRecOn generalizing e with
  | nil => simp [Lawful.entries_empty]
  | append_singleton candidates c ih =>
    rw [List.foldl_append, List.foldl_cons, List.foldl_nil]
    obtain ⟨group, hGroup, hEntries⟩ :=
      entries_addToGroup (candidates.foldl addToGroup LinkedMap.empty) c
    have hMembers : group = (groupOf candidates c.data).members := by
      rcases hGroup with hOld | ⟨rfl, hNew⟩
      · obtain ⟨c', -, hSame⟩ := ih.mp hOld
        rw [Prod.mk.injEq] at hSame
        rw [hSame.1, hSame.2]
      · refine (groupOf_members_eq_nil ?_).symm
        rintro ⟨c', hc', hSame⟩
        exact hNew _ (ih.mpr ⟨c', hc', rfl⟩) hSame
    rw [hEntries, List.mem_append, List.mem_filter, ih, List.mem_singleton, hMembers,
      decide_eq_true_eq]
    -- The groups of other data stay as they are, and that of the candidate is the last one.
    constructor
    · rintro (⟨⟨c', hc', rfl⟩, hOther⟩ | rfl)
      · refine ⟨c', List.mem_append_left _ hc', ?_⟩
        rw [groupOf_concat_of_ne (Ne.symm hOther)]
      · refine ⟨c, List.mem_append_right _ List.mem_cons_self, ?_⟩
        rw [groupOf_concat_self]
    · rintro ⟨c', hc', rfl⟩
      by_cases hSame : c'.data = c.data
      · rw [hSame, groupOf_concat_self]
        exact Or.inr rfl
      · rw [groupOf_concat_of_ne (Ne.symm hSame)]
        have hThere : c' ∈ candidates := by
          rcases List.mem_append.mp hc' with hThere | hLast
          · exact hThere
          · rw [List.mem_singleton.mp hLast] at hSame
            exact absurd rfl hSame
        exact Or.inl ⟨⟨c', hThere, rfl⟩, hSame⟩

/-- **Groups.** A batch has one group for each data, which holds all that have it. -/
theorem mem_groups {candidates : List SignedCandidate} {g : SignatureGroup} :
    g ∈ signatureGroups candidates ↔ ∃ c ∈ candidates, g = groupOf candidates c.data := by
  rw [signatureGroups, List.mem_map]
  constructor
  · rintro ⟨e, he, rfl⟩
    obtain ⟨c, hc, rfl⟩ := mem_foldl_addToGroup.mp he
    exact ⟨c, hc, rfl⟩
  · rintro ⟨c, hc, rfl⟩
    exact ⟨_, mem_foldl_addToGroup.mpr ⟨c, hc, rfl⟩, rfl⟩

/-! ## Folds -/

section

variable {fold : SignatureFold} {c : SignedCandidate} {members : List SignedCandidate}

/-- A candidate that shares a participant with those before it is set aside. -/
theorem foldDisjoint_cons_of_overlaps (h : fold.overlaps c.bits = true) :
    foldDisjoint fold (c :: members) =
      ((foldDisjoint fold members).1, (foldDisjoint fold members).2.1,
        c :: (foldDisjoint fold members).2.2) := by
  rw [foldDisjoint, SignatureFold.add, if_pos h]

/-- A candidate that shares no participant is folded. -/
theorem foldDisjoint_cons_of_not (h : fold.overlaps c.bits = false) :
    foldDisjoint fold (c :: members) =
      ((foldDisjoint (fold.extended c.bits c.verified.publicKey c.signature) members).1,
        c :: (foldDisjoint (fold.extended c.bits c.verified.publicKey c.signature) members).2.1,
        (foldDisjoint (fold.extended c.bits c.verified.publicKey c.signature) members).2.2) := by
  rw [foldDisjoint, SignatureFold.add, if_neg (Bool.eq_false_iff.mp h)]

/-- Every candidate is folded or set aside. -/
theorem foldDisjoint_perm (fold : SignatureFold) (members : List SignedCandidate) :
    ((foldDisjoint fold members).2.1 ++ (foldDisjoint fold members).2.2).Perm members := by
  -- Whatever has been folded before only decides which of the two becomes of a candidate.
  induction members generalizing fold with
  | nil => exact .nil
  | cons c rest ih =>
    cases h : fold.overlaps c.bits with
    | true =>
      rw [foldDisjoint_cons_of_overlaps h]
      exact List.perm_middle.trans ((ih fold).cons c)
    | false =>
      rw [foldDisjoint_cons_of_not h]
      exact (ih _).cons c

/-- The keys of a fold are those of the candidates in it. -/
theorem foldDisjoint_keys (fold : SignatureFold) (members : List SignedCandidate) :
    (foldDisjoint fold members).1.keys =
      fold.keys ++ (foldDisjoint fold members).2.1.map (·.verified.publicKey) := by
  induction members generalizing fold with
  | nil => exact (List.append_nil _).symm
  | cons c rest ih =>
    cases h : fold.overlaps c.bits with
    | true =>
      rw [foldDisjoint_cons_of_overlaps h]
      exact ih fold
    | false =>
      rw [foldDisjoint_cons_of_not h, ih, List.map_cons]
      exact List.append_assoc ..

/-- The signature of a fold with one more signature. -/
def addTo (sum : Option Signature) (c : SignedCandidate) : Option Signature :=
  match sum with
  | some sum => some (addSignatures sum c.signature)
  | none => some c.signature

/-- The signature of a fold is the sum of those of the candidates in it. -/
theorem foldDisjoint_signature (fold : SignatureFold) (members : List SignedCandidate) :
    (foldDisjoint fold members).1.signature =
      (foldDisjoint fold members).2.1.foldl addTo fold.signature := by
  induction members generalizing fold with
  | nil => rfl
  | cons c rest ih =>
    cases h : fold.overlaps c.bits with
    | true =>
      rw [foldDisjoint_cons_of_overlaps h]
      exact ih fold
    | false =>
      rw [foldDisjoint_cons_of_not h, ih]
      rfl

end

/-! ## No participant twice -/

section

variable {length : Nat} {fold : SignatureFold} {members : List SignedCandidate}

/-- What shares a participant with one more candidate shares it with those before or with this
one. -/
theorem SignatureFold.overlaps_extended {bits other : AggregationBits} {key : PublicKey}
    {signature : Signature} (h : ∀ folded, fold.bits = some folded → folded.length = bits.length) :
    (fold.extended bits key signature).overlaps other =
      (fold.overlaps other || bits.intersects other) := by
  unfold overlaps extended
  cases hBits : fold.bits with
  | none => simp
  | some folded => exact BitList.intersects_union (h folded hBits)

/-- **Disjoint.** Candidates whose lists of participants are equally long are folded together only
if no two of them have a participant in common. -/
theorem foldDisjoint_pairwise (hFold : ∀ folded, fold.bits = some folded → folded.length = length)
    (hMembers : ∀ c ∈ members, c.bits.length = length) :
    (∀ c ∈ (foldDisjoint fold members).2.1, fold.overlaps c.bits = false) ∧
      (foldDisjoint fold members).2.1.Pairwise fun c c' => c.bits.intersects c'.bits = false := by
  induction members generalizing fold with
  | nil => exact ⟨fun c h => absurd h List.not_mem_nil, .nil⟩
  | cons c rest ih =>
    rw [List.forall_mem_cons] at hMembers
    obtain ⟨hLength, hRest⟩ := hMembers
    cases h : fold.overlaps c.bits with
    | true =>
      rw [foldDisjoint_cons_of_overlaps h]
      exact ih hFold hRest
    | false =>
      rw [foldDisjoint_cons_of_not h]
      have hSame : ∀ folded, fold.bits = some folded → folded.length = c.bits.length :=
        fun folded hBits => (hFold folded hBits).trans hLength.symm
      obtain ⟨hApart, hPairwise⟩ :=
        ih (SignatureFold.length_extended hFold hLength) hRest
      -- What is folded later shares no participant with the candidate nor with those before it.
      have hLater : ∀ c' ∈ (foldDisjoint
          (fold.extended c.bits c.verified.publicKey c.signature) rest).2.1,
          fold.overlaps c'.bits = false ∧ c.bits.intersects c'.bits = false := by
        intro c' hMem
        have hBoth := hApart c' hMem
        rwa [SignatureFold.overlaps_extended hSame, Bool.or_eq_false_iff] at hBoth
      refine ⟨?_, ?_⟩
      · intro c' hMem
        rcases List.mem_cons.mp hMem with rfl | hMem
        · exact h
        · exact (hLater c' hMem).1
      · exact List.pairwise_cons.mpr ⟨fun c' hMem => (hLater c' hMem).2, hPairwise⟩

end

/-! ## Verdicts -/

theorem mem_byParticipants {members : List SignedCandidate} {c : SignedCandidate} :
    c ∈ byParticipants members ↔ c ∈ members :=
  (List.mergeSort_perm _ _).mem_iff

theorem verifyAlone_eq_ok {c : SignedCandidate} {a : ReceivedAttestation} :
    verifyAlone c = ⟨a, .ok ()⟩ ↔ c.verified.attestation = a ∧ c.isValid = true := by
  unfold verifyAlone
  cases c.isValid <;> simp

/-- Whether a candidate is folded with others of the group and the fold verifies. -/
def FoldedIn (members : List SignedCandidate) (c : SignedCandidate) : Prop :=
  let (fold, folded, _) := foldDisjoint {} (byParticipants members)
  c ∈ folded ∧ verifiesTogether fold folded = true

theorem mem_verifyGroup {members : List SignedCandidate} {a : ReceivedAttestation} :
    ⟨a, .ok ()⟩ ∈ verifyGroup members ↔
      ∃ c ∈ members, c.verified.attestation = a ∧ (c.isValid = true ∨ FoldedIn members c) := by
  have hPerm :=
    (foldDisjoint_perm {} (byParticipants members)).trans (List.mergeSort_perm members _)
  unfold verifyGroup FoldedIn
  generalize foldDisjoint {} (byParticipants members) = parts at hPerm ⊢
  obtain ⟨fold, folded, deferred⟩ := parts
  have hMem (c : SignedCandidate) : c ∈ members ↔ c ∈ folded ∨ c ∈ deferred := by
    rw [← hPerm.mem_iff, List.mem_append]
  have hAlone (found : List SignedCandidate) : ⟨a, .ok ()⟩ ∈ found.map verifyAlone ↔
      ∃ c ∈ found, c.verified.attestation = a ∧ c.isValid = true := by
    simp only [List.mem_map, verifyAlone_eq_ok]
  dsimp only
  cases verifiesTogether fold folded with
  | false =>
    -- Every candidate is checked on its own.
    simp only [Bool.false_eq_true, if_false, and_false, or_false, List.mem_append, hAlone, hMem]
    constructor
    · rintro (⟨c, hc, h⟩ | ⟨c, hc, h⟩)
      · exact ⟨c, Or.inl hc, h⟩
      · exact ⟨c, Or.inr hc, h⟩
    · rintro ⟨c, hc | hc, h⟩
      · exact Or.inl ⟨c, hc, h⟩
      · exact Or.inr ⟨c, hc, h⟩
  | true =>
    -- Only those that have been set aside are checked.
    have hTogether : ⟨a, .ok ()⟩ ∈ folded.map (fun c => (⟨c.verified.attestation, .ok ()⟩ :
        SignatureVerdict)) ↔ ∃ c ∈ folded, c.verified.attestation = a := by
      simp
    simp only [if_true, and_true, List.mem_append, hTogether, hAlone, hMem]
    constructor
    · rintro (⟨c, hc, rfl⟩ | ⟨c, hc, rfl, hValid⟩)
      · exact ⟨c, Or.inl hc, rfl, Or.inr hc⟩
      · exact ⟨c, Or.inr hc, rfl, Or.inl hValid⟩
    · rintro ⟨c, hc, rfl, hValid | hFolded⟩
      · rcases hc with hc | hc
        · exact Or.inl ⟨c, hc, rfl⟩
        · exact Or.inr ⟨c, hc, rfl, hValid⟩
      · exact Or.inl ⟨c, hFolded, rfl⟩

/-- The candidates of a batch are its attestations whose signatures can be read. -/
theorem mem_readable {batch : List VerifiedAttestation} {c : SignedCandidate} :
    c ∈ readable batch ↔ c.verified ∈ batch ∧
      readSignature c.verified.attestation.attestation.signature = .ok c.signature := by
  unfold readable
  rw [List.mem_filterMap]
  constructor
  · rintro ⟨v, hv, hRead⟩
    unfold readCandidate at hRead
    cases hSignature : readSignature v.attestation.attestation.signature with
    | error reason => simp [hSignature] at hRead
    | ok signature =>
      simp only [hSignature, Option.some.injEq] at hRead
      rw [← hRead]
      exact ⟨hv, hSignature⟩
  · rintro ⟨hv, hSignature⟩
    refine ⟨c.verified, hv, ?_⟩
    simp only [readCandidate, hSignature]

/-- **Acceptance.** An attestation of a batch is accepted if its signature can be read and
verifies, or if it is folded with others of the same data and the fold verifies. -/
theorem accepted_iff {batch : List VerifiedAttestation} {a : ReceivedAttestation} :
    ⟨a, .ok ()⟩ ∈ verifySignatures batch ↔
      ∃ c ∈ readable batch, c.verified.attestation = a ∧
        (c.isValid = true ∨ FoldedIn (groupOf (readable batch) c.data).members c) := by
  -- What cannot be read is only rejected.
  have hUnreadable : ⟨a, .ok ()⟩ ∉ unreadable batch := by
    intro hMem
    obtain ⟨v, -, hVerdict⟩ := List.mem_filterMap.mp hMem
    unfold readCandidate at hVerdict
    split at hVerdict
    · cases hVerdict
    · rename_i hFound
      split at hFound <;> cases hFound
      cases hVerdict
  simp only [verifySignatures, List.mem_append, List.mem_flatMap, mem_groups, hUnreadable,
    false_or, mem_verifyGroup]
  constructor
  · rintro ⟨_, ⟨c, hc, rfl⟩, c', hMember, rfl, h⟩
    rw [mem_groupOf] at hMember
    obtain ⟨hc', hSame⟩ := hMember
    rw [← hSame] at h
    exact ⟨c', hc', rfl, h⟩
  · rintro ⟨c, hc, rfl, h⟩
    exact ⟨_, ⟨c, hc, rfl⟩, c, mem_groupOf.mpr ⟨hc, rfl⟩, rfl, h⟩

/-- If attestations with one data can all be folded together, in the order in which they come, all
of them are accepted when the fold verifies. -/
theorem accepted_of_folded {batch : List VerifiedAttestation} {data : AttestationData}
    (hData : ∀ c ∈ readable batch, c.data = data)
    (hOrder : (readable batch).Pairwise fun c c' => c.bits.count ≤ c'.bits.count)
    (hAll : (foldDisjoint {} (readable batch)).2.2 = [])
    (hVerifies : verifiesTogether (foldDisjoint {} (readable batch)).1
      (foldDisjoint {} (readable batch)).2.1 = true) {c : SignedCandidate}
    (hc : c ∈ readable batch) : ⟨c.verified.attestation, .ok ()⟩ ∈ verifySignatures batch := by
  have hGroup : (groupOf (readable batch) c.data).members = readable batch := by
    refine List.filter_eq_self.mpr fun c' hc' => ?_
    rw [hData c' hc', hData c hc, decide_eq_true_eq]
  have hSorted : byParticipants (readable batch) = readable batch :=
    List.mergeSort_of_pairwise (hOrder.imp decide_eq_true)
  have hFolded : c ∈ (foldDisjoint {} (readable batch)).2.1 := by
    have hPerm := foldDisjoint_perm {} (readable batch)
    rw [hAll, List.append_nil] at hPerm
    exact hPerm.mem_iff.mpr hc
  refine accepted_iff.mpr ⟨c, hc, rfl, Or.inr ?_⟩
  rw [hGroup, FoldedIn, hSorted]
  exact ⟨hFolded, hVerifies⟩

end ForkChoice
