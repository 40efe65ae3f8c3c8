import Mathlib.Data.Finset.Card
import ForkChoice.Proofs.Ledger
import ForkChoice.Proofs.Pipeline.BatchQueue

/-!
# ForkChoice — the batches in the course of time

The batches are in a linked map, of which no more is assumed than its laws. Attestations are
pushed and batches are taken in any order. An attestation is told apart from an equal one by the
number of the operation that has pushed it: the batches are a queue with a ledger of who has come
and who has left.

A batch keeps its place when it grows. So its place is that of the first of its attestations, and
the oldest of all attestations is in the first batch. All attestations with its key leave with it,
and the next one with this key begins a new batch, at the end of the queue. Therefore the batch that
is taken is the one that has been pending longest, and no batch is overtaken forever by those that
keep growing.

* `Operation`, `after`, `taken` — any operations, the batches after them, and what each of them
  takes;
* `Shows`, `shows_push` — the batches as a list of attestations, and one more of them;
* `ledger`, `taken_eq_some`, `shows_after` — who leaves at an operation;
* `PendingSince`, `pendingSince_iff`, `pushedUnder` — how long a batch has been pending, and what
  has been pushed since then, `taken_iff_pendingSince` — which one is taken;
* `QueueOfBatches`, `queueOfBatches` — what becomes of attestations in batches.
-/

namespace ForkChoice.BatchQueue

open LinkedMap (Lawful)

/-- What is done with the batches. -/
inductive Operation where
  | push (a : ReceivedAttestation)
  | take

/-- The attestation that an operation adds. -/
def Operation.brings : Operation → Option ReceivedAttestation
  | .push a => some a
  | .take => none

section

variable {M : Type} [LinkedMap M BatchKey (List ReceivedAttestation)]

/-- Carries out an operation: the batch that it takes, and the batches that it leaves. -/
def apply (p : BatchQueue M) : Operation → Option Batch × BatchQueue M
  | .push a => (none, p.push a)
  | .take =>
    match p.take? with
    | some (batch, rest) => (some batch, rest)
    | none => (none, p)

end

variable (M : Type) [LinkedMap M BatchKey (List ReceivedAttestation)]

/-- The batches after so many operations of a sequence, when there have been none before. Every
finite sequence is the beginning of an endless one. -/
def after (ops : Nat → Operation) : Nat → BatchQueue M
  | 0 => {}
  | n + 1 => ((after ops n).apply (ops n)).2

/-- The batch that an operation of a sequence takes. -/
def taken (ops : Nat → Operation) (n : Nat) : Option Batch :=
  ((after M ops n).apply (ops n)).1

/-- The batch with a key is taken. -/
def TakenAt (ops : Nat → Operation) (n : Nat) (key : BatchKey) : Prop :=
  ∃ batch, taken M ops n = some batch ∧ batch.key = key

/-- Before operation `n`, the batch with a key has been pending since operation `i`: this one has
pushed the first attestation under the key since the batch has last been taken. -/
structure PendingSince (ops : Nat → Operation) (n : Nat) (key : BatchKey) (i : Nat) : Prop where
  before : i < n
  pushed : ∃ a, ops i = .push a ∧ a.batchKey = key
  notTaken : ∀ k < n, i < k → ¬ TakenAt M ops k key
  first : ∀ j < i, ∀ a, ops j = .push a → a.batchKey = key → ∃ k < i, j < k ∧ TakenAt M ops k key

variable {M} [Lawful M]

/-- The key of an attestation that has a number. -/
def keyOf (m : Nat × ReceivedAttestation) : BatchKey := m.2.batchKey

variable {ops : Nat → Operation} {i n : Nat} {a : ReceivedAttestation} {batch : Batch}
  {key : BatchKey} {m : Nat × ReceivedAttestation}

/-! ## One list -/

/-- The batches hold the attestations of a list: the first batch all those with the key of the first
attestation, the others the rest. -/
def Shows : List Batch → List (Nat × ReceivedAttestation) → Prop
  | [], members => members = []
  | batch :: rest, members =>
    members.head?.map keyOf = some batch.key ∧
      batch.attestations = (members.filter fun m => keyOf m = batch.key).map Prod.snd ∧
        Shows rest (members.filter fun m => !decide (keyOf m = batch.key))

section

variable {batches : List Batch} {members : List (Nat × ReceivedAttestation)}

/-- What comes last in the list comes last in its batch, or begins the last batch. -/
theorem shows_push (h : Shows batches members) (n : Nat) (a : ReceivedAttestation) :
    Shows (pushOnto a batches) (members ++ [(n, a)]) := by
  -- The batch is looked for among those that hold less and less of the list.
  induction batches generalizing members with
  | nil =>
    rw [show members = [] from h, List.nil_append, pushOnto]
    refine ⟨rfl, ?_, ?_⟩ <;> simp [keyOf, Shows]
  | cons batch rest ih =>
    obtain ⟨hFirst, hAttestations, hRest⟩ := h
    have hHead : (members ++ [(n, a)]).head?.map keyOf = some batch.key := by
      cases members with
      | nil => cases hFirst
      | cons first others => exact hFirst
    unfold pushOnto
    split
    · rename_i hSame
      have hKey : keyOf (n, a) = batch.key := hSame.symm
      refine ⟨hHead, ?_, ?_⟩
      · rw [List.filter_append, List.map_append, List.filter_cons_of_pos (by simpa using hKey)]
        exact congrArg (· ++ [a]) hAttestations
      · rw [List.filter_append, List.filter_cons_of_neg (by simpa using hKey), List.filter_nil,
          List.append_nil]
        exact hRest
    · rename_i hOther
      have hKey : ¬ keyOf (n, a) = batch.key := fun hSame => hOther hSame.symm
      refine ⟨hHead, ?_, ?_⟩
      · rw [List.filter_append, List.filter_cons_of_neg (by simpa using hKey), List.filter_nil,
          List.append_nil]
        exact hAttestations
      · rw [List.filter_append, List.filter_cons_of_pos (by simpa using hKey), List.filter_nil]
        exact ih hRest

theorem filter_others {key key' : BatchKey} (h : key ≠ key') :
    ((members.filter fun m => !decide (keyOf m = key')).filter fun m => keyOf m = key) =
      members.filter fun m => keyOf m = key := by
  rw [List.filter_filter]
  refine List.filter_congr fun m _ => ?_
  by_cases hKey : keyOf m = key <;> simp [hKey, h]

/-- A batch holds all attestations with its key, and there is one for every key that they have. -/
theorem Shows.mem_iff (h : Shows batches members) : batch ∈ batches ↔
    (∃ m ∈ members, keyOf m = batch.key) ∧
      batch.attestations = (members.filter fun m => keyOf m = batch.key).map Prod.snd := by
  induction batches generalizing members with
  | nil =>
    rw [show members = [] from h]
    simp
  | cons first rest ih =>
    obtain ⟨hFirst, hAttestations, hRest⟩ := h
    rw [List.mem_cons, ih hRest]
    constructor
    · rintro (rfl | ⟨⟨m, hm, hKey⟩, hAll⟩)
      · obtain ⟨m, hHead, hKey⟩ := Option.map_eq_some_iff.mp hFirst
        exact ⟨⟨m, List.mem_of_mem_head? hHead, hKey⟩, hAttestations⟩
      · obtain ⟨hThere, hOther⟩ := List.mem_filter.mp hm
        rw [hKey] at hOther
        rw [filter_others (by simpa using hOther)] at hAll
        exact ⟨⟨m, hThere, hKey⟩, hAll⟩
    · rintro ⟨⟨m, hm, hKey⟩, hAll⟩
      by_cases hSame : batch.key = first.key
      · refine Or.inl ?_
        rw [hSame, ← hAttestations] at hAll
        cases batch
        cases first
        rw [Batch.mk.injEq]
        exact ⟨hSame, hAll⟩
      · refine Or.inr ⟨⟨m, List.mem_filter.mpr ⟨hm, ?_⟩, hKey⟩, ?_⟩
        · simpa [hKey] using hSame
        · rw [filter_others hSame]
          exact hAll

/-- The batches have the keys of the attestations, -/
theorem Shows.mem_keys (h : Shows batches members) :
    key ∈ batches.map Batch.key ↔ key ∈ members.map keyOf := by
  rw [List.mem_map, List.mem_map]
  constructor
  · rintro ⟨batch, hBatch, rfl⟩
    exact (h.mem_iff.mp hBatch).1
  · intro hThere
    exact ⟨⟨key, (members.filter fun m => keyOf m = key).map Prod.snd⟩,
      h.mem_iff.mpr ⟨hThere, rfl⟩, rfl⟩

/-- each of them once. -/
theorem Shows.nodup_keys (h : Shows batches members) : (batches.map Batch.key).Nodup := by
  induction batches generalizing members with
  | nil => exact List.nodup_nil
  | cons batch rest ih =>
    obtain ⟨-, -, hRest⟩ := h
    refine List.nodup_cons.mpr ⟨fun hAgain => ?_, ih hRest⟩
    obtain ⟨m, hm, hKey⟩ := List.mem_map.mp (hRest.mem_keys.mp hAgain)
    have hOther := (List.mem_filter.mp hm).2
    simp [hKey] at hOther

/-- The attestations of the list are in the batches. -/
theorem Shows.perm_attestations (h : Shows batches members) :
    (batches.flatMap Batch.attestations).Perm (members.map Prod.snd) := by
  induction batches generalizing members with
  | nil =>
    rw [show members = [] from h]
    exact List.Perm.nil
  | cons batch rest ih =>
    obtain ⟨-, hAttestations, hRest⟩ := h
    rw [List.flatMap_cons, hAttestations]
    refine ((ih hRest).append_left _).trans ?_
    rw [← List.map_append]
    exact (List.filter_append_perm _ members).map Prod.snd

theorem Shows.length_keys (h : Shows batches members) :
    batches.length = (members.map keyOf).toFinset.card := by
  have hKeys : (batches.map Batch.key).toFinset = (members.map keyOf).toFinset := by
    ext key
    rw [List.mem_toFinset, List.mem_toFinset, h.mem_keys]
  rw [← hKeys, List.toFinset_card_of_nodup h.nodup_keys, List.length_map]

end

/-! ## Who leaves -/

/-- The ledger of the batches: when a batch is taken, all those leave that have the key of the
oldest one. -/
def ledger (ops : Nat → Operation) : Ledger ReceivedAttestation where
  enters n := (ops n).brings
  leaves n members m :=
    match ops n with
    | .push _ => false
    | .take => members.head?.map keyOf = some (keyOf m)

theorem brings_eq_some {op : Operation} : op.brings = some a ↔ op = .push a := by
  cases op <;> simp [Operation.brings]

theorem ledger_push (h : ops n = .push a) :
    (ledger ops).leaving n = [] ∧
      (ledger ops).before (n + 1) = (ledger ops).before n ++ [(n, a)] := by
  have hRule : ∀ members m, (ledger ops).leaves n members m = false := by
    intro members m
    simp only [ledger, h]
  rw [Ledger.leaving, Ledger.before_succ, Ledger.entering_of_enters (brings_eq_some.mpr h),
    List.filter_eq_nil_iff, List.filter_eq_self]
  exact ⟨fun m _ => by simp [hRule], fun m _ => by simp [hRule]⟩

theorem ledger_take (h : ops n = .take) :
    (ledger ops).leaving n = ((ledger ops).before n).filter
        (fun m => ((ledger ops).before n).head?.map keyOf = some (keyOf m)) ∧
      (ledger ops).before (n + 1) = ((ledger ops).before n).filter
        fun m => !decide (((ledger ops).before n).head?.map keyOf = some (keyOf m)) := by
  have hRule : ∀ members, (ledger ops).leaves n members =
      fun m => decide (members.head?.map keyOf = some (keyOf m)) := by
    intro members
    funext m
    simp only [ledger, h]
  have hNone : (ledger ops).enters n = none := by
    show (ops n).brings = none
    rw [h]
    rfl
  rw [Ledger.leaving, Ledger.before_succ, Ledger.entering_of_none hNone, List.append_nil,
    hRule]
  exact ⟨rfl, rfl⟩

/-- Those that leave with the first batch, and those that stay. -/
theorem ledger_first (h : ops n = .take)
    (hFirst : ((ledger ops).before n).head?.map keyOf = some key) :
    (ledger ops).leaving n = ((ledger ops).before n).filter (fun m => keyOf m = key) ∧
      (ledger ops).before (n + 1) =
        ((ledger ops).before n).filter fun m => !decide (keyOf m = key) := by
  have hRule : ∀ m, decide (some key = some (keyOf m)) = decide (keyOf m = key) := by
    intro m
    exact decide_eq_decide.mpr (Option.some_inj.trans eq_comm)
  have hTake := ledger_take h
  rw [hFirst] at hTake
  simpa only [hRule] using hTake

/-- What an operation takes is the batch with the key of the oldest attestation. -/
theorem taken_of_shows (h : Shows (after M ops n).all ((ledger ops).before n)) :
    taken M ops n = some batch ↔ ops n = .take ∧
      ((ledger ops).before n).head?.map keyOf = some batch.key ∧
        batch.attestations =
          (((ledger ops).before n).filter fun m => keyOf m = batch.key).map Prod.snd := by
  unfold taken
  generalize after M ops n = p at h ⊢
  cases hOp : ops n with
  | push a => simp [apply]
  | take =>
    unfold apply
    cases hTake : p.take? with
    | none =>
      rw [all_eq_nil hTake] at h
      rw [show (ledger ops).before n = [] from h]
      simp
    | some both =>
      obtain ⟨first, rest⟩ := both
      rw [all_eq_cons hTake] at h
      obtain ⟨hFirst, hAttestations, -⟩ := h
      show some first = some batch ↔ _
      rw [Option.some.injEq]
      constructor
      · rintro rfl
        exact ⟨rfl, hFirst, hAttestations⟩
      · rintro ⟨-, hKey, hAll⟩
        rw [hFirst, Option.some.injEq] at hKey
        rw [← hKey, ← hAttestations] at hAll
        obtain ⟨key, attestations⟩ := batch
        cases first
        rw [Batch.mk.injEq]
        exact ⟨hKey, hAll.symm⟩

/-- **One operation** leaves what the ledger says. -/
theorem shows_step (h : Shows (after M ops n).all ((ledger ops).before n)) :
    Shows (after M ops (n + 1)).all ((ledger ops).before (n + 1)) := by
  rw [after]
  generalize after M ops n = p at h ⊢
  cases hOp : ops n with
  | push a =>
    rw [(ledger_push hOp).2]
    show Shows (p.push a).all _
    rw [all_push]
    exact shows_push h n a
  | take =>
    unfold apply
    cases hTake : p.take? with
    | none =>
      rw [all_eq_nil hTake] at h
      have hNone : (ledger ops).before n = [] := h
      rw [(ledger_take hOp).2, hNone]
      show Shows p.all []
      rw [all_eq_nil hTake]
      rfl
    | some both =>
      obtain ⟨first, rest⟩ := both
      rw [all_eq_cons hTake] at h
      obtain ⟨hFirst, -, hRest⟩ := h
      rw [(ledger_first hOp hFirst).2]
      exact hRest

/-- **Any operations** leave what the ledger says. -/
theorem shows_after (ops : Nat → Operation) (n : Nat) :
    Shows (after M ops n).all ((ledger ops).before n) := by
  induction n with
  | zero =>
    rw [after, all_empty]
    rfl
  | succ n ih => exact shows_step ih

theorem taken_eq_some : taken M ops n = some batch ↔ ops n = .take ∧
    ((ledger ops).before n).head?.map keyOf = some batch.key ∧
      batch.attestations =
        (((ledger ops).before n).filter fun m => keyOf m = batch.key).map Prod.snd :=
  taken_of_shows (shows_after ops n)

/-! ## Since when -/

variable (M)

theorem takenAt_iff :
    TakenAt M ops n key ↔ ops n = .take ∧ ((ledger ops).before n).head?.map keyOf = some key := by
  constructor
  · rintro ⟨batch, hTaken, rfl⟩
    obtain ⟨hOp, hFirst, -⟩ := taken_eq_some.mp hTaken
    exact ⟨hOp, hFirst⟩
  · rintro ⟨hOp, hFirst⟩
    exact ⟨⟨key, (((ledger ops).before n).filter fun m => keyOf m = key).map Prod.snd⟩,
      taken_eq_some.mpr ⟨hOp, hFirst, rfl⟩, rfl⟩

theorem taken_eq_none (hOp : ops n = .take) :
    taken M ops n = none ↔ (ledger ops).before n = [] := by
  constructor
  · intro hNone
    by_contra hSome
    obtain ⟨first, rest, hMembers⟩ := List.exists_cons_of_ne_nil hSome
    have hFirst : ((ledger ops).before n).head?.map keyOf = some (keyOf first) := by
      rw [hMembers]
      rfl
    obtain ⟨batch, hBatch, -⟩ := (takenAt_iff M).mpr ⟨hOp, hFirst⟩
    rw [hNone] at hBatch
    cases hBatch
  · intro hNone
    rw [Option.eq_none_iff_forall_ne_some]
    intro batch hBatch
    obtain ⟨-, hFirst, -⟩ := taken_eq_some.mp hBatch
    rw [hNone] at hFirst
    cases hFirst

/-- Those that leave are those that are there when their batch is taken. -/
theorem mem_leaving : m ∈ (ledger ops).leaving n ↔
    m ∈ (ledger ops).before n ∧ TakenAt M ops n (keyOf m) := by
  rw [takenAt_iff M]
  cases hOp : ops n with
  | push a => simp [(ledger_push hOp).1]
  | take =>
    rw [(ledger_take hOp).1, List.mem_filter, decide_eq_true_eq]
    exact and_congr_right fun _ => (and_iff_right rfl).symm

/-- Those are there who have been pushed, and whose batch has not been taken since. -/
theorem mem_before : (i, a) ∈ (ledger ops).before n ↔
    i < n ∧ ops i = .push a ∧ ∀ k < n, i < k → ¬ TakenAt M ops k a.batchKey := by
  rw [Ledger.mem_before, ← brings_eq_some]
  refine and_congr_right fun hLess => and_congr_right fun hPush => ?_
  constructor
  · intro hStays k hk hLater hTaken
    refine hStays k hk ((mem_leaving M).mpr ⟨?_, hTaken⟩)
    exact Ledger.mem_before.mpr ⟨hLater, hPush, fun j hj => hStays j (Nat.lt_trans hj hk)⟩
  · intro hStays k hk hLeaves
    obtain ⟨hThere, hTaken⟩ := (mem_leaving M).mp hLeaves
    exact hStays k hk (Ledger.came_of_mem_before hThere).1 hTaken

/-- The batch has been pending since the first of those that are there was pushed. -/
theorem pendingSince_iff : PendingSince M ops n key i ↔
    ∃ a, (i, a) ∈ (ledger ops).before n ∧ a.batchKey = key ∧
      ∀ m ∈ (ledger ops).before n, keyOf m = key → i ≤ m.1 := by
  constructor
  · rintro ⟨hBefore, ⟨a, hPush, rfl⟩, hNotTaken, hFirst⟩
    refine ⟨a, (mem_before M).mpr ⟨hBefore, hPush, hNotTaken⟩, rfl, ?_⟩
    rintro ⟨j, b⟩ hm hKey
    obtain ⟨-, hPushed, hStays⟩ := (mem_before M).mp hm
    by_contra hLess
    obtain ⟨k, hk, hLater, hTaken⟩ := hFirst j (Nat.not_le.mp hLess) b hPushed hKey
    exact hStays k (Nat.lt_trans hk hBefore) hLater (by rwa [show b.batchKey = _ from hKey])
  · rintro ⟨a, hm, rfl, hLeast⟩
    obtain ⟨hBefore, hPush, hNotTaken⟩ := (mem_before M).mp hm
    refine ⟨hBefore, ⟨a, hPush, rfl⟩, hNotTaken, fun j hj b hPushed hKey => ?_⟩
    -- An earlier one has left, and this was before operation `i`.
    by_contra hNever
    have hThere : (j, b) ∈ (ledger ops).before n := by
      refine (mem_before M).mpr ⟨Nat.lt_trans hj hBefore, hPushed, fun k hk hLater hTaken => ?_⟩
      rw [hKey] at hTaken
      rcases Nat.lt_trichotomy k i with hLess | rfl | hGreater
      · exact hNever ⟨k, hLess, hLater, hTaken⟩
      · rw [((takenAt_iff M).mp hTaken).1] at hPush
        cases hPush
      · exact hNotTaken k hk hGreater hTaken
    exact absurd (hLeast _ hThere hKey) (Nat.not_le.mpr hj)

/-- The batch of the oldest attestation has been pending since this one was pushed. -/
theorem pendingSince_head {first : Nat × ReceivedAttestation}
    {rest : List (Nat × ReceivedAttestation)} (h : (ledger ops).before n = first :: rest) :
    PendingSince M ops n (keyOf first) first.1 ∧ ∀ m ∈ (ledger ops).before n, first.1 ≤ m.1 := by
  have hOldest : ∀ m ∈ (ledger ops).before n, first.1 ≤ m.1 := by
    have hOrder := (ledger ops).pairwise_before n
    rw [h, List.pairwise_cons] at hOrder
    rw [h, List.forall_mem_cons]
    exact ⟨Nat.le_refl _, fun m hm => Nat.le_of_lt (hOrder.1 m hm)⟩
  refine ⟨(pendingSince_iff M).mpr ⟨first.2, ?_, rfl, fun m hm _ => hOldest m hm⟩, hOldest⟩
  rw [h]
  exact List.mem_cons_self

/-- **The oldest batch** is the one that has been pending longest. -/
theorem head_iff : ((ledger ops).before n).head?.map keyOf = some key ↔
    ∃ i, PendingSince M ops n key i ∧ ∀ key' j, PendingSince M ops n key' j → i ≤ j := by
  constructor
  · intro hHead
    cases hMembers : (ledger ops).before n with
    | nil => simp [hMembers] at hHead
    | cons first rest =>
      obtain ⟨hPending, hOldest⟩ := pendingSince_head M hMembers
      rw [hMembers] at hHead
      rw [← Option.some.inj hHead]
      refine ⟨first.1, hPending, fun key' j hOther => ?_⟩
      obtain ⟨a, hThere, -⟩ := (pendingSince_iff M).mp hOther
      exact hOldest _ hThere
  · rintro ⟨i, hPending, hLongest⟩
    obtain ⟨a, hThere, rfl, -⟩ := (pendingSince_iff M).mp hPending
    cases hMembers : (ledger ops).before n with
    | nil => simp [hMembers] at hThere
    | cons first rest =>
      obtain ⟨hFirst, hOldest⟩ := pendingSince_head M hMembers
      have hSame : i = first.1 := Nat.le_antisymm (hLongest _ _ hFirst) (hOldest _ hThere)
      -- One operation pushes one attestation only.
      obtain ⟨b, hPush, hKey⟩ := hFirst.pushed
      rw [← hSame, ((mem_before M).mp hThere).2.1] at hPush
      rw [Operation.push.inj hPush, hKey]
      rfl

/-- There are attestations with a key as long as its batch is pending. -/
theorem exists_pendingSince :
    (∃ i, PendingSince M ops n key i) ↔ ∃ m ∈ (ledger ops).before n, keyOf m = key := by
  constructor
  · rintro ⟨i, hPending⟩
    obtain ⟨a, hThere, hKey, -⟩ := (pendingSince_iff M).mp hPending
    exact ⟨(i, a), hThere, hKey⟩
  · rintro ⟨m, hm, hKey⟩
    have hOrder := ((ledger ops).pairwise_before n).filter fun m => decide (keyOf m = key)
    cases hBatch : ((ledger ops).before n).filter fun m => keyOf m = key with
    | nil => exact absurd hKey (by simpa using List.filter_eq_nil_iff.mp hBatch m hm)
    | cons first rest =>
      rw [hBatch, List.pairwise_cons] at hOrder
      have hThere : ∀ m, m ∈ first :: rest ↔ m ∈ (ledger ops).before n ∧ keyOf m = key := by
        intro m
        rw [← hBatch, List.mem_filter, decide_eq_true_eq]
      obtain ⟨hFirst, hFirstKey⟩ := (hThere first).mp List.mem_cons_self
      refine ⟨first.1, (pendingSince_iff M).mpr ⟨first.2, hFirst, hFirstKey, fun m' hm' hKey' => ?_⟩⟩
      rcases List.mem_cons.mp ((hThere m').mpr ⟨hm', hKey'⟩) with rfl | hLater
      · exact Nat.le_refl _
      · exact Nat.le_of_lt (hOrder.1 m' hLater)

variable {M}

/-- The attestations that have been pushed under a key by the operations from `i` to `n`, in the
order in which they have been pushed. -/
def pushedUnder (ops : Nat → Operation) (key : BatchKey) (i n : Nat) : List ReceivedAttestation :=
  (List.range' i (n - i)).filterMap fun k => (ops k).brings.filter fun a => a.batchKey = key

/-- Those in a batch are those that have been pushed under its key since it has been pending. -/
theorem pushedUnder_eq (h : PendingSince M ops n key i) :
    (((ledger ops).before n).filter fun m => keyOf m = key).map Prod.snd =
      pushedUnder ops key i n := by
  have hNumbered : pushedUnder ops key i n = ((List.range' i (n - i)).filterMap fun k =>
      ((ops k).brings.filter fun a => a.batchKey = key).map (Prod.mk k)).map Prod.snd := by
    rw [pushedUnder, List.map_filterMap]
    simp [Option.map_map, Function.comp_def]
  rw [hNumbered]
  refine congrArg (List.map Prod.snd) (Ledger.eq_of_mem_iff ?_ ?_ ?_)
  · exact ((ledger ops).pairwise_before n).filter _
  · refine List.pairwise_filterMap.mpr ((List.pairwise_lt_range' _).imp ?_)
    intro k k' hLess m hm m' hm'
    obtain ⟨_, -, rfl⟩ := Option.map_eq_some_iff.mp hm
    obtain ⟨_, -, rfl⟩ := Option.map_eq_some_iff.mp hm'
    exact hLess
  · rintro ⟨j, b⟩
    have hMem : (j, b) ∈ ((List.range' i (n - i)).filterMap fun k =>
        ((ops k).brings.filter fun a => a.batchKey = key).map (Prod.mk k)) ↔
          (i ≤ j ∧ j < n) ∧ ops j = .push b ∧ b.batchKey = key := by
      simp only [List.mem_filterMap, List.mem_range'_1, Option.map_eq_some_iff,
        Option.filter_eq_some_iff, Prod.mk.injEq, decide_eq_true_eq, brings_eq_some]
      have hBefore := h.before
      constructor
      · rintro ⟨k, hk, _, hPush, rfl, rfl⟩
        exact ⟨by omega, hPush⟩
      · rintro ⟨hRange, hPush⟩
        exact ⟨j, by omega, b, hPush, rfl, rfl⟩
    rw [hMem, List.mem_filter, mem_before M, decide_eq_true_eq]
    constructor
    · rintro ⟨⟨hBefore, hPush, hStays⟩, hKey⟩
      obtain ⟨_, -, -, hLeast⟩ := (pendingSince_iff M).mp h
      exact ⟨⟨hLeast (j, b) ((mem_before M).mpr ⟨hBefore, hPush, hStays⟩) hKey, hBefore⟩, hPush, hKey⟩
    · rintro ⟨⟨hSince, hBefore⟩, hPush, rfl⟩
      exact ⟨⟨hBefore, hPush, fun k hk hLater =>
        h.notTaken k hk (Nat.lt_of_le_of_lt hSince hLater)⟩, rfl⟩

/-- The two ways to say that a batch is in the queue. -/
theorem held_iff : (∃ m ∈ (ledger ops).before n, keyOf m = batch.key) ∧
    batch.attestations =
      (((ledger ops).before n).filter fun m => keyOf m = batch.key).map Prod.snd ↔
    ∃ i, PendingSince M ops n batch.key i ∧ batch.attestations = pushedUnder ops batch.key i n := by
  constructor
  · rintro ⟨hThere, hAll⟩
    obtain ⟨i, hPending⟩ := (exists_pendingSince M).mpr hThere
    exact ⟨i, hPending, hAll.trans (pushedUnder_eq hPending)⟩
  · rintro ⟨i, hPending, hAll⟩
    exact ⟨(exists_pendingSince M).mp ⟨i, hPending⟩, hAll.trans (pushedUnder_eq hPending).symm⟩

/-- A batch is taken if it is the one that has been pending longest. -/
theorem taken_iff_pendingSince : taken M ops n = some batch ↔ ops n = .take ∧
    ∃ i, PendingSince M ops n batch.key i ∧
      (∀ key j, PendingSince M ops n key j → i ≤ j) ∧
        batch.attestations = pushedUnder ops batch.key i n := by
  rw [taken_eq_some, head_iff M]
  refine and_congr_right fun _ => ?_
  constructor
  · rintro ⟨⟨i, hPending, hLongest⟩, hAll⟩
    exact ⟨i, hPending, hLongest, hAll.trans (pushedUnder_eq hPending)⟩
  · rintro ⟨i, hPending, hLongest, hAll⟩
    exact ⟨⟨i, hPending, hLongest⟩, hAll.trans (pushedUnder_eq hPending).symm⟩

theorem taken_none_iff_pendingSince (hOp : ops n = .take) :
    taken M ops n = none ↔ ∀ key i, ¬ PendingSince M ops n key i := by
  rw [taken_eq_none M hOp, List.eq_nil_iff_forall_not_mem]
  constructor
  · intro hNone key i hPending
    obtain ⟨m, hm, -⟩ := (exists_pendingSince M).mp ⟨i, hPending⟩
    exact hNone m hm
  · intro hNone m hm
    obtain ⟨i, hPending⟩ := (exists_pendingSince M).mpr ⟨m, hm, rfl⟩
    exact hNone _ i hPending

theorem batchKey_of_taken (h : taken M ops n = some batch) (ha : a ∈ batch.attestations) :
    a.batchKey = batch.key := by
  obtain ⟨-, -, hAll⟩ := taken_eq_some.mp h
  rw [hAll, List.mem_map] at ha
  obtain ⟨m, hm, rfl⟩ := ha
  exact of_decide_eq_true (List.mem_filter.mp hm).2

/-- Those who leave are those in the batch that is taken. -/
theorem attestations_taken (ops : Nat → Operation) (n : Nat) :
    (taken M ops n).elim [] Batch.attestations = ((ledger ops).leaving n).map Prod.snd := by
  cases hTaken : taken M ops n with
  | none =>
    have hNone : (ledger ops).leaving n = [] := by
      refine List.eq_nil_iff_forall_not_mem.mpr fun m hm => ?_
      obtain ⟨batch, hBatch, -⟩ := ((mem_leaving M).mp hm).2
      rw [hTaken] at hBatch
      cases hBatch
    rw [hNone]
    rfl
  | some batch =>
    obtain ⟨hOp, hFirst, hAll⟩ := taken_eq_some.mp hTaken
    rw [(ledger_first hOp hFirst).1]
    exact hAll

/-! ## A queue -/

variable (M)

/-- **A queue of batches.** What becomes of the attestations in batches, each with the number of the
operation that has pushed it: `held` are those in the batches before an operation, `left` those in
the batch that it takes. -/
structure QueueOfBatches (ops : Nat → Operation)
    (held left : Nat → List (Nat × ReceivedAttestation)) : Prop where
  /-- The batch that is taken is the one that has been pending longest, with all that has been
  pushed under its key since then. -/
  taken_iff : ∀ n batch, taken M ops n = some batch ↔ ops n = .take ∧
    ∃ i, PendingSince M ops n batch.key i ∧
      (∀ key j, PendingSince M ops n key j → i ≤ j) ∧
        batch.attestations = pushedUnder ops batch.key i n
  /-- None is taken only if none is pending. -/
  taken_none : ∀ n, ops n = .take →
    (taken M ops n = none ↔ ∀ key i, ¬ PendingSince M ops n key i)
  sameKey : ∀ n batch, taken M ops n = some batch → ∀ a ∈ batch.attestations,
    a.data.target = batch.key.target ∧ a.data.blockRoot = batch.key.blockRoot
  /-- The batches that have not been taken are kept in the same way. -/
  pending_iff : ∀ n batch, batch ∈ (after M ops n).all ↔
    ∃ i, PendingSince M ops n batch.key i ∧ batch.attestations = pushedUnder ops batch.key i n
  held_perm : ∀ n, ((after M ops n).all.flatMap Batch.attestations).Perm ((held n).map Prod.snd)
  left_eq : ∀ n, (taken M ops n).elim [] Batch.attestations = (left n).map Prod.snd
  /-- There are no others than those that have been pushed. -/
  added : ∀ n m, m ∈ held n ∨ m ∈ left n → m.1 ≤ n ∧ ops m.1 = .push m.2
  /-- Each one is taken once, or is still there. -/
  once : ∀ i a, ops i = .push a → ∀ n > i,
    ((i, a) ∈ held n ∧ ∀ k < n, (i, a) ∉ left k) ∨
      ((i, a) ∉ held n ∧ ∃! k, k < n ∧ (i, a) ∈ left k)
  attestationCount_eq : ∀ n, (after M ops n).attestationCount = (held n).length
  size_eq : ∀ n, (after M ops n).size = ((held n).map keyOf).toFinset.card

/-- **The batches** are a queue, whatever is done with them and whichever map they are in. -/
theorem queueOfBatches (ops : Nat → Operation) :
    QueueOfBatches M ops (ledger ops).before (ledger ops).leaving where
  taken_iff _ _ := taken_iff_pendingSince
  taken_none _ := taken_none_iff_pendingSince
  sameKey n batch hTaken a ha := by
    rw [← batchKey_of_taken hTaken ha]
    exact ⟨rfl, rfl⟩
  pending_iff n batch := (shows_after ops n).mem_iff.trans held_iff
  held_perm n := (shows_after ops n).perm_attestations
  left_eq := attestations_taken ops
  added := by
    rintro n m (hHeld | hLeft)
    · obtain ⟨hLess, hEnters⟩ := Ledger.came_of_mem_before hHeld
      exact ⟨Nat.le_of_lt hLess, brings_eq_some.mp hEnters⟩
    · obtain ⟨hLe, hEnters⟩ := Ledger.came_of_mem_leaving hLeft
      exact ⟨hLe, brings_eq_some.mp hEnters⟩
  once i a hPush n hn := Ledger.once (brings_eq_some.mpr hPush) hn
  attestationCount_eq n := by
    rw [BatchQueue.attestationCount_eq, attestations,
      (shows_after ops n).perm_attestations.length_eq, List.length_map]
  size_eq n := (BatchQueue.size_eq _).trans (shows_after ops n).length_keys

/-- A vote with a target of an epoch, and its number in the order of arrival. -/
def voteFor (epoch : Epoch) (arrival : UInt64) : ReceivedAttestation where
  attestation :=
    { (default : Attestation) with data := { (default : AttestationData) with target := ⟨epoch, 0⟩ } }
  origin := .gossip
  arrival := arrival

/-- The first batch grows when there is another one behind it, and then they are taken. -/
def growing : Nat → Operation
  | 0 => .push (voteFor 1 0)
  | 1 => .push (voteFor 2 1)
  | 2 => .push (voteFor 1 2)
  | _ => .take

/-- With lists of entries for a map, the batch that has grown is still the first one. -/
theorem queueOfBatches_growing :
    let M := Linked BatchKey (List ReceivedAttestation)
    QueueOfBatches M growing (ledger growing).before (ledger growing).leaving ∧
      taken M growing 3 = some ⟨⟨⟨1, 0⟩, 0⟩, [voteFor 1 0, voteFor 1 2]⟩ ∧
      taken M growing 4 = some ⟨⟨⟨2, 0⟩, 0⟩, [voteFor 2 1]⟩ ∧
      taken M growing 5 = none :=
  ⟨queueOfBatches _ growing, rfl, rfl, rfl⟩

end ForkChoice.BatchQueue
