import Mathlib.Data.List.Perm.Basic
import ForkChoice.Pipeline.PendingBatches
import ForkChoice.Proofs.Groups
import ForkChoice.Proofs.LinkedMap

/-!
# ForkChoice — batches in a linked map

What a linked map does to its entries makes a queue of batches: an attestation that is pushed goes
to the end of its batch, in the place where the batch is, or to a new batch behind all others. From
here on the map is not looked at; a queue is the list of its batches.

* `pushOnto`, `BatchQueue.all_push` — an attestation that is pushed;
* `BatchQueue.all_eq_cons`, `BatchQueue.all_eq_nil` — the batch that is taken;
* `BatchQueue.push_perm`, `BatchQueue.mem_push` — which attestations and which keys there are.
-/

namespace ForkChoice

/-- The batches with one more attestation, which goes to the end of its batch, or makes a new one at
the end. -/
def pushOnto (a : ReceivedAttestation) : List Batch → List Batch
  | [] => [⟨a.batchKey, [a]⟩]
  | batch :: rest =>
    if batch.key = a.batchKey then { batch with attestations := batch.attestations ++ [a] } :: rest
    else batch :: pushOnto a rest

/-- The batch that an entry of a map is. -/
def Batch.ofEntry (e : BatchKey × List ReceivedAttestation) : Batch := ⟨e.1, e.2⟩

section

variable {a : ReceivedAttestation} {entries : List (BatchKey × List ReceivedAttestation)}

theorem pushOnto_new (h : ∀ e ∈ entries, e.1 ≠ a.batchKey) :
    pushOnto a (entries.map Batch.ofEntry) =
      (entries ++ [(a.batchKey, [a])]).map Batch.ofEntry := by
  induction entries with
  | nil => rfl
  | cons first rest ih =>
    rw [List.forall_mem_cons] at h
    show (if first.1 = a.batchKey then _ else Batch.ofEntry first :: pushOnto a _) = _
    rw [if_neg h.1, ih h.2]
    rfl

theorem pushOnto_old {attestations : List ReceivedAttestation}
    (hNodup : (entries.map Prod.fst).Nodup) (h : (a.batchKey, attestations) ∈ entries) :
    pushOnto a (entries.map Batch.ofEntry) =
      (entries.map fun e => if e.1 = a.batchKey then (a.batchKey, attestations ++ [a]) else e).map
        Batch.ofEntry := by
  induction entries with
  | nil => cases h
  | cons first rest ih =>
    rw [List.map_cons, List.map_cons, List.map_cons, pushOnto]
    by_cases hKey : first.1 = a.batchKey
    · -- No entry behind the first one has its key, so these stay as they are.
      have hOther : ∀ e ∈ rest, e.1 ≠ a.batchKey := by
        rw [← hKey]
        exact key_ne_of_nodup hNodup
      have hFirst : (a.batchKey, attestations) = first := by
        rcases List.mem_cons.mp h with hHere | hThere
        · exact hHere
        · exact absurd rfl (hOther _ hThere)
      have hRest : (rest.map fun e =>
          if e.1 = a.batchKey then (a.batchKey, attestations ++ [a]) else e) = rest := by
        refine (List.map_congr_left fun e he => ?_).trans (List.map_id rest)
        exact if_neg (hOther e he)
      subst hFirst
      rw [hRest, if_pos rfl]
      exact if_pos rfl
    · have hRest : (a.batchKey, attestations) ∈ rest := by
        rcases List.mem_cons.mp h with hHere | hThere
        · exact absurd (congrArg Prod.fst hHere).symm hKey
        · exact hThere
      rw [if_neg hKey, ← ih (List.nodup_cons.mp hNodup).2 hRest]
      exact if_neg hKey

end

namespace BatchQueue

open LinkedMap (entries Lawful)

variable {M : Type} [LinkedMap M BatchKey (List ReceivedAttestation)]

/-- The attestations in all batches. -/
def attestations (p : BatchQueue M) : List ReceivedAttestation :=
  p.all.flatMap (·.attestations)

variable [Lawful M] {p p' : BatchQueue M} {a : ReceivedAttestation} {batch : Batch}

theorem all_empty : ({} : BatchQueue M).all = [] := by
  rw [all, Lawful.entries_empty, List.map_nil]

/-- **An attestation that is pushed** goes to the end of its batch, wherever this is. -/
theorem all_push (p : BatchQueue M) (a : ReceivedAttestation) :
    (p.push a).all = pushOnto a p.all := by
  unfold push
  -- The batch is changed where it is if there is one, and a new one is inserted if not.
  split
  · rename_i place hPlace
    show (entries (place.put (place.value ++ [a]))).map Batch.ofEntry = _
    rw [Lawful.entries_put hPlace]
    exact (pushOnto_old (Lawful.nodup_keys p.map) (Lawful.getMut?_eq_some hPlace)).symm
  · rename_i hNone
    have hNew := Lawful.getMut?_eq_none hNone
    show (entries (LinkedMap.insert p.map a.batchKey [a])).map Batch.ofEntry = _
    rw [Lawful.entries_insert_new hNew]
    exact (pushOnto_new hNew).symm

theorem all_eq_cons (h : p.take? = some (batch, p')) : p.all = batch :: p'.all := by
  unfold take? at h
  split at h
  · cases h
  · rename_i hPop
    cases h
    rw [all, Lawful.popFront?_eq_some hPop]
    rfl

theorem all_eq_nil (h : p.take? = none) : p.all = [] := by
  unfold take? at h
  split at h
  · rename_i hPop
    rw [all, Lawful.popFront?_eq_none hPop, List.map_nil]
  · cases h

theorem take?_eq_none (h : p.all = []) : p.take? = none := by
  cases hTake : p.take? with
  | none => rfl
  | some taken =>
    rw [all_eq_cons hTake] at h
    cases h

theorem size_eq (p : BatchQueue M) : p.size = p.all.length := by
  rw [size, Lawful.size_eq, all, List.length_map]

omit [Lawful M] in
theorem attestationCount_eq (p : BatchQueue M) : p.attestationCount = p.attestations.length := by
  rw [attestationCount, Table.foldl_count, Nat.zero_add, attestations, all, List.flatMap_map]

/-! ## What there is -/

theorem pushOnto_perm (a : ReceivedAttestation) (batches : List Batch) :
    ((pushOnto a batches).flatMap (·.attestations)).Perm
      (a :: batches.flatMap (·.attestations)) := by
  induction batches with
  | nil => exact .refl _
  | cons batch rest ih =>
    unfold pushOnto
    split
    · rw [List.flatMap_cons, List.flatMap_cons]
      exact (List.perm_append_singleton a _).append_right _
    · rw [List.flatMap_cons, List.flatMap_cons]
      exact (ih.append_left _).trans List.perm_middle

theorem push_perm (p : BatchQueue M) (a : ReceivedAttestation) :
    (p.push a).attestations.Perm (a :: p.attestations) := by
  rw [attestations, all_push]
  exact pushOnto_perm a p.all

/-- A batch is one of the attestation, or its key has been there before. -/
theorem mem_push (h : batch ∈ (p.push a).all) :
    batch.key = a.batchKey ∨ ∃ old ∈ p.all, old.key = batch.key := by
  rw [all_push] at h
  -- From here on the map does not matter, and the induction is on the list of its batches.
  generalize p.all = batches at h ⊢
  induction batches with
  | nil =>
    rw [List.mem_singleton.mp h]
    exact Or.inl rfl
  | cons first rest ih =>
    unfold pushOnto at h
    split at h
    · rcases List.mem_cons.mp h with rfl | hRest
      · exact Or.inr ⟨first, List.mem_cons_self, rfl⟩
      · exact Or.inr ⟨batch, List.mem_cons_of_mem _ hRest, rfl⟩
    · rcases List.mem_cons.mp h with rfl | hRest
      · exact Or.inr ⟨batch, List.mem_cons_self, rfl⟩
      · exact (ih hRest).imp_right fun ⟨old, hOld, hKey⟩ =>
          ⟨old, List.mem_cons_of_mem _ hOld, hKey⟩

theorem pushAll_perm (p : BatchQueue M) (attestations : List ReceivedAttestation) :
    (attestations.foldl push p).attestations.Perm (attestations ++ p.attestations) := by
  induction attestations generalizing p with
  | nil => exact .refl _
  | cons a rest ih => exact (ih _).trans (((push_perm p a).append_left rest).trans List.perm_middle)

theorem mem_pushAll {attestations : List ReceivedAttestation}
    (h : batch ∈ (attestations.foldl push p).all) :
    (∃ a ∈ attestations, batch.key = a.batchKey) ∨ ∃ old ∈ p.all, old.key = batch.key := by
  induction attestations generalizing p with
  | nil => exact Or.inr ⟨batch, h, rfl⟩
  | cons a rest ih =>
    rcases ih h with ⟨a', ha', hKey⟩ | ⟨middle, hMiddle, hKey⟩
    · exact Or.inl ⟨a', List.mem_cons_of_mem _ ha', hKey⟩
    · rcases mem_push hMiddle with hNew | ⟨old, hOld, hOldKey⟩
      · exact Or.inl ⟨a, List.mem_cons_self, hKey.symm.trans hNew⟩
      · exact Or.inr ⟨old, hOld, hOldKey.trans hKey⟩

end BatchQueue

end ForkChoice
