import ForkChoice.Proofs.Ledger
import ForkChoice.Proofs.Pipeline.Passing

/-!
# ForkChoice — the pool in the course of time

A pool begins empty, and attestations are added, released and pruned in any order. They are told
apart by the numbers of the operations that have added them, so that equal attestations are not
taken for each other: the pool is a queue with a ledger of who has come and who has left.

The order of age is what makes the first attestation the one to leave when there is no room. It is
kept because those who leave are left out of a list that grows at its end only, wherever in the
list they have been.

* `Operation`, `after`, `given` — any operations, the pool after them, and what each of them gives
  back;
* `ledger` — who leaves at an operation;
* `follows_step` — one operation does what the ledger says, `follows_after` — so do all;
* `BoundedQueue`, `boundedQueue` — what becomes of attestations in a pool.
-/

namespace ForkChoice.UnknownBlockPool

/-- What is done with a pool. -/
inductive Operation where
  | insert (a : ReceivedAttestation)
  | takeForBlock (root : Root)
  | prune (epoch : Epoch)

/-- The attestation that an operation adds. -/
def Operation.brings : Operation → Option ReceivedAttestation
  | .insert a => some a
  | .takeForBlock _ => none
  | .prune _ => none

/-- Carries out an operation: what it gives back, and the pool that it leaves. -/
def apply (pool : UnknownBlockPool) : Operation → List ReceivedAttestation × UnknownBlockPool
  | .insert a => ((pool.insert a).1.toList, (pool.insert a).2)
  | .takeForBlock root => pool.takeForBlock root
  | .prune epoch => pool.prune epoch

/-- A new pool after so many operations of a sequence. Every finite sequence is the beginning of an
endless one. -/
def after (capacity : Nat) (ops : Nat → Operation) : Nat → UnknownBlockPool
  | 0 => { capacity := capacity }
  | n + 1 => ((after capacity ops n).apply (ops n)).2

/-- What an operation of a sequence gives back. -/
def given (capacity : Nat) (ops : Nat → Operation) (n : Nat) : List ReceivedAttestation :=
  ((after capacity ops n).apply (ops n)).1

/-- The ledger of a pool. A new attestation leaves a pool without room at once; it makes the first
one leave a pool that is full. -/
def ledger (capacity : Nat) (ops : Nat → Operation) : Ledger ReceivedAttestation where
  enters n := (ops n).brings
  leaves n members m :=
    match ops n with
    | .insert _ =>
      if capacity = 0 then m.1 = n
      else capacity ≤ members.length && members.head?.map Prod.fst = some m.1
    | .takeForBlock root => m.2.data.blockRoot = root
    | .prune epoch => m.2.data.target.epoch < epoch

variable {capacity n : Nat} {ops : Nat → Operation} {a : ReceivedAttestation} {root : Root}
  {epoch : Epoch}

/-! ## One operation -/

theorem ledger_enters (h : ops n = .insert a) : (ledger capacity ops).entering n = [(n, a)] :=
  Ledger.entering_of_enters (congrArg Operation.brings h)

theorem ledger_leaves (h : ops n = .insert a) (members : List (Nat × ReceivedAttestation))
    (m : Nat × ReceivedAttestation) : (ledger capacity ops).leaves n members m =
      if capacity = 0 then decide (m.1 = n)
      else capacity ≤ members.length && members.head?.map Prod.fst = some m.1 := by
  simp only [ledger, h]

/-- A pool without room gives every attestation back. -/
theorem ledger_noRoom (h : ops n = .insert a) (hCapacity : capacity = 0) :
    (ledger capacity ops).leaving n = [(n, a)] ∧
      (ledger capacity ops).before (n + 1) = (ledger capacity ops).before n := by
  have hRule : ∀ members m, (ledger capacity ops).leaves n members m = decide (m.1 = n) := by
    intro members m
    rw [ledger_leaves h, if_pos hCapacity]
  -- Only the new attestation has the number of this operation.
  have hOld : ∀ m ∈ (ledger capacity ops).before n, m.1 ≠ n := fun m hm =>
    Nat.ne_of_lt (Ledger.came_of_mem_before hm).1
  constructor
  · rw [Ledger.leaving, ledger_enters h, List.filter_append, List.filter_eq_nil_iff.mpr]
    · simp [hRule]
    · intro m hm
      simpa [hRule] using hOld m hm
  · rw [Ledger.before_succ, ledger_enters h, List.filter_append, List.filter_eq_self.mpr]
    · simp [hRule]
    · intro m hm
      simpa [hRule] using hOld m hm

/-- Where there is room, an attestation is added and none leaves. -/
theorem ledger_room (h : ops n = .insert a) (hCapacity : capacity ≠ 0)
    (hRoom : ((ledger capacity ops).before n).length < capacity) :
    (ledger capacity ops).leaving n = [] ∧
      (ledger capacity ops).before (n + 1) = (ledger capacity ops).before n ++ [(n, a)] := by
  have hRule : ∀ m, (ledger capacity ops).leaves n ((ledger capacity ops).before n) m = false := by
    intro m
    rw [ledger_leaves h, if_neg hCapacity, decide_eq_false (Nat.not_le.mpr hRoom), Bool.false_and]
  constructor
  · rw [Ledger.leaving, List.filter_eq_nil_iff]
    simp [hRule]
  · rw [Ledger.before_succ, ledger_enters h, List.filter_eq_self]
    simp [hRule]

/-- Where there is none, the first one leaves. -/
theorem ledger_full (h : ops n = .insert a) (hCapacity : capacity ≠ 0)
    (hFull : capacity ≤ ((ledger capacity ops).before n).length) :
    ∃ first rest, (ledger capacity ops).before n = first :: rest ∧
      (ledger capacity ops).leaving n = [first] ∧
        (ledger capacity ops).before (n + 1) = rest ++ [(n, a)] := by
  obtain ⟨first, rest, hMembers⟩ :=
    List.exists_cons_of_length_pos (Nat.lt_of_lt_of_le (Nat.pos_of_ne_zero hCapacity) hFull)
  have hRule : ∀ m, (ledger capacity ops).leaves n ((ledger capacity ops).before n) m =
      decide (first.1 = m.1) := by
    intro m
    rw [ledger_leaves h, if_neg hCapacity, decide_eq_true hFull, Bool.true_and, hMembers]
    simp
  -- All others have come later, and so have other numbers.
  have hLater : ∀ m ∈ rest ++ [(n, a)], first.1 ≠ m.1 := by
    have hOrder := (ledger capacity ops).pairwise_present n
    rw [hMembers, ledger_enters h, List.cons_append, List.pairwise_cons] at hOrder
    exact fun m hm => Nat.ne_of_lt (hOrder.1 m hm)
  refine ⟨first, rest, hMembers, ?_, ?_⟩
  · rw [Ledger.leaving, funext hRule, hMembers, ledger_enters h, List.cons_append,
      List.filter_cons_of_pos (by simp), List.filter_eq_nil_iff.mpr]
    intro m hm
    simpa using hLater m hm
  · rw [Ledger.before_succ, funext fun m => congrArg not (hRule m), hMembers, ledger_enters h,
      List.cons_append, List.filter_cons_of_neg (by simp), List.filter_eq_self.mpr]
    intro m hm
    simpa using hLater m hm

/-- Those leave who satisfy the condition of an operation that adds none. -/
theorem ledger_where (condition : ReceivedAttestation → Bool) (hBrings : (ops n).brings = none)
    (hRule : ∀ members m, (ledger capacity ops).leaves n members m = condition m.2) :
    (ledger capacity ops).leaving n =
        ((ledger capacity ops).before n).filter (fun m => condition m.2) ∧
      (ledger capacity ops).before (n + 1) =
        ((ledger capacity ops).before n).filter fun m => !condition m.2 := by
  rw [Ledger.leaving, Ledger.before_succ, Ledger.entering_of_none hBrings, List.append_nil,
    funext (hRule _)]
  exact ⟨rfl, rfl⟩

theorem ledger_takeForBlock (h : ops n = .takeForBlock root) :
    (ledger capacity ops).leaving n =
        ((ledger capacity ops).before n).filter (fun m => m.2.data.blockRoot = root) ∧
      (ledger capacity ops).before (n + 1) =
        ((ledger capacity ops).before n).filter fun m => !decide (m.2.data.blockRoot = root) :=
  ledger_where (fun a => a.data.blockRoot = root) (congrArg Operation.brings h)
    fun _ _ => by simp only [ledger, h]

theorem ledger_prune (h : ops n = .prune epoch) :
    (ledger capacity ops).leaving n =
        ((ledger capacity ops).before n).filter (fun m => m.2.data.target.epoch < epoch) ∧
      (ledger capacity ops).before (n + 1) =
        ((ledger capacity ops).before n).filter fun m => !decide (m.2.data.target.epoch < epoch) :=
  ledger_where (fun a => a.data.target.epoch < epoch) (congrArg Operation.brings h)
    fun _ _ => by simp only [ledger, h]

/-! ## Any operations -/

/-- What the ledger says of a pool. -/
structure Shows (capacity : Nat) (members : List (Nat × ReceivedAttestation))
    (pool : UnknownBlockPool) : Prop where
  capacity_eq : pool.capacity = capacity
  attestations_eq : pool.attestations = members.map Prod.snd
  bounded : members.length ≤ capacity

/-- Taking attestations shows in the ledger as leaving members out. -/
theorem Shows.takeWhere {members : List (Nat × ReceivedAttestation)} {pool : UnknownBlockPool}
    (h : Shows capacity members pool) (condition : ReceivedAttestation → Bool) :
    (pool.takeWhere condition).1 = (members.filter fun m => condition m.2).map Prod.snd ∧
      Shows capacity (members.filter fun m => !condition m.2) (pool.takeWhere condition).2 := by
  rw [takeWhere_eq, h.attestations_eq, List.filter_map, List.filter_map]
  exact ⟨rfl, h.capacity_eq, rfl, Nat.le_trans (List.length_filter_le _ _) h.bounded⟩

/-- **One operation** gives back what leaves by the ledger, and keeps the rest. -/
theorem follows_step {pool : UnknownBlockPool}
    (h : Shows capacity ((ledger capacity ops).before n) pool) :
    (pool.apply (ops n)).1 = ((ledger capacity ops).leaving n).map Prod.snd ∧
      Shows capacity ((ledger capacity ops).before (n + 1)) (pool.apply (ops n)).2 := by
  have hSize : pool.attestations.length = ((ledger capacity ops).before n).length := by
    rw [h.attestations_eq, List.length_map]
  cases hOp : ops n with
  | insert a =>
    simp only [apply, insert, h.capacity_eq]
    by_cases hCapacity : capacity = 0
    · obtain ⟨hLeaving, hBefore⟩ := ledger_noRoom hOp hCapacity
      rw [if_pos hCapacity, hLeaving, hBefore]
      exact ⟨rfl, h⟩
    · rw [if_neg hCapacity, hSize]
      split
      · rename_i hRoom
        obtain ⟨hLeaving, hBefore⟩ := ledger_room hOp hCapacity hRoom
        rw [hLeaving, hBefore]
        refine ⟨rfl, rfl, ?_, ?_⟩
        · rw [h.attestations_eq, List.map_append]
          rfl
        · rw [List.length_append]
          exact hRoom
      · rename_i hFull
        obtain ⟨first, rest, hMembers, hLeaving, hBefore⟩ :=
          ledger_full hOp hCapacity (Nat.not_lt.mp hFull)
        have hBounded := h.bounded
        rw [h.attestations_eq, hLeaving, hBefore, hMembers]
        rw [hMembers, List.length_cons] at hBounded
        refine ⟨rfl, rfl, ?_, ?_⟩
        · rw [List.map_append]
          rfl
        · rw [List.length_append]
          exact hBounded
  | takeForBlock root =>
    rw [(ledger_takeForBlock hOp).1, (ledger_takeForBlock hOp).2]
    exact h.takeWhere _
  | prune epoch =>
    rw [(ledger_prune hOp).1, (ledger_prune hOp).2]
    exact h.takeWhere _

/-- **Any operations** leave what the ledger says. -/
theorem follows_after (capacity : Nat) (ops : Nat → Operation) (n : Nat) :
    Shows capacity ((ledger capacity ops).before n) (after capacity ops n) := by
  induction n with
  | zero => exact ⟨rfl, rfl, Nat.zero_le capacity⟩
  | succ n ih => exact (follows_step ih).2

/-- **A bounded queue.** What becomes of the attestations in a new pool, each with the number of the
operation that has added it: `held` are those in the pool before an operation, `left` those that it
gives back. -/
structure BoundedQueue (capacity : Nat) (ops : Nat → Operation)
    (held left : Nat → List (Nat × ReceivedAttestation)) : Prop where
  after_eq : ∀ n, (after capacity ops n).attestations = (held n).map Prod.snd
  given_eq : ∀ n, given capacity ops n = (left n).map Prod.snd
  bounded : ∀ n, (after capacity ops n).size ≤ capacity
  heldInOrder : ∀ n, (held n).Pairwise fun m m' => m.1 < m'.1
  leftInOrder : ∀ n, (left n).Pairwise fun m m' => m.1 < m'.1
  /-- There are no others than those that have been added. -/
  added : ∀ n m, m ∈ held n ∨ m ∈ left n → m.1 ≤ n ∧ ops m.1 = .insert m.2
  /-- Each one leaves once, or is still there. -/
  once : ∀ i a, ops i = .insert a → ∀ n > i,
    ((i, a) ∈ held n ∧ ∀ k < n, (i, a) ∉ left k) ∨
      ((i, a) ∉ held n ∧ ∃! k, k < n ∧ (i, a) ∈ left k)
  /-- Nothing else lets an attestation leave. -/
  cause : ∀ n m, m ∈ left n → (∃ a, ops n = .insert a) ∨
    ops n = .takeForBlock m.2.data.blockRoot ∨
      ∃ epoch, ops n = .prune epoch ∧ m.2.data.target.epoch < epoch
  noRoom : capacity = 0 → ∀ n a, ops n = .insert a → left n = [(n, a)] ∧ held (n + 1) = held n
  room : ∀ n a, ops n = .insert a → (after capacity ops n).size < capacity →
    left n = [] ∧ held (n + 1) = held n ++ [(n, a)]
  /-- The one that leaves a full pool is the first one in the order of age. -/
  full : capacity ≠ 0 → ∀ n a, ops n = .insert a → (after capacity ops n).size = capacity →
    ∃ first rest, held n = first :: rest ∧ left n = [first] ∧ held (n + 1) = rest ++ [(n, a)]
  released : ∀ n root, ops n = .takeForBlock root →
    left n = (held n).filter (fun m => m.2.data.blockRoot = root) ∧
      held (n + 1) = (held n).filter fun m => !decide (m.2.data.blockRoot = root)
  pruned : ∀ n epoch, ops n = .prune epoch →
    left n = (held n).filter (fun m => m.2.data.target.epoch < epoch) ∧
      held (n + 1) = (held n).filter fun m => !decide (m.2.data.target.epoch < epoch)

theorem brings_eq_some {op : Operation} (h : op.brings = some a) : op = .insert a := by
  cases op with
  | insert b => rw [Option.some.inj h]
  | takeForBlock root => exact absurd h (by simp [Operation.brings])
  | prune epoch => exact absurd h (by simp [Operation.brings])

/-- **The pool** is a bounded queue, whatever its capacity is and whatever is done with it. -/
theorem boundedQueue (capacity : Nat) (ops : Nat → Operation) :
    BoundedQueue capacity ops (ledger capacity ops).before (ledger capacity ops).leaving := by
  have hShows := follows_after capacity ops
  have hSize : ∀ n, (after capacity ops n).size = ((ledger capacity ops).before n).length :=
    fun n => by rw [size, (hShows n).attestations_eq, List.length_map]
  exact {
    after_eq := fun n => (hShows n).attestations_eq
    given_eq := fun n => (follows_step (hShows n)).1
    bounded := fun n => by
      rw [hSize]
      exact (hShows n).bounded
    heldInOrder := (ledger capacity ops).pairwise_before
    leftInOrder := (ledger capacity ops).pairwise_leaving
    added := by
      rintro n m (hHeld | hLeft)
      · obtain ⟨hLess, hEnters⟩ := Ledger.came_of_mem_before hHeld
        exact ⟨Nat.le_of_lt hLess, brings_eq_some hEnters⟩
      · obtain ⟨hLe, hEnters⟩ := Ledger.came_of_mem_leaving hLeft
        exact ⟨hLe, brings_eq_some hEnters⟩
    once := fun i a hInsert n hn => Ledger.once (congrArg Operation.brings hInsert) hn
    cause := by
      intro n m hLeft
      cases hOp : ops n with
      | insert a => exact Or.inl ⟨a, rfl⟩
      | takeForBlock root =>
        rw [(ledger_takeForBlock hOp).1, List.mem_filter, decide_eq_true_eq] at hLeft
        exact Or.inr (Or.inl (congrArg Operation.takeForBlock hLeft.2.symm))
      | prune epoch =>
        rw [(ledger_prune hOp).1, List.mem_filter, decide_eq_true_eq] at hLeft
        exact Or.inr (Or.inr ⟨epoch, rfl, hLeft.2⟩)
    noRoom := fun hCapacity n a hOp => ledger_noRoom hOp hCapacity
    room := by
      intro n a hOp hRoom
      rw [hSize] at hRoom
      exact ledger_room hOp (Nat.ne_of_gt (Nat.zero_lt_of_lt hRoom)) hRoom
    full := by
      intro hCapacity n a hOp hFull
      rw [hSize] at hFull
      exact ledger_full hOp hCapacity (Nat.le_of_eq hFull.symm)
    released := fun n root hOp => ledger_takeForBlock hOp
    pruned := fun n epoch hOp => ledger_prune hOp }

end ForkChoice.UnknownBlockPool
