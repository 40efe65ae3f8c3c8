import Mathlib.Data.List.Induction
import ForkChoice.Proofs.Pipeline.Backlog

/-!
# ForkChoice — the window in the course of time

Items come, the time is up, and at last no more items will come, in any order and at any times. Who
goes on does so with all that have come before, so what is left in a window are always the last
ones. The window is emptied as soon as it is full; hence it never has room for none, and a batch
that goes on because the time is up is never greater than one that is full.

The deadline belongs to the first of the items in the window. As it is set when this one comes and
cleared when it goes on, there is one if and only if there are items.

* `Event`, `run` — all that happens while items come, `allBatches` — the batches until the end;
* `Holds`, `Move` — what a window holds, and all that an event can do, `holds_step` — one event;
* `Collected`, `collected_run` — any events, `Collected.allBatches_eq` — and the end;
* `DeadlinePasses`, `KeepsItems`, `keepsItems` — what becomes of items.
-/

namespace ForkChoice.Window

variable {α : Type}

/-- What happens to a window. -/
inductive Event (α : Type) where
  /-- An item comes at the time `now`. -/
  | item (now : Nat) (x : α)
  /-- The time is up, if there is a deadline. -/
  | deadline

/-- The item that comes, with its time. -/
def Event.arrival? : Event α → Option (Nat × α)
  | .item now x => some (now, x)
  | .deadline => none

/-- What an event does: the batch that goes on, if any, and the window that it leaves. -/
def step (limits : WindowLimits) (w : Window α) : Event α → Option (List α) × Window α
  | .item now x => w.receive limits now x
  | .deadline => w.expire

/-- The batches that have gone on after some events, and what is in the window. -/
def run (limits : WindowLimits) (events : List (Event α)) : List (List α) × Window α :=
  events.foldl
    (fun s e => (s.1 ++ (s.2.step limits e).1.toList, (s.2.step limits e).2)) ([], {})

/-- The batches that have gone on when no more items will come. -/
def allBatches (limits : WindowLimits) (events : List (Event α)) : List (List α) :=
  (run limits events).1 ++ (run limits events).2.close.1.toList

/-- All items that come, in order and with their times. -/
def arrivals (events : List (Event α)) : List (Nat × α) := events.filterMap Event.arrival?

/-- All items that come, in order. -/
def items (events : List (Event α)) : List α := (arrivals events).map Prod.snd

variable {limits : WindowLimits} {w : Window α} {waiting rest : List (Nat × α)}
  {gone : List (List (Nat × α))} {batch : Option (List (Nat × α))} {e : Event α}
  {events : List (Event α)}

theorem run_concat (events : List (Event α)) (e : Event α) : run limits (events ++ [e]) =
    ((run limits events).1 ++ ((run limits events).2.step limits e).1.toList,
      ((run limits events).2.step limits e).2) := by
  rw [run, List.foldl_append]
  rfl

theorem arrivals_concat (events : List (Event α)) (e : Event α) :
    arrivals (events ++ [e]) = arrivals events ++ e.arrival?.toList := by
  rw [arrivals, List.filterMap_append]
  cases e <;> rfl

/-! ## One event -/

/-- A window holds items that have come at certain times, and has room for one more. The first of
them sets the deadline. -/
structure Holds (limits : WindowLimits) (waiting : List (Nat × α)) (w : Window α) : Prop where
  buffer_eq : w.buffer = waiting.map Prod.snd
  deadline_eq : w.deadline = waiting.head?.map fun p => p.1 + limits.maxDelay
  room : waiting.length < limits.fullSize

/-- All that an event can do to the items in a window: those that go on, and those that are left. -/
inductive Move (limits : WindowLimits) (waiting : List (Nat × α)) :
    Event α → Option (List (Nat × α)) → List (Nat × α) → Prop
  | joins {now : Nat} {x : α} (hRoom : waiting.length + 1 < limits.fullSize) :
    Move limits waiting (.item now x) none (waiting ++ [(now, x)])
  | fills {now : Nat} {x : α} (hFull : waiting.length + 1 = limits.fullSize) :
    Move limits waiting (.item now x) (some (waiting ++ [(now, x)])) []
  | idle (hNone : waiting = []) : Move limits waiting .deadline none []
  | late (hSome : waiting ≠ []) : Move limits waiting .deadline (some waiting) []

theorem holds_empty (limits : WindowLimits) : Holds limits [] ({} : Window α) :=
  ⟨rfl, rfl, Nat.le_max_left 1 limits.maxSize⟩

theorem Holds.isSome_deadline (h : Holds limits waiting w) :
    w.deadline.isSome = true ↔ waiting ≠ [] := by
  rw [h.deadline_eq, Option.isSome_map, List.isSome_head?]

theorem Holds.receive (h : Holds limits waiting w) (now : Nat) (x : α) :
    ∃ batch rest, Move limits waiting (.item now x) batch rest ∧
      (w.receive limits now x).1 = batch.map (List.map Prod.snd) ∧
        Holds limits rest (w.receive limits now x).2 := by
  have hItems : w.buffer ++ [x] = (waiting ++ [(now, x)]).map Prod.snd := by
    rw [h.buffer_eq, List.map_append]
    rfl
  have hRoom := h.room
  unfold WindowLimits.fullSize at hRoom
  by_cases hFull : limits.maxSize ≤ w.buffer.length + 1
  · rw [receive_of_full limits now w x hFull, hItems]
    rw [h.buffer_eq, List.length_map] at hFull
    exact ⟨_, _, .fills (by unfold WindowLimits.fullSize; omega), rfl, holds_empty limits⟩
  · have hShort : waiting.length + 1 < limits.fullSize := by
      rw [h.buffer_eq, List.length_map] at hFull
      unfold WindowLimits.fullSize
      omega
    have hReceive : w.receive limits now x = (none, ⟨w.buffer ++ [x],
        if w.buffer.isEmpty then some (now + limits.maxDelay) else w.deadline⟩) := by
      unfold Window.receive
      dsimp only
      rw [if_neg (by rwa [List.length_append, List.length_singleton])]
    refine ⟨_, _, .joins hShort, by rw [hReceive]; rfl, ?_⟩
    rw [hReceive]
    refine ⟨hItems, ?_, by rwa [List.length_append, List.length_singleton]⟩
    -- Only the first item sets the deadline.
    rw [h.buffer_eq, h.deadline_eq]
    cases waiting <;> rfl

theorem Holds.expire (h : Holds limits waiting w) :
    ∃ batch rest, Move limits waiting .deadline batch rest ∧
      w.expire.1 = batch.map (List.map Prod.snd) ∧ Holds limits rest w.expire.2 := by
  cases hDeadline : w.deadline with
  | none =>
    have hNone : waiting = [] := by
      by_contra hSome
      have hSet := h.isSome_deadline.mpr hSome
      rw [hDeadline] at hSet
      cases hSet
    rw [Window.expire, hDeadline]
    exact ⟨_, _, .idle hNone, rfl, hNone ▸ h⟩
  | some time =>
    rw [Window.expire, hDeadline]
    exact ⟨_, _, .late (h.isSome_deadline.mp (by rw [hDeadline]; rfl)),
      congrArg some h.buffer_eq, holds_empty limits⟩

/-- **One event** makes one of the moves. -/
theorem holds_step (h : Holds limits waiting w) (e : Event α) :
    ∃ batch rest, Move limits waiting e batch rest ∧
      (w.step limits e).1 = batch.map (List.map Prod.snd) ∧
        Holds limits rest (w.step limits e).2 := by
  cases e with
  | item now x => exact h.receive now x
  | deadline => exact h.expire

/-- Those that go on come first, and nothing is lost. -/
theorem Move.append_eq (h : Move limits waiting e batch rest) :
    batch.getD [] ++ rest = waiting ++ e.arrival?.toList := by
  cases h with
  | joins hRoom => rfl
  | fills hFull => exact List.append_nil _
  | idle hNone => rw [hNone]; rfl
  | late hSome => rfl

/-- Batches are neither empty nor too great, -/
theorem Move.size {first : List (Nat × α)} (h : Move limits waiting e (some first) rest)
    (hRoom : waiting.length < limits.fullSize) :
    first ≠ [] ∧ first.length ≤ limits.fullSize := by
  cases h with
  | fills hFull =>
    refine ⟨List.append_ne_nil_of_right_ne_nil _ (List.cons_ne_nil _ _), Nat.le_of_eq ?_⟩
    rwa [List.length_append, List.length_singleton]
  | late hSome => exact ⟨hSome, Nat.le_of_lt hRoom⟩

/-- and full unless the time is up. -/
theorem Move.full {first : List (Nat × α)} (h : Move limits waiting e (some first) rest) :
    first.length = limits.fullSize ∨ (e = .deadline ∧ waiting ≠ []) := by
  cases h with
  | fills hFull =>
    rw [List.length_append, List.length_singleton]
    exact Or.inl hFull
  | late hSome => exact Or.inr ⟨rfl, hSome⟩

/-! ## Any events -/

/-- The time is up for items that wait, at least once. -/
def DeadlinePasses (limits : WindowLimits) (events : List (Event α)) : Prop :=
  ∃ front rest, events = front ++ .deadline :: rest ∧
    (run limits front).2.deadline.isSome = true

theorem DeadlinePasses.concat (h : DeadlinePasses limits events) (e : Event α) :
    DeadlinePasses limits (events ++ [e]) := by
  obtain ⟨front, rest, rfl, hSome⟩ := h
  exact ⟨front, rest ++ [e], by rw [List.append_assoc, List.cons_append], hSome⟩

/-- The items that have come, as the batches `gone` that have gone on and those that wait. -/
structure Collected (limits : WindowLimits) (events : List (Event α))
    (gone : List (List (Nat × α))) (waiting : List (Nat × α)) : Prop where
  arrivals_eq : arrivals events = gone.flatten ++ waiting
  batches_eq : (run limits events).1 = gone.map (List.map Prod.snd)
  holds : Holds limits waiting (run limits events).2
  sizes : ∀ batch ∈ gone, batch ≠ [] ∧ batch.length ≤ limits.fullSize
  full : ¬ DeadlinePasses limits events → ∀ batch ∈ gone, batch.length = limits.fullSize

theorem Collected.concat (h : Collected limits events gone waiting) (e : Event α) :
    ∃ gone rest, Collected limits (events ++ [e]) gone rest := by
  obtain ⟨batch, rest, hMove, hBatch, hHolds⟩ := holds_step h.holds e
  refine ⟨gone ++ batch.toList, rest, ?_, ?_, by rwa [run_concat], ?_, ?_⟩
  · have hFlatten : batch.toList.flatten = batch.getD [] := by
      cases batch <;> simp
    rw [arrivals_concat, h.arrivals_eq, List.flatten_append, hFlatten, List.append_assoc,
      List.append_assoc, hMove.append_eq]
  · rw [run_concat, h.batches_eq, hBatch, List.map_append]
    cases batch <;> rfl
  · intro first hMem
    rcases List.mem_append.mp hMem with hOld | hNew
    · exact h.sizes first hOld
    · rw [Option.mem_toList] at hNew
      cases hNew
      exact hMove.size h.holds.room
  · intro hNever first hMem
    rcases List.mem_append.mp hMem with hOld | hNew
    · exact h.full (fun hPasses => hNever (hPasses.concat e)) first hOld
    · rw [Option.mem_toList] at hNew
      cases hNew
      rcases hMove.full with hFull | ⟨rfl, hSome⟩
      · exact hFull
      · exact absurd ⟨events, [], rfl, h.holds.isSome_deadline.mpr hSome⟩ hNever

/-- **Any events** leave the items that have come last. -/
theorem collected_run (limits : WindowLimits) (events : List (Event α)) :
    ∃ gone waiting, Collected limits events gone waiting := by
  induction events using List.reverseRecOn with
  | nil =>
    refine ⟨[], [], rfl, rfl, holds_empty limits, ?_, fun _ => ?_⟩ <;>
      exact fun _ hMem => absurd hMem List.not_mem_nil
  | append_singleton events e ih =>
    obtain ⟨gone, waiting, h⟩ := ih
    exact h.concat e

/-! ## The end -/

theorem Holds.close (h : Holds limits waiting w) :
    w.close = (if waiting = [] then none else some (waiting.map Prod.snd), {}) := by
  obtain ⟨buffer, deadline⟩ := w
  obtain ⟨rfl, rfl, -⟩ := h
  cases waiting <;> rfl

/-- The batch that goes on at the end, if items wait. -/
def remainder (waiting : List (Nat × α)) : List (List (Nat × α)) :=
  if waiting = [] then [] else [waiting]

theorem flatten_remainder (waiting : List (Nat × α)) : (remainder waiting).flatten = waiting := by
  unfold remainder
  split
  · rename_i hNone
    rw [hNone, List.flatten_nil]
  · exact List.flatten_singleton

theorem Collected.allBatches_eq (h : Collected limits events gone waiting) :
    allBatches limits events = (gone ++ remainder waiting).map (List.map Prod.snd) := by
  rw [allBatches, h.batches_eq, h.holds.close, List.map_append, remainder]
  split <;> rfl

theorem Collected.flatten_batches (h : Collected limits events gone waiting) :
    (run limits events).1.flatten = gone.flatten.map Prod.snd := by
  rw [h.batches_eq, List.map_flatten]

/-- The last batch is no exception. -/
theorem Collected.sizes_atEnd (h : Collected limits events gone waiting) :
    ∀ batch ∈ gone ++ remainder waiting, batch ≠ [] ∧ batch.length ≤ limits.fullSize := by
  intro batch hMem
  rcases List.mem_append.mp hMem with hOld | hNew
  · exact h.sizes batch hOld
  · unfold remainder at hNew
    split at hNew
    · exact absurd hNew List.not_mem_nil
    · rename_i hSome
      rw [List.mem_singleton.mp hNew]
      exact ⟨hSome, Nat.le_of_lt h.holds.room⟩

/-- What goes on at the end is the last batch. -/
theorem mem_of_mem_dropLast {batch : List (Nat × α)}
    (h : batch ∈ (gone ++ remainder waiting).dropLast) : batch ∈ gone := by
  unfold remainder at h
  split at h
  · rw [List.append_nil] at h
    exact List.dropLast_subset gone h
  · rwa [List.dropLast_concat] at h

/-- What becomes of items, at whatever times they come and deadlines pass: `events` is all that
happens up to a point at which more may happen, or no more items will come. -/
structure KeepsItems (limits : WindowLimits) (events : List (Event α)) : Prop where
  /-- Nothing is lost, and nothing overtakes, while items come -/
  soFar : (run limits events).1.flatten ++ (run limits events).2.buffer = items events
  /-- and in the end. -/
  atEnd : (allBatches limits events).flatten = items events
  nothingLeft : (run limits events).2.close.2 = {}
  nonempty : ∀ batch ∈ allBatches limits events, batch ≠ []
  bounded : ∀ batch ∈ allBatches limits events, batch.length ≤ max 1 limits.maxSize
  /-- There is a deadline exactly as long as there are items, -/
  armed : (run limits events).2.deadline.isSome = true ↔ (run limits events).2.buffer ≠ []
  /-- and it is that of the first of them. -/
  due : (run limits events).2.deadline =
    ((arrivals events).drop (run limits events).1.flatten.length).head?.map fun p =>
      p.1 + limits.maxDelay
  /-- If no deadline passes, only the last batch may have less items than the others. -/
  full : ¬ DeadlinePasses limits events →
    ∀ batch ∈ (allBatches limits events).dropLast, batch.length = max 1 limits.maxSize

/-- **The window** loses nothing and keeps the order, whatever its limits are. -/
theorem keepsItems (limits : WindowLimits) (events : List (Event α)) :
    KeepsItems limits events := by
  obtain ⟨gone, waiting, h⟩ := collected_run limits events
  have hGone := h.flatten_batches
  have hAll := h.allBatches_eq
  exact {
    soFar := by rw [hGone, h.holds.buffer_eq, items, h.arrivals_eq, List.map_append]
    atEnd := by
      rw [hAll, ← List.map_flatten, List.flatten_append, flatten_remainder, items, h.arrivals_eq]
    nothingLeft := by rw [h.holds.close]
    nonempty := by
      rw [hAll, List.forall_mem_map]
      intro batch hMem hNil
      exact (h.sizes_atEnd batch hMem).1 (List.map_eq_nil_iff.mp hNil)
    bounded := by
      rw [hAll, List.forall_mem_map]
      intro batch hMem
      rw [List.length_map]
      exact (h.sizes_atEnd batch hMem).2
    armed := by rw [h.holds.isSome_deadline, h.holds.buffer_eq, ne_eq, ne_eq, List.map_eq_nil_iff]
    due := by rw [hGone, List.length_map, h.arrivals_eq, List.drop_left, h.holds.deadline_eq]
    full := by
      intro hNever
      rw [hAll, ← List.map_dropLast, List.forall_mem_map]
      intro batch hMem
      rw [List.length_map]
      exact h.full hNever batch (mem_of_mem_dropLast hMem) }

/-- The first item goes on when its time is up, the next two are enough for a batch, and the last
one goes on when no more will come. -/
example : allBatches ⟨2, 10⟩ [.item 0 'a', .deadline, .item 12 'b', .item 13 'c', .item 14 'd'] =
    [['a'], ['b', 'c'], ['d']] := by
  decide

end ForkChoice.Window
