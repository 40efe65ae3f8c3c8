import ForkChoice.Devnet.EngineSession
import ForkChoice.Proofs.Clock
import ForkChoice.Proofs.Engine.Announcements
import ForkChoice.Proofs.Engine.Order

/-!
# ForkChoice — the clock of a store

A store shows a time, and the time moves by ticks only: whatever else is done, whether it succeeds
or fails, leaves the clock as it is, and a tick that comes too late does nothing. So the time of a
store is the greatest that it has been told of, and its slot is the slot of this time, as the clock
of the network tells it without the store. In an engine a tick is committed before anything else is
done because of it. It counts even if the engine fails over what it lets go on.

* `StoreView.ShowsTime` — a view shows a time on the clock of a store;
* `ShowsTime.change`, `ShowsTime.after` — one operation, and a history of drafts;
* `Mutator.sameClock_of_reaches` — tasks other than a tick leave the clock alone,
  `Engine.shows_handle` — a message, `Engine.shows_concat` — a run;
* `Engine.currentSlot_handle` — the start of a slot, as it is sent to an engine;
* `clock_agrees_with_store` — starts of slots, slots of times, and the slots of stores.
-/

namespace ForkChoice

/-- The view counts slots as the store does, and it shows a time. -/
structure StoreView.ShowsTime (s : Store) (time : UInt64) (v : StoreView) : Prop where
  time : v.time = time
  genesisTime : v.genesisTime = s.genesisTime
  config : v.config = s.config

/-- The time of a tick. -/
def Change.time? : Change → Option UInt64
  | .tick time => some time
  | _ => none

/-- The ticks of a draft that count, which they do if it is committed. -/
def Transaction.ticks (x : Transaction) : List UInt64 :=
  if x.commits then x.changes.filterMap Change.time? else []

open StoreView

section

variable [HashFunction] [SignatureScheme] {t : StateTransition} {s s' : Store} {d : Draft}
  {v v' : StoreView} {time : UInt64}

/-! ## Drafts -/

namespace StoreView.ShowsTime

omit [HashFunction] [SignatureScheme] in
theorem self (s : Store) : s.view.ShowsTime s s.time :=
  ⟨rfl, rfl, rfl⟩

omit [HashFunction] [SignatureScheme] in
theorem of_sameClock (h : v.ShowsTime s time) (hSame : SameClock v v') : v'.ShowsTime s time :=
  ⟨hSame.time.trans h.time, hSame.genesisTime.trans h.genesisTime, hSame.config.trans h.config⟩

omit [HashFunction] [SignatureScheme] in
theorem currentSlot (h : v.ShowsTime s time) :
    v.currentSlot = (Tick.atTime s.config time s.genesisTime).slot := by
  rw [Tick.currentSlot_eq, h.time, h.genesisTime, h.config]

omit [HashFunction] [SignatureScheme] in
theorem tick (h : d.view.ShowsTime s time) (next : UInt64) :
    (d.tick next).view.ShowsTime s (max time next) := by
  have hTree := d.tick_sameTree next
  refine ⟨?_, ?_, ?_⟩
  · rw [d.tick_time, h.time]
  · rw [hTree]
    exact h.genesisTime
  · rw [hTree]
    exact h.config

end StoreView.ShowsTime

omit [SignatureScheme] in
/-- An import leaves the clock alone, also if it fails after it has added the block. -/
theorem Draft.importBlock_sameClock (t : StateTransition) (d : Draft) (b : Block) :
    SameClock d.view (d.importBlock t b).2.view := by
  rcases d.importBlock_cases t b with ⟨hSame, -⟩ | ⟨root, parentState, state, -, -, hDraft, -⟩
  · rw [hSame]
    exact .refl _
  · rw [hDraft]
    have hChecked := ((d.countApplyBlock.insertBlock root b state).updateCheckpoints_rejustified
      state).view
    rw [Draft.insertBlock_view, Draft.countApplyBlock_view] at hChecked
    exact .of_imported hChecked

namespace StoreView.ShowsTime

/-- **One operation.** -/
theorem change (h : d.view.ShowsTime s time) (c : Change) :
    (d.change t c).view.ShowsTime s (c.time?.toList.foldl max time) := by
  cases c with
  | tick next => exact h.tick next
  | block b => exact h.of_sameClock (d.importBlock_sameClock t b)
  | attestation check a => exact h.of_sameClock (.of_sameChain (d.attest_sameChain t check a))
  | discardVotes => exact h.of_sameClock (.of_sameChain d.discardVotes_sameChain)

theorem changeAll (h : d.view.ShowsTime s time) (changes : List Change) :
    (d.changeAll t changes).view.ShowsTime s
      ((changes.filterMap Change.time?).foldl max time) := by
  induction changes using List.reverseRecOn with
  | nil => exact h
  | append_singleton changes c ih =>
    rw [Draft.changeAll_concat, List.filterMap_append, List.foldl_append]
    have hLast := ih.change (t := t) c
    cases hTime : c.time? <;> rw [hTime] at hLast <;> simpa [hTime] using hLast

theorem draft (h : s'.view.ShowsTime s time) (changes : List Change) :
    ((Draft.ofStore s').changeAll t changes).view.ShowsTime s
      ((changes.filterMap Change.time?).foldl max time) :=
  changeAll (by rwa [Draft.ofStore_view]) changes

theorem transact (h : s'.view.ShowsTime s time) (x : Transaction) :
    (s'.transact t x).view.ShowsTime s (x.ticks.foldl max time) := by
  unfold Store.transact Transaction.ticks
  split
  · exact (h.draft x.changes).of_sameClock (.of_sameChain (Draft.commit_sameChain _))
  · exact h

/-- **A history.** What has been given up has not been told. -/
theorem after (h : s'.view.ShowsTime s time) (history : List Transaction) :
    (s'.after t history).view.ShowsTime s ((history.flatMap Transaction.ticks).foldl max time) := by
  induction history using List.reverseRecOn with
  | nil => exact h
  | append_singleton history x ih =>
    rw [Store.after_concat, List.flatMap_append, List.foldl_append, List.flatMap_singleton]
    exact ih.transact x

end StoreView.ShowsTime

/-! ## Engines -/

/-- Whether a task is a tick. -/
def Task.isTick : Task → Bool
  | .tick _ => true
  | _ => false

/-- No task brings a tick. -/
theorem Task.isTick_of_next {e : Engine} {task next : Task} (h : next ∈ (task.perform t e).2) :
    next.isTick = false := by
  cases task with
  | tick time =>
    simp only [perform, List.mem_cons, List.not_mem_nil, or_false] at h
    rcases h with rfl | rfl | rfl | rfl <;> rfl
  | releaseBlocks slot
  | releaseFor root queue =>
    rw [List.mem_singleton.mp h]
    rfl
  | importBlocks queue =>
    cases queue with
    | nil => exact absurd h List.not_mem_nil
    | cons b queue =>
      rw [perform] at h
      split at h
      · simp only [List.mem_cons, List.not_mem_nil, or_false] at h
        rcases h with rfl | rfl | rfl <;> rfl
      · rw [List.mem_singleton.mp h]
        rfl
      · rw [List.mem_singleton.mp h]
        rfl
      · exact absurd h List.not_mem_nil
  | refreshHead
  | announceSlot
  | releaseUntilTick
  | afterImport
  | tellImported
  | burst
  | justified => exact absurd h List.not_mem_nil

/-- A task that is not a tick leaves the clock alone. -/
theorem Task.sameClock_perform (t : StateTransition) (e : Engine) {task : Task}
    (h : task.isTick = false) : SameClock e.store.view (task.perform t e).1.engine.store.view := by
  have hShown := Engine.shown_perform t e task
  generalize (task.perform t e).1 = run at hShown ⊢
  generalize (task.perform t e).2 = next at hShown
  cases hShown with
  | still hStill => exact .of_sameChain hStill.1
  | told => exact .refl _
  | imported hImport =>
    obtain ⟨_, _, -, -, hView⟩ := Draft.importBlock_imported hImport
    rw [Draft.ofStore_view] at hView
    exact (SameClock.of_imported hView).trans (.of_sameChain (Draft.commit_sameChain _))
  | ticked => cases h

namespace Mutator

variable {m m' : Mutator}

theorem sameClock_work (t : StateTransition) (h : ∀ task ∈ m.tasks, task.isTick = false) :
    SameClock m.view (m.work t).view ∧ ∀ task ∈ (m.work t).tasks, task.isTick = false := by
  obtain ⟨⟨e, _ | failure⟩, _ | ⟨task, rest⟩⟩ := m
  · exact ⟨.refl _, h⟩
  · rw [work_cons]
    rw [List.forall_mem_cons] at h
    refine ⟨task.sameClock_perform t e h.1, fun next hNext => ?_⟩
    rcases List.mem_append.mp hNext with hNext | hRest
    · exact Task.isTick_of_next hNext
    · exact h.2 next hRest
  · exact ⟨.refl _, h⟩
  · exact ⟨.refl _, h⟩

/-- Any number of tasks that are not ticks leave the clock alone. -/
theorem sameClock_of_reaches (hReaches : m.Reaches t m')
    (h : ∀ task ∈ m.tasks, task.isTick = false) : SameClock m.view m'.view := by
  obtain ⟨n, rfl⟩ := hReaches
  induction n generalizing m with
  | zero => exact .refl _
  | succ n ih =>
    obtain ⟨hFirst, hNext⟩ := sameClock_work t h
    rw [Function.iterate_succ_apply]
    exact hFirst.trans (ih hNext)

end Mutator

namespace Engine

variable {e : Engine} {deliveries : List Delivery}

/-- **A message** moves the clock if it is a tick, whether it is handled or the engine fails over
it. -/
theorem shows_handle (h : e.store.view.ShowsTime s time) (x : Delivery) :
    (e.handle t x).engine.store.view.ShowsTime s (x.time?.toList.foldl max time) := by
  obtain ⟨left, ⟨n, hWork⟩, hLeft⟩ := handled_by_tasks t e x []
  cases x with
  | tick next =>
    cases n with
    | zero =>
      -- At least the tick itself is done, since nothing is left unless the engine fails.
      have hTasks : [Task.tick next] = left := congrArg Mutator.tasks hWork
      have hOk : none = (e.handle t (.tick next)).failure := congrArg (fun m => m.run.failure) hWork
      exact absurd (hTasks.trans (hLeft hOk.symm)) (List.cons_ne_nil _ _)
    | succ n =>
      have hTicked : (Draft.ofStore e.store).view.ShowsTime s time := by rwa [Draft.ofStore_view]
      have hCommitted := (hTicked.tick next).of_sameClock (.of_sameChain (Draft.commit_sameChain _))
      rw [Function.iterate_succ_apply] at hWork
      refine hCommitted.of_sameClock (Mutator.sameClock_of_reaches ⟨n, hWork⟩ ?_)
      intro task hTask
      have hNext : task ∈ ((Task.tick next).perform t e).2 := hTask
      exact Task.isTick_of_next hNext
  | block
  | burst
  | justified =>
    exact h.of_sameClock
      (Mutator.sameClock_of_reaches ⟨n, hWork⟩ (by simp [Delivery.task, Task.isTick]))

omit [HashFunction] [SignatureScheme] in
theorem shows_start (s : Store) : (start s).engine.store.view.ShowsTime s s.time :=
  (ShowsTime.self s).of_sameClock (.of_sameChain (Still.refreshHead { store := s }).1)

theorem shows_of_run (hOk : (runFrom t s deliveries).failure = none) :
    (runFrom t s deliveries).engine.store.view.ShowsTime s (closingTime s deliveries) := by
  induction deliveries using List.reverseRecOn with
  | nil => exact shows_start s
  | append_singleton deliveries x ih =>
    rw [runFrom_concat] at hOk
    have hBefore := (Run.andThen_ok hOk).1
    rw [runFrom_concat, Run.andThen_of_ok hBefore, closingTime_concat]
    exact shows_handle (ih hBefore) x

/-- **A run** shows the greatest time of all ticks, also if the engine fails over the last
message. -/
theorem shows_concat (hOk : (runFrom t s deliveries).failure = none) (x : Delivery) :
    (runFrom t s (deliveries ++ [x])).engine.store.view.ShowsTime s
      (closingTime s (deliveries ++ [x])) := by
  rw [runFrom_concat, Run.andThen_of_ok hOk, closingTime_concat]
  exact shows_handle (shows_of_run hOk) x

/-- **The start of a slot.** Afterwards the slot is the present one, unless a later one was. -/
theorem currentSlot_handle (e : Engine) {slot : Slot}
    (h : Tick.unixSeconds ⟨slot⟩ e.store.config e.store.genesisTime = .ok time) :
    (e.handle t (.tick time)).engine.store.view.currentSlot =
      max slot e.store.view.currentSlot := by
  have hStart : Tick.atTime e.store.config time e.store.genesisTime = ⟨slot⟩ := by
    have hFits : time.toNat + (0 : UInt64).toNat < UInt64.size := time.toNat_lt
    have hAdded := Tick.atTime_add h e.store.config.secondsPerSlot_pos hFits
    rwa [UInt64.add_zero] at hAdded
  rw [(shows_handle (ShowsTime.self e.store) (.tick time)).currentSlot]
  show (Tick.atTime _ (max e.store.time time) _).slot = _
  rw [Tick.atTime_max, hStart, ← UInt64.toNat_inj, UInt64.toNat_max, UInt64.toNat_max, Nat.max_comm]
  rfl

end Engine

/-! ## Starts of slots, as they are sent -/

theorem Devnet.EngineSession.sendSlot_eq (session : EngineSession) (slot : Slot) :
    session.sendSlot slot =
      match Tick.unixSeconds ⟨slot⟩ session.store.config session.store.genesisTime with
      | .ok time => .ok (session.send [.tick time])
      | .error reason => Outcome.fail (.clock reason) := by
  rw [EngineSession.sendSlot, EngineSession.startOfSlot]
  cases Tick.unixSeconds ⟨slot⟩ session.store.config session.store.genesisTime <;> rfl

/-- What is sent alone is handled before anything else is. -/
theorem Engine.drain_tick (e : Engine) (time : UInt64) :
    (e.drain t [.tick time]).engine = (e.handle t (.tick time)).engine := by
  show ((e.handle t (.tick time)).andThen fun e => ⟨e, none⟩).engine = _
  unfold Run.andThen
  split <;> rfl

/-- The slots of a store are those of the greatest time that it has been told of. -/
structure Store.KeepsTime (t : StateTransition) (s : Store) : Prop where
  /-- After a history of drafts these are the times of the drafts that have been committed. -/
  history : ∀ history, (s.after t history).view.currentSlot =
    (Tick.atTime s.config ((history.flatMap Transaction.ticks).foldl max s.time)
      s.genesisTime).slot
  /-- An open draft shows its own ticks as well. -/
  draft : ∀ history changes,
    ((Draft.ofStore (s.after t history)).changeAll t changes).view.currentSlot =
      (Tick.atTime s.config ((history.flatMap Transaction.ticks ++
        changes.filterMap Change.time?).foldl max s.time) s.genesisTime).slot
  /-- An engine begins with the time of the store. -/
  start : (Engine.start s).engine.store.view.currentSlot =
    (Tick.atTime s.config s.time s.genesisTime).slot
  /-- While it has not failed, all ticks count, also one that it fails over. -/
  run : ∀ deliveries x, (Engine.runFrom t s deliveries).failure = none →
    (Engine.runFrom t s (deliveries ++ [x])).engine.store.view.currentSlot =
      (Tick.atTime s.config (closingTime s (deliveries ++ [x])) s.genesisTime).slot

/-- Sending the start of a slot brings the store to the slot, unless it is there already. -/
structure Devnet.EngineSession.ReachesSlot (session : EngineSession) (slot : Slot) : Prop where
  sent : ∀ session', session.sendSlot slot = .ok session' → session.run.failure = none →
    session'.store.view.currentSlot = max slot session.store.view.currentSlot
  /-- It is sent unless it does not fit into a word. -/
  refused : ∀ failure, session.sendSlot slot = .error failure ↔
    failure = .error (.clock .timeOverflow) ∧ UInt64.size ≤
      session.store.genesisTime.toNat + slot.toNat * session.store.config.secondsPerSlot.toNat

theorem Store.keepsTime (t : StateTransition) (s : Store) : s.KeepsTime t where
  history history := ((ShowsTime.self s).after history).currentSlot
  draft history changes := by
    rw [List.foldl_append]
    exact (((ShowsTime.self s).after history).draft changes).currentSlot
  start := (Engine.shows_start s).currentSlot
  run _ x hOk := (Engine.shows_concat hOk x).currentSlot

theorem Devnet.EngineSession.reachesSlot (session : EngineSession) (slot : Slot) :
    session.ReachesSlot slot where
  sent session' hSent hOk := by
    rw [sendSlot_eq] at hSent
    split at hSent
    · rename_i time hTime
      cases hSent
      show (session.send [.tick time]).run.engine.store.view.currentSlot = _
      rw [send, Run.andThen_of_ok hOk, Engine.drain_tick]
      exact Engine.currentSlot_handle session.run.engine hTime
    · cases hSent
  refused failure := by
    rw [sendSlot_eq]
    cases hTime : Tick.unixSeconds ⟨slot⟩ session.store.config session.store.genesisTime with
    | ok time =>
      have hFits := time.toNat_lt
      rw [Tick.unixSeconds_eq_ok] at hTime
      rw [← hTime]
      simp only [reduceCtorEq, false_iff, not_and, Nat.not_le]
      exact fun _ => hFits
    | error reason =>
      obtain ⟨rfl, hExceeds⟩ := Tick.unixSeconds_eq_error.mp hTime
      rw [Outcome.fail_eq_error]
      exact ⟨fun h => ⟨h, hExceeds⟩, And.left⟩

/-- **Slots and times.** For every configuration and time of genesis the starts of slots and the
slots of times belong together. Every store is in the slot of the greatest time that it has been
told of, whatever else is done and whatever the rules are; and an engine that is sent the start of
a slot comes to the slot, unless it is in a later one. -/
theorem clock_agrees_with_store :
    (∀ config genesisTime, Config.KeepsSlots config genesisTime) ∧
      (∀ (t : StateTransition) (s : Store), s.KeepsTime t) ∧
        ∀ (session : Devnet.EngineSession) (slot : Slot), session.ReachesSlot slot :=
  ⟨Config.keepsSlots, Store.keepsTime, Devnet.EngineSession.reachesSlot⟩

end

end ForkChoice
