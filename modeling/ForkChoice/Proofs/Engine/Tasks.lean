import Mathlib.Logic.Function.Iterate
import ForkChoice.Proofs.Engine.Queues

/-!
# ForkChoice — the engine step by step

While the engine handles a message, others read its store and what it tells them. They see where it
has committed a draft and not told of it yet, so handling a message is taken apart into tasks, each
of which commits at most one draft or tells of one thing. A task may bring further tasks, which are
done before those that were there already.

* `Task.perform` — a task, and what comes next, `Mutator.work` — the first task is done;
* `Done` — tasks are done one after another, `done_importBlocks` — the blocks of a message;
* `handled_by_tasks` — task by task, a message is handled as it is at once.
-/

namespace ForkChoice

/-- What is done in one go. -/
inductive Task where
  | tick (time : UInt64)
  | refreshHead
  | announceSlot (previous current : Slot)
  | releaseBlocks (slot : Slot)
  | releaseUntilTick
  | importBlocks (queue : List PendingBlock)
  /-- The votes in a block that has been imported are followed. -/
  | afterImport (root : Root) (block : Block)
  /-- Those who verify attestations are told of a block that has been imported. -/
  | tellImported (root : Root)
  /-- What has waited for a block goes on, its children after the other blocks of the queue. -/
  | releaseFor (root : Root) (queue : List PendingBlock)
  | burst (attestations : List ReceivedAttestation)
  | justified (checkpoint : Checkpoint)

/-- The task with which a message or a burst is handled. -/
def Delivery.task : Delivery → Task
  | .tick time => .tick time
  | .block b => .importBlocks [{ block := b }]
  | .burst attestations => .burst attestations
  | .justified checkpoint => .justified checkpoint

variable [HashFunction] [SignatureScheme]

/-- Does a task, and gives the tasks that come next. -/
def Task.perform (t : StateTransition) (e : Engine) : Task → Run × List Task
  | .tick time =>
    let previous := e.store.view.currentSlot
    let e := e.publish ((Draft.ofStore e.store).tick time)
    let current := e.store.view.currentSlot
    (⟨e, none⟩,
      [.refreshHead, .announceSlot previous current, .releaseBlocks current, .releaseUntilTick])
  | .refreshHead => (e.refreshHead, [])
  | .announceSlot previous current => (⟨e.announceSlot previous current, none⟩, [])
  | .releaseBlocks slot =>
    let (due, waiting) := e.waiting.takeUntilSlot slot
    (⟨{ e with waiting := waiting }, none⟩, [.importBlocks (due.map PendingBlock.retry)])
  | .releaseUntilTick => (e.releaseUntilTick t, [])
  | .importBlocks [] => (⟨e, none⟩, [])
  | .importBlocks (b :: queue) =>
    match (Draft.ofStore e.store).importBlock t b.block with
    | (.ok (.imported root), d) =>
      (⟨(e.publish d).record (.blockImported b.block), none⟩,
        [.afterImport root b.block, .tellImported root, .releaseFor root queue])
    | (.ok (.alreadyKnown _), d) =>
      (⟨(e.abandon d).record (.blockKnown b.block), none⟩, [.importBlocks queue])
    | (.error (.error reason), d) =>
      (⟨(e.abandon d).delayOrRefuseBlock b reason, none⟩, [.importBlocks queue])
    | (.error (.fault reason), d) => (⟨e.abandon d, some (.fault reason)⟩, [])
  | .afterImport root block => (e.afterImport root block, [])
  | .tellImported root => (⟨e.notify (.blockImported root), none⟩, [])
  | .releaseFor root queue =>
    let (children, waiting) := e.waiting.takeUntilParent root
    ({ e with waiting := waiting }.releaseAttestations t root,
      [.importBlocks (queue ++ children.map PendingBlock.retry)])
  | .burst attestations => (e.processAttestations t attestations, [])
  | .justified checkpoint => (e.adoptJustified checkpoint, [])

/-- An engine at work, and what it has to do before the next message. -/
structure Mutator where
  run : Run
  tasks : List Task := []

namespace Mutator

/-- What can be read of the store. -/
def view (m : Mutator) : StoreView := m.run.engine.store.view

/-- What those who verify attestations have been told. -/
def notices (m : Mutator) : List Notice := m.run.engine.notices

/-- The first task is done, unless there is none or the engine has failed. What a failed engine has
not done remains. -/
def work (t : StateTransition) (m : Mutator) : Mutator :=
  match m.run.failure, m.tasks with
  | none, task :: rest =>
    let (run, next) := task.perform t m.run.engine
    ⟨run, next ++ rest⟩
  | _, _ => m

/-- Some number of tasks is done. -/
def Reaches (t : StateTransition) (m m' : Mutator) : Prop :=
  ∃ n, (work t)^[n] m = m'

variable {t : StateTransition} {m m' m'' : Mutator}

theorem Reaches.refl (m : Mutator) : m.Reaches t m :=
  ⟨0, rfl⟩

theorem Reaches.trans (h : m.Reaches t m') (h' : m'.Reaches t m'') : m.Reaches t m'' := by
  obtain ⟨n, rfl⟩ := h
  obtain ⟨n', rfl⟩ := h'
  exact ⟨n' + n, Function.iterate_add_apply _ _ _ _⟩

theorem work_cons (t : StateTransition) (e : Engine) (task : Task) (rest : List Task) :
    work t ⟨⟨e, none⟩, task :: rest⟩ =
      ⟨(task.perform t e).1, (task.perform t e).2 ++ rest⟩ :=
  rfl

end Mutator

namespace Engine

open Mutator

/-- Tasks are done, those that they bring included, up to the first failure. -/
def Done (t : StateTransition) (tasks : List Task) (e : Engine) (run : Run) : Prop :=
  ∀ rest, ∃ left, Reaches t ⟨⟨e, none⟩, tasks ++ rest⟩ ⟨run, left⟩ ∧
    (run.failure = none → left = rest)

variable {t : StateTransition} {e e' : Engine} {task : Task} {tasks tasks' : List Task}
  {run run' : Run} {queue : List PendingBlock} {b : PendingBlock}

namespace Done

/-- A task, and those that it brings unless it fails. -/
theorem perform (task : Task) (h : (task.perform t e).1.failure = none →
      Done t (task.perform t e).2 (task.perform t e).1.engine run) :
    Done t [task] e ((task.perform t e).1.andThen fun _ => run) := by
  intro rest
  have hFirst : Reaches t ⟨⟨e, none⟩, [task] ++ rest⟩
      ⟨(task.perform t e).1, (task.perform t e).2 ++ rest⟩ := ⟨1, work_cons t e task rest⟩
  cases hRun : (task.perform t e).1 with
  | mk e' failure =>
    rw [hRun] at h hFirst
    cases failure with
    | some failure => exact ⟨_, hFirst, fun hOk => absurd hOk (by simp [Run.andThen])⟩
    | none =>
      obtain ⟨left, hMore, hLeft⟩ := h rfl rest
      exact ⟨left, hFirst.trans hMore, hLeft⟩

/-- A task that does not fail, and those that it brings. -/
theorem first (h : task.perform t e = (⟨e', none⟩, tasks)) (hNext : Done t tasks e' run) :
    Done t [task] e run := by
  have hDone : Done t [task] e ((task.perform t e).1.andThen fun _ => run) := by
    refine perform task ?_
    rw [h]
    exact fun _ => hNext
  rw [h] at hDone
  exact hDone

/-- A task that brings no others. -/
theorem single (h : task.perform t e = (run, [])) : Done t [task] e run := by
  intro rest
  refine ⟨rest, ⟨1, ?_⟩, fun _ => rfl⟩
  rw [Function.iterate_one, List.singleton_append, work_cons, h]
  rfl

/-- Tasks in a row. -/
theorem append (h : Done t tasks e run)
    (h' : run.failure = none → Done t tasks' run.engine run') :
    Done t (tasks ++ tasks') e (run.andThen fun _ => run') := by
  intro rest
  obtain ⟨left, hFirst, hLeft⟩ := h (tasks' ++ rest)
  obtain ⟨e', failure⟩ := run
  rw [List.append_assoc]
  cases failure with
  | some failure => exact ⟨left, hFirst, fun hOk => absurd hOk (by simp [Run.andThen])⟩
  | none =>
    obtain ⟨left', hSecond, hLeft'⟩ := h' rfl rest
    rw [hLeft rfl] at hFirst
    exact ⟨left', hFirst.trans hSecond, hLeft'⟩

end Done

/-! ## Blocks -/

/-- What is done once a block has been imported: its votes are followed, it is told of, and what
has waited for it goes on. -/
theorem done_settleImport (root : Root) (block : Block)
    (h : (e.settleImport t root block).run.failure = none →
      Done t [.importBlocks (queue ++ (e.settleImport t root block).released)]
        (e.settleImport t root block).run.engine run) :
    Done t [.afterImport root block, .tellImported root, .releaseFor root queue] e
      ((e.settleImport t root block).run.andThen fun _ => run) := by
  have hTold : Done t ([.afterImport root block] ++ [.tellImported root]) e
      ((e.afterImport root block).andThen fun e => ⟨e.notify (.blockImported root), none⟩) := by
    have hFollowed : Done t [.afterImport root block] e (e.afterImport root block) := .single rfl
    exact hFollowed.append fun _ => .single rfl
  rw [settleImport] at h ⊢
  dsimp only at h ⊢
  generalize (e.afterImport root block).andThen
    (fun e => ⟨e.notify (.blockImported root), none⟩) = told at hTold h ⊢
  -- If the votes cannot be followed, nobody is told of the block.
  cases hFailure : told.failure with
  | some failure =>
    exact hTold.append fun hOk => absurd hOk (by simp [hFailure])
  | none =>
    simp only [hFailure] at h
    have hAll := hTold.append fun _ => .perform (.releaseFor root queue) h
    rw [Run.andThen_of_ok hFailure] at hAll
    exact hAll

/-- A block of the queue, and all that it lets go on. -/
theorem done_importBlock (b : PendingBlock)
    (h : (e.importBlock t b).run.failure = none →
      Done t [.importBlocks (queue ++ (e.importBlock t b).released)]
        (e.importBlock t b).run.engine run) :
    Done t [.importBlocks (b :: queue)] e ((e.importBlock t b).run.andThen fun _ => run) := by
  rcases hImport : (Draft.ofStore e.store).importBlock t b.block with ⟨result, d⟩
  rw [importBlock, hImport] at h ⊢
  rcases result with (reason | reason) | root | root
  · exact .single (by rw [Task.perform, hImport]; rfl)
  · dsimp only at h
    rw [List.append_nil] at h
    exact .first (by rw [Task.perform, hImport]) (h rfl)
  · exact .first (by rw [Task.perform, hImport]) (done_settleImport root b.block h)
  · dsimp only at h
    rw [List.append_nil] at h
    exact .first (by rw [Task.perform, hImport]) (h rfl)

theorem WorkedOff.done_tasks (h : WorkedOff t queue e run) :
    Done t [.importBlocks queue] e run := by
  induction h with
  | done => exact .single rfl
  | @fails e b queue failure h =>
    have hDone : Done t [.importBlocks (b :: queue)] e
        ((e.importBlock t b).run.andThen fun _ => ⟨e, none⟩) :=
      done_importBlock b fun hOk => absurd (h.symm.trans hOk) (by simp)
    rw [Run.andThen, h] at hDone
    exact hDone
  | next h hRest ih =>
    have hDone := done_importBlock _ fun _ => ih
    rw [Run.andThen_of_ok h] at hDone
    exact hDone

/-- **The blocks of a message**, each with all that it lets go on. -/
theorem done_importBlocks (t : StateTransition) (e : Engine) (queue : List PendingBlock) :
    Done t [.importBlocks queue] e (e.processBlocks t queue) :=
  (workedOff_processBlocks t e queue).done_tasks

/-! ## Messages -/

theorem done_handleTick (t : StateTransition) (e : Engine) (time : UInt64) :
    Done t [.tick time] e (e.handleTick t time) := by
  let moved := e.publish ((Draft.ofStore e.store).tick time)
  let previous := e.store.view.currentSlot
  let current := moved.store.view.currentSlot
  have hHead : Done t [.refreshHead] moved moved.refreshHead := .single rfl
  have hTold : Done t ([.refreshHead] ++ [.announceSlot previous current]) moved
      (moved.refreshHead.andThen fun e => ⟨e.announceSlot previous current, none⟩) :=
    hHead.append fun _ => .single rfl
  have hBlocks : Done t ([.refreshHead] ++ [.announceSlot previous current] ++
      [.releaseBlocks current]) moved ((moved.refreshHead.andThen fun e =>
        ⟨e.announceSlot previous current, none⟩).andThen (releaseBlocks t current)) :=
    hTold.append fun _ => .first rfl (done_importBlocks t _ _)
  have hAll : Done t ([.refreshHead] ++ [.announceSlot previous current] ++
      [.releaseBlocks current] ++ [.releaseUntilTick]) moved (e.handleTick t time) :=
    hBlocks.append fun _ => .single rfl
  exact .first rfl hAll

/-- **Messages are handled task by task.** -/
theorem handled_by_tasks (t : StateTransition) (e : Engine) (x : Delivery) :
    Done t [x.task] e (e.handle t x) := by
  cases x with
  | tick time => exact done_handleTick t e time
  | block block => exact done_importBlocks t e _
  | burst attestations => exact .single rfl
  | justified checkpoint => exact .single rfl

end Engine

end ForkChoice
