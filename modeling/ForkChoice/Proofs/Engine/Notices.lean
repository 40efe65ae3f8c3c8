import ForkChoice.Proofs.Engine.Desk
import ForkChoice.Proofs.Engine.Tasks
import ForkChoice.Proofs.Store.Tree

/-!
# ForkChoice — what others see of the engine

Others read the store of an engine while it is at work, and are told of the blocks that have been
imported. A block is in the store first, and it is told of when its votes have been followed; in
between the engine owes the news. What is owed is told unless the engine fails, and of each block
that comes to be in the store the news is owed.

* `Engine.Still` — others see the same blocks at the same time and hear nothing, `Engine.Quiet` —
  they see no new blocks and hear nothing;
* `Engine.Seen`, `seen_perform` — what others see of a task;
* `Mutator.WillTell` — others will be told of a block, `Mutator.Continues` — what others can rely on;
* `work_continues` — they can rely on it while the engine works.
-/

namespace ForkChoice

namespace Engine

variable {t : StateTransition} {e e' : Engine} {run : Run}

/-! ## Tasks -/

/-- Others see the same blocks at the same time, and they have not been told of anything. -/
def Still (e : Engine) (run : Run) : Prop :=
  StoreView.SameChain e.store.view run.engine.store.view ∧ run.engine.notices = e.notices

namespace Still

theorem refl (e : Engine) (failure : Option (Failure StoreError)) : Still e ⟨e, failure⟩ :=
  ⟨StoreView.SameChain.refl _, rfl⟩

theorem trans (h : Still e ⟨e', none⟩) (h' : Still e' run) : Still e run :=
  ⟨h.1.trans h'.1, h'.2.trans h.2⟩

theorem andThen {next : Engine → Run} (h : Still e run) (h' : ∀ e', Still e' (next e')) :
    Still e (run.andThen next) := by
  obtain ⟨e', failure⟩ := run
  cases failure with
  | some failure => exact h
  | none => exact h.trans (h' e')

/-- A draft that changes votes alone is published. -/
theorem publish {d : Draft} (h : StoreView.SameChain e.store.view d.view) :
    Still e ⟨e.publish d, none⟩ :=
  ⟨h.trans d.commit_sameChain, rfl⟩

theorem updateHead (e : Engine) : Still e e.updateHead := by
  rw [Still, updateHead_engine]
  exact ⟨StoreView.SameChain.refl _, rfl⟩

theorem followTracker (previous : Checkpoint) (e : Engine) :
    Still e ⟨e.followTracker previous, none⟩ := by
  unfold Engine.followTracker
  split
  · exact .refl e none
  · refine .publish ?_
    rw [Draft.discardVotes_view, Draft.ofStore_view]
    rfl

theorem adoptJustified (checkpoint : Checkpoint) (e : Engine) :
    Still e (e.adoptJustified checkpoint) := by
  have hTracked : Still e (Run.ofTracked e (e.tracker.onJustified e.store.view checkpoint)) := by
    rcases e.tracker.onJustified e.store.view checkpoint with ⟨_ | _, tracker⟩ <;>
      exact ⟨StoreView.SameChain.refl _, rfl⟩
  exact hTracked.andThen (followTracker _)

theorem refreshHead (e : Engine) : Still e e.refreshHead :=
  (adoptJustified _ e).andThen updateHead

/-- A block is put aside or refused. -/
theorem delayOrRefuseBlock (b : PendingBlock) (reason : StoreError) (e : Engine) :
    Still e ⟨e.delayOrRefuseBlock b reason, none⟩ := by
  unfold Engine.delayOrRefuseBlock
  split
  · exact ⟨StoreView.SameChain.refl _, rfl⟩
  · split <;> exact ⟨StoreView.SameChain.refl _, rfl⟩
  · exact ⟨StoreView.SameChain.refl _, rfl⟩

variable [HashFunction]

theorem afterImport (root : Root) (block : Block) (e : Engine) :
    Still e (e.afterImport root block) := by
  unfold Engine.afterImport
  split
  · exact .refl e _
  · split
    · exact .refl e _
    · exact refreshHead _

variable [SignatureScheme]

theorem attest_notices (b : BurstProgress) (a : ReceivedAttestation) :
    (attest t b a).engine.notices = b.engine.notices := by
  unfold attest
  split
  · rfl
  · split
    · rfl
    · unfold delayOrRefuse
      split <;> rfl
    · rfl

theorem attestAll_notices (b : BurstProgress) (attestations : List ReceivedAttestation) :
    (attestations.foldl (attest t) b).engine.notices = b.engine.notices := by
  induction attestations generalizing b with
  | nil => rfl
  | cons a rest ih => exact (ih _).trans (attest_notices b a)

/-- A burst changes votes and nothing else. -/
theorem processAttestations (attestations : List ReceivedAttestation) (e : Engine) :
    Still e (e.processAttestations t attestations) := by
  unfold Engine.processAttestations
  split
  · exact .refl e none
  · have hBurst := Invariant.bursting_foldl (t := t) (e := e)
      (b := { engine := e, draft := Draft.ofStore e.store }) ⟨rfl, rfl, [], by simp, rfl⟩
      (byArrival attestations)
    have hNotices := attestAll_notices (t := t) { engine := e, draft := Draft.ofStore e.store }
      (byArrival attestations)
    generalize (byArrival attestations).foldl (attest t) _ = b at hBurst hNotices
    obtain ⟨hStore, -, changes, hVotes, hDraft⟩ := hBurst
    have hChain := changeAll_onlyVotes (t := t) (d := Draft.ofStore e.store) hVotes
    rw [← hDraft, Draft.ofStore_view] at hChain
    unfold finishBurst
    split
    · refine ⟨?_, hNotices⟩
      show StoreView.SameChain e.store.view b.engine.store.view
      rw [hStore]
      exact StoreView.SameChain.refl _
    · have hPublished : Still e ⟨b.engine.publish b.draft, none⟩ :=
        ⟨hChain.trans b.draft.commit_sameChain, hNotices⟩
      dsimp only
      split
      · exact hPublished
      · exact hPublished.trans (updateHead _)

theorem releaseAttestations (root : Root) (e : Engine) :
    Still e (e.releaseAttestations t root) :=
  processAttestations (e.waiting.takeUntilBlock root).1
    { e with waiting := (e.waiting.takeUntilBlock root).2 }

theorem releaseUntilTick (e : Engine) : Still e (e.releaseUntilTick t) :=
  processAttestations e.waiting.takeUntilTick.1 { e with waiting := e.waiting.takeUntilTick.2 }

end Still

/-- Others see the same blocks as before, and they have not been told of anything. -/
def Quiet (e : Engine) (run : Run) : Prop :=
  StoreView.SameTree e.store.view run.engine.store.view ∧ run.engine.notices = e.notices

theorem Still.quiet (h : Still e run) : Quiet e run :=
  ⟨h.1.sameTree, h.2⟩

variable [HashFunction] [SignatureScheme]

/-- What others see of a task: nothing, that they are told of something, or a block that has been
imported and of which they are still to be told. -/
inductive Seen (t : StateTransition) (e : Engine) : Task → Run → List Task → Prop
  | quiet {task : Task} {run : Run} {next : List Task} (hQuiet : Quiet e run)
    (hTask : ∀ root, task ≠ .tellImported root) (hNext : ∀ root, .tellImported root ∉ next) :
    Seen t e task run next
  | slotBegan (previous current : Slot) :
    Seen t e (.announceSlot previous current) ⟨e.notify (.slotBegan current), none⟩ []
  | told (root : Root) :
    Seen t e (.tellImported root) ⟨e.notify (.blockImported root), none⟩ []
  | imported {b : PendingBlock} {queue : List PendingBlock} {root : Root} {d : Draft}
    (hImport : (Draft.ofStore e.store).importBlock t b.block = (.ok (.imported root), d)) :
    Seen t e (.importBlocks (b :: queue)) ⟨(e.publish d).record (.blockImported b.block), none⟩
      [.afterImport root b.block, .tellImported root, .releaseFor root queue]

theorem seen_importBlocks (queue : List PendingBlock) :
    Seen t e (.importBlocks queue) ((Task.importBlocks queue).perform t e).1
      ((Task.importBlocks queue).perform t e).2 := by
  cases queue with
  | nil => exact .quiet (Still.refl e none).quiet (by simp) (by simp [Task.perform])
  | cons b queue =>
    rcases hImport : (Draft.ofStore e.store).importBlock t b.block with ⟨result, d⟩
    rw [Task.perform, hImport]
    rcases result with (reason | reason) | root | root
    · exact .quiet ⟨StoreView.SameTree.refl _, rfl⟩ (by simp) (by simp)
    · exact .quiet (Still.delayOrRefuseBlock b reason (e.abandon d)).quiet (by simp) (by simp)
    · exact .imported hImport
    · exact .quiet ⟨StoreView.SameTree.refl _, rfl⟩ (by simp) (by simp)

/-- **One task** commits or tells of something, but not both. -/
theorem seen_perform (t : StateTransition) (e : Engine) (task : Task) :
    Seen t e task (task.perform t e).1 (task.perform t e).2 := by
  cases task with
  | tick time =>
    refine .quiet ⟨?_, rfl⟩ (by simp) (by simp [Task.perform])
    have hTree := (Draft.ofStore e.store).tick_sameTree time
    rw [Draft.ofStore_view] at hTree
    exact hTree.trans (Draft.commit_sameChain _).sameTree
  | announceSlot previous current =>
    rw [Task.perform, announceSlot]
    split
    · exact .slotBegan previous current
    · exact .quiet (Still.refl e none).quiet (by simp) (by simp)
  | importBlocks queue => exact seen_importBlocks queue
  | tellImported root => exact .told root
  | refreshHead => exact .quiet (Still.refreshHead e).quiet (by simp) (by simp [Task.perform])
  | releaseBlocks slot =>
    exact .quiet (Still.refl e none).quiet (by simp) (by simp [Task.perform])
  | releaseUntilTick =>
    exact .quiet (Still.releaseUntilTick e).quiet (by simp) (by simp [Task.perform])
  | afterImport root block =>
    exact .quiet (Still.afterImport root block e).quiet (by simp) (by simp [Task.perform])
  | releaseFor root queue =>
    exact .quiet (Still.releaseAttestations root { e with
      waiting := (e.waiting.takeUntilParent root).2 }).quiet (by simp) (by simp [Task.perform])
  | burst attestations =>
    exact .quiet (Still.processAttestations attestations e).quiet (by simp) (by simp [Task.perform])
  | justified checkpoint =>
    exact .quiet (Still.adoptJustified checkpoint e).quiet (by simp) (by simp [Task.perform])

end Engine

namespace Mutator

open StoreView

variable {t : StateTransition} {m m' : Mutator} {root : Root}

/-- The block has been imported, and those who verify attestations have not been told. -/
def Owes (m : Mutator) (root : Root) : Prop :=
  .tellImported root ∈ m.tasks

/-- Those who have read the first `read` notices will be told of the block. -/
def WillTell (m : Mutator) (read : Nat) (root : Root) : Prop :=
  m.Owes root ∨ .blockImported root ∈ m.notices.drop read

/-- What has not been the next of the news is still to come. -/
theorem WillTell.next {read : Nat} {notice : Notice} (h : m.WillTell read root)
    (hNotice : m.notices[read]? = some notice) (hOther : notice ≠ .blockImported root) :
    m.WillTell (read + 1) root := by
  refine h.imp_right fun hMem => ?_
  obtain ⟨hRead, rfl⟩ := List.getElem?_eq_some_iff.mp hNotice
  rw [List.drop_eq_getElem_cons hRead] at hMem
  exact (List.mem_cons.mp hMem).resolve_left hOther.symm

/-- What others see of a mutator that goes on. -/
structure Continues (m m' : Mutator) : Prop where
  rooted : m.view.Rooted → m'.view.Rooted
  extends_ : Extends m.view m'.view
  notices_le : m.notices.length ≤ m'.notices.length
  /-- Of blocks that are new others will be told. -/
  fresh : ∀ {root block}, m'.view.block? root = some block →
    (∃ block, m.view.block? root = some block) ∨ m'.Owes root
  /-- What others will be told of they will still be told of. -/
  willTell : ∀ {read root}, read ≤ m.notices.length → m.WillTell read root →
    m'.WillTell read root
  /-- Others are told of blocks that can be read. -/
  told : ∀ {root}, m'.WillTell 0 root →
    m.WillTell 0 root ∨ ∃ block, m'.view.block? root = some block

namespace Continues

/-- The blocks are the same, and what has been told or is still to be told of blocks. -/
theorem of_sameTree (hTree : SameTree m.view m'.view) (hNotices : m'.notices = m.notices)
    (hOwes : ∀ root, m'.Owes root ↔ m.Owes root) : m.Continues m' where
  rooted h := h.of_sameTree hTree
  extends_ := hTree.view_extends
  notices_le := by rw [hNotices]
  fresh := by
    intro root block hBlock
    rw [hTree.block?] at hBlock
    exact Or.inl ⟨block, hBlock⟩
  willTell := by
    intro read root _ h
    rwa [WillTell, hOwes, hNotices]
  told := by
    intro root h
    rw [WillTell, hOwes, hNotices] at h
    exact Or.inl h

theorem refl (m : Mutator) : m.Continues m :=
  of_sameTree (SameTree.refl _) rfl fun _ => Iff.rfl

/-- Others are told of something; the rest of the tasks remains. -/
theorem of_notice {e : Engine} {task : Task} {rest : List Task} (notice : Notice)
    (hTask : ∀ root, task = .tellImported root ↔ notice = .blockImported root) :
    Continues ⟨⟨e, none⟩, task :: rest⟩ ⟨⟨e.notify notice, none⟩, rest⟩ where
  rooted h := h
  extends_ := Extends.refl _
  notices_le := by simp [notices, Engine.notify]
  fresh := fun hBlock => Or.inl ⟨_, hBlock⟩
  willTell := by
    intro read root hRead h
    rw [WillTell, Owes, List.mem_cons] at h
    have hRead : read ≤ e.notices.length := hRead
    show _ ∨ .blockImported root ∈ (e.notices ++ [notice]).drop read
    rw [List.drop_append_of_le_length hRead, List.mem_append, List.mem_singleton]
    rcases h with (h | h) | h
    · exact Or.inr (Or.inr ((hTask root).mp h.symm).symm)
    · exact Or.inl h
    · exact Or.inr (Or.inl h)
  told := by
    intro root h
    have h : .tellImported root ∈ rest ∨ .blockImported root ∈ e.notices ++ [notice] := h
    rw [List.mem_append, List.mem_singleton] at h
    left
    show .tellImported root ∈ task :: rest ∨ .blockImported root ∈ e.notices
    rcases h with h | h | h
    · exact Or.inl (List.mem_cons_of_mem _ h)
    · exact Or.inr h
    · exact Or.inl (by rw [(hTask root).mpr h.symm]; exact List.mem_cons_self)

/-- A mutator that has nothing to do takes a message. -/
theorem of_delivery (hTasks : m.tasks = []) (x : Delivery) :
    m.Continues { m with tasks := [x.task] } := by
  refine of_sameTree (SameTree.refl _) rfl fun root => ?_
  rw [Owes, Owes, hTasks]
  cases x <;> simp [Delivery.task]

variable [HashFunction]

/-- A block is imported, and others are to be told of it after its votes have been followed. -/
theorem of_imported {e : Engine} {b : PendingBlock} {queue : List PendingBlock} {d : Draft}
    {rest : List Task}
    (hImport : (Draft.ofStore e.store).importBlock t b.block = (.ok (.imported root), d)) :
    Continues ⟨⟨e, none⟩, .importBlocks (b :: queue) :: rest⟩
      ⟨⟨(e.publish d).record (.blockImported b.block), none⟩,
        [.afterImport root b.block, .tellImported root, .releaseFor root queue] ++ rest⟩ := by
  obtain ⟨parentState, state, hAdmitted, -, hView⟩ := Draft.importBlock_imported hImport
  rw [Draft.ofStore_view] at hAdmitted hView
  obtain ⟨-, hFresh, hParent, -⟩ := admitBlock_eq_fresh.mp hAdmitted
  have hTree : SameTree (e.store.view.withBlock root b.block state) d.commit.view :=
    hView.sameTree.trans d.commit_sameChain.sameTree
  have hOwes : ∀ r, .tellImported r ∈
      [.afterImport root b.block, .tellImported root, .releaseFor root queue] ++ rest ↔
        r = root ∨ Task.tellImported r ∈ rest := by
    intro r
    simp
  exact {
    rooted := fun h => (h.withBlock hFresh (h.known_of_state hParent)).of_sameTree hTree
    extends_ := (extends_withBlock hFresh).trans hTree.view_extends
    notices_le := Nat.le_refl _
    fresh := by
      intro r block hBlock
      rw [show view _ = d.commit.view from rfl, hTree.block?] at hBlock
      rcases withBlock_cases hBlock with ⟨rfl, -⟩ | ⟨-, hOld⟩
      · exact Or.inr ((hOwes r).mpr (Or.inl rfl))
      · exact Or.inl ⟨block, hOld⟩
    willTell := by
      intro read r _ h
      refine h.imp_left fun hOwed => (hOwes r).mpr (Or.inr ?_)
      exact (List.mem_cons.mp hOwed).resolve_left (by simp)
    told := by
      intro r h
      rcases h with hOwed | hTold
      · rcases (hOwes r).mp hOwed with rfl | hOld
        · refine Or.inr ⟨b.block, ?_⟩
          rw [show view _ = d.commit.view from rfl, hTree.block?]
          exact withBlock_block?_self
        · exact Or.inl (Or.inl (List.mem_cons_of_mem _ hOld))
      · exact Or.inl (Or.inr hTold) }

end Continues

variable [HashFunction] [SignatureScheme]

/-- **One task of the mutator**, as others see it. -/
theorem work_continues (t : StateTransition) (m : Mutator) : m.Continues (m.work t) := by
  obtain ⟨⟨e, _ | failure⟩, _ | ⟨task, rest⟩⟩ := m
  · exact .refl _
  · rw [work_cons]
    have hSeen := Engine.seen_perform t e task
    generalize (task.perform t e).1 = run at hSeen ⊢
    generalize (task.perform t e).2 = next at hSeen ⊢
    cases hSeen with
    | quiet hQuiet hTask hNext =>
      refine .of_sameTree hQuiet.1 hQuiet.2 fun root => ?_
      show .tellImported root ∈ next ++ rest ↔ .tellImported root ∈ task :: rest
      rw [List.mem_append, List.mem_cons, or_iff_right (hNext root),
        or_iff_right (hTask root).symm]
    | slotBegan previous current => exact .of_notice (.slotBegan current) (by simp)
    | told root => exact .of_notice (.blockImported root) (by simp)
    | imported hImport => exact .of_imported hImport
  · exact .refl _
  · exact .refl _

end Mutator

end ForkChoice
