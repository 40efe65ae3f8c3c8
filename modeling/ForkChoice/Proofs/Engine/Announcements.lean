import ForkChoice.Proofs.Engine.Notices
import ForkChoice.Proofs.Engine.Wakeup
import ForkChoice.Proofs.Store.Lineage

/-!
# ForkChoice — what is told, and in which order

Those who verify attestations are told of each block that is imported and of each new slot. What
they rely on is an order: a block is in the store when they are told of it, they are told of its
parent before, and of nothing twice. Imports come from several places and their queue grows while it
is worked off, so the order is not that of any list. It comes from this: the engine takes on nothing
new before it has told of what it has done last. Told and owed together are therefore always in the
right order, and as many as the store shows; and between messages nothing is owed.

* `Notice.blocks`, `Notice.slots` — the blocks and the slots of a sequence of notices;
* `StoreView.Chronicle` — a sequence of notices that fits what can be read;
* `Chronicle.imported`, `Chronicle.ticked` — the next notice;
* `Engine.Shown`, `shown_perform` — what others see of a task, `Task.news` — what it is going to tell;
* `Mutator.Orderly`, `Orderly.work` — the invariant, task by task;
* `Mutator.Moment` — the moments of a run, `Moment.orderly`, `Moment.reaches_end`;
* `Engine.notices_of_run` — the notices of a run.
-/

namespace ForkChoice

namespace Notice

/-- The blocks that notices tell of, in order. -/
def blocks (notices : List Notice) : List Root :=
  notices.filterMap fun
    | .blockImported root => some root
    | .slotBegan _ => none

/-- The slots that notices tell of, in order. -/
def slots (notices : List Notice) : List Slot :=
  notices.filterMap fun
    | .blockImported _ => none
    | .slotBegan slot => some slot

/-- What a notice says can be read: the block is known, or the slot is the present one. -/
def Suits (v : StoreView) : Notice → Prop
  | .blockImported root => ∃ block, v.block? root = some block
  | .slotBegan slot => slot = v.currentSlot

variable {notices notices' : List Notice}

@[simp] theorem blocks_append : blocks (notices ++ notices') = blocks notices ++ blocks notices' :=
  List.filterMap_append

@[simp] theorem slots_append : slots (notices ++ notices') = slots notices ++ slots notices' :=
  List.filterMap_append

@[simp] theorem blocks_imported (root : Root) : blocks [.blockImported root] = [root] :=
  rfl

@[simp] theorem slots_imported (root : Root) : slots [.blockImported root] = [] :=
  rfl

@[simp] theorem blocks_slot (slot : Slot) : blocks [.slotBegan slot] = [] :=
  rfl

@[simp] theorem slots_slot (slot : Slot) : slots [.slotBegan slot] = [slot] :=
  rfl

theorem mem_of_mem_slots {slot : Slot} (h : slot ∈ slots notices) : .slotBegan slot ∈ notices := by
  obtain ⟨notice, hMem, hSlot⟩ := List.mem_filterMap.mp h
  cases notice with
  | blockImported root => cases hSlot
  | slotBegan slot' =>
    cases hSlot
    exact hMem

end Notice

/-! ## Notices that fit a view -/

namespace StoreView

open Notice

variable {s : Store} {v v' : StoreView} {notices : List Notice} {root : Root} {b : Block}
  {state : BeaconState}

/-- The notices since the beginning with a store: they tell of each block but the anchor once and of
no other, of parents first, and of slots in order, the last of which is the present one. -/
structure Chronicle (s : Store) (v : StoreView) (notices : List Notice) : Prop where
  tree : v.Rooted
  anchorRoot : v.anchorRoot = s.anchorRoot
  once : (blocks notices).Nodup
  mem_blocks : ∀ r, r ∈ blocks notices ↔ r ≠ v.anchorRoot ∧ ∃ block, v.block? r = some block
  parent_first : ∀ {c p}, v.parent? c = some p → p ≠ v.anchorRoot →
    [p, c].Sublist (blocks notices)
  ascending : (s.view.currentSlot :: slots notices).Pairwise (· < ·)
  current : (s.view.currentSlot :: slots notices).getLast? = some v.currentSlot

namespace Chronicle

theorem of_same (h : Chronicle s v notices) (hTree : SameTree v v')
    (hSlot : v'.currentSlot = v.currentSlot) : Chronicle s v' notices where
  tree := h.tree.of_sameTree hTree
  anchorRoot := hTree.anchorRoot.trans h.anchorRoot
  once := h.once
  mem_blocks r := by
    rw [hTree.anchorRoot, hTree.block?]
    exact h.mem_blocks r
  parent_first := by
    intro c p hParent hAnchor
    rw [hTree.parent?_eq] at hParent
    rw [hTree.anchorRoot] at hAnchor
    exact h.parent_first hParent hAnchor
  ascending := h.ascending
  current := by
    rw [hSlot]
    exact h.current

/-- Votes and states at checkpoints are not told of. -/
theorem of_sameChain (h : Chronicle s v notices) (hSame : SameChain v v') :
    Chronicle s v' notices :=
  h.of_same hSame.sameTree (SameClock.of_sameChain hSame).currentSlot

/-- **The next block** comes after its parent, which is known. -/
theorem imported (h : Chronicle s v notices) (hFresh : v.block? root = none)
    (hParent : ∃ parent, v.block? b.parentRoot = some parent)
    (hTree : SameTree (v.withBlock root b state) v') (hSlot : v'.currentSlot = v.currentSlot) :
    Chronicle s v' (notices ++ [.blockImported root]) := by
  have hNe := h.tree.ne_anchor hFresh
  have hAdded : Chronicle s (v.withBlock root b state) (notices ++ [.blockImported root]) :=
    { tree := h.tree.withBlock hFresh hParent
      anchorRoot := h.anchorRoot
      once := by
        rw [blocks_append, blocks_imported]
        refine List.nodup_append.mpr ⟨h.once, List.nodup_singleton _, ?_⟩
        intro r hTold r' hNew hSame
        rw [List.mem_singleton] at hNew
        -- Of a block that is not known nobody has been told.
        obtain ⟨-, block, hKnown⟩ := (h.mem_blocks r).mp hTold
        rw [hSame, hNew, hFresh] at hKnown
        cases hKnown
      mem_blocks := by
        intro r
        rw [blocks_append, blocks_imported, List.mem_append, List.mem_singleton, h.mem_blocks]
        show _ ↔ r ≠ v.anchorRoot ∧ _
        by_cases hr : r = root
        · rw [hr, withBlock_block?_self]
          simp [hNe]
        · rw [withBlock_block?_of_ne hr]
          simp [hr]
      parent_first := by
        intro c p hLink hAnchor
        rw [blocks_append, blocks_imported]
        rw [withBlock_parent? hNe] at hLink
        split at hLink
        · -- The new link: the parent is known, so it has been told of.
          rename_i hc
          cases hc
          cases hLink
          have hTold : b.parentRoot ∈ blocks notices :=
            (h.mem_blocks b.parentRoot).mpr ⟨hAnchor, hParent⟩
          exact (List.singleton_sublist.mpr hTold).append (List.Sublist.refl [root])
        · exact (h.parent_first hLink hAnchor).trans (List.sublist_append_left _ _)
      ascending := by
        rw [slots_append, slots_imported, List.append_nil]
        exact h.ascending
      current := by
        rw [slots_append, slots_imported, List.append_nil]
        exact h.current }
  exact hAdded.of_same hTree hSlot

/-- **The next slot** comes after all others. -/
theorem ticked (h : Chronicle s v notices) (hTree : SameTree v v')
    (hSlot : v.currentSlot ≤ v'.currentSlot) :
    Chronicle s v' (notices ++
      if v.currentSlot < v'.currentSlot then [.slotBegan v'.currentSlot] else []) := by
  split
  · rename_i hLater
    -- All slots so far are up to the last one, which was the present one.
    have hBounds : ∀ slot ∈ s.view.currentSlot :: slots notices, slot ≤ v.currentSlot := by
      intro slot hMem
      obtain ⟨front, hFront⟩ := List.getLast?_eq_some_iff.mp h.current
      have hAscending := h.ascending
      rw [hFront] at hMem hAscending
      rcases List.mem_append.mp hMem with hMem | hMem
      · exact UInt64.le_of_lt
          ((List.pairwise_append.mp hAscending).2.2 slot hMem _ List.mem_cons_self)
      · rw [List.mem_singleton.mp hMem]
        exact UInt64.le_refl _
    exact {
      tree := h.tree.of_sameTree hTree
      anchorRoot := hTree.anchorRoot.trans h.anchorRoot
      once := by
        rw [blocks_append, blocks_slot, List.append_nil]
        exact h.once
      mem_blocks := by
        intro r
        rw [blocks_append, blocks_slot, List.append_nil, hTree.anchorRoot, hTree.block?]
        exact h.mem_blocks r
      parent_first := by
        intro c p hParent hAnchor
        rw [hTree.parent?_eq] at hParent
        rw [hTree.anchorRoot] at hAnchor
        rw [blocks_append, blocks_slot, List.append_nil]
        exact h.parent_first hParent hAnchor
      ascending := by
        rw [slots_append, slots_slot, ← List.cons_append]
        refine List.pairwise_append.mpr ⟨h.ascending, List.pairwise_singleton _ _, ?_⟩
        intro slot hMem next hNext
        rw [List.mem_singleton.mp hNext]
        exact UInt64.lt_of_le_of_lt (hBounds slot hMem) hLater
      current := by
        rw [slots_append, slots_slot, ← List.cons_append, List.getLast?_concat] }
  · rename_i hNotLater
    rw [List.append_nil]
    exact h.of_same hTree (UInt64.le_antisymm (UInt64.not_lt.mp hNotLater) hSlot)

/-- **A tick** that is committed. -/
theorem of_tick {now : Store} (h : Chronicle s now.view notices) (time : UInt64) {v' : StoreView}
    (hv : v' = ((Draft.ofStore now).tick time).commit.view) :
    Chronicle s v' (notices ++
      if now.view.currentSlot < v'.currentSlot then [.slotBegan v'.currentSlot] else []) := by
  have hTree : SameTree now.view v' := by
    have hTick := (Draft.ofStore now).tick_sameTree time
    rw [Draft.ofStore_view] at hTick
    rw [hv]
    exact hTick.trans (Draft.commit_sameChain _).sameTree
  have hTime : now.view.time ≤ v'.time := by
    rw [hv, Draft.commit_view, ← Draft.ofStore_view now]
    exact (Draft.ofStore now).time_le_tick time
  exact h.ticked hTree (currentSlot_le (by rw [hTree]) (by rw [hTree]) hTime)

/-- **A block** that is imported and committed. -/
theorem of_import [HashFunction] {t : StateTransition} {now : Store} {d : Draft}
    (h : Chronicle s now.view notices)
    (hImport : (Draft.ofStore now).importBlock t b = (.ok (.imported root), d)) :
    Chronicle s d.commit.view (notices ++ [.blockImported root]) := by
  obtain ⟨parentState, state, hAdmitted, -, hView⟩ := Draft.importBlock_imported hImport
  rw [Draft.ofStore_view] at hAdmitted hView
  obtain ⟨-, hFresh, hParent, -⟩ := admitBlock_eq_fresh.mp hAdmitted
  have hTree : SameTree (now.view.withBlock root b state) d.commit.view :=
    hView.sameTree.trans d.commit_sameChain.sameTree
  have hClock : SameClock now.view d.commit.view :=
    (SameClock.of_imported hView).trans (.of_sameChain d.commit_sameChain)
  exact h.imported hFresh (h.tree.known_of_state hParent) hTree hClock.currentSlot

end Chronicle

end StoreView

/-! ## Tasks -/

/-- What others will be told by a task. -/
def Task.news : Task → List Notice
  | .announceSlot previous current => if previous < current then [.slotBegan current] else []
  | .tellImported root => [.blockImported root]
  | _ => []

namespace Engine

open StoreView

variable [HashFunction] [SignatureScheme] {t : StateTransition} {e : Engine}

/-- What others see of a task: nothing that they are told of, or that they are told of something,
or a commit, the news of which comes second among the tasks that follow. -/
inductive Shown (t : StateTransition) (e : Engine) : Task → Run → List Task → Prop
  | still {task : Task} {run : Run} {next : List Task} (hStill : Still e run)
    (hTask : task.news = []) (hNext : ∀ task' ∈ next, task'.news = []) : Shown t e task run next
  | told {task : Task} {notice : Notice} (hTask : task.news = [notice]) :
    Shown t e task ⟨e.notify notice, none⟩ []
  | imported {b : PendingBlock} {queue : List PendingBlock} {root : Root} {d : Draft}
    (hImport : (Draft.ofStore e.store).importBlock t b.block = (.ok (.imported root), d)) :
    Shown t e (.importBlocks (b :: queue)) ⟨(e.publish d).record (.blockImported b.block), none⟩
      [.afterImport root b.block, .tellImported root, .releaseFor root queue]
  | ticked {time : UInt64} {e' : Engine} (he' : e' = e.publish ((Draft.ofStore e.store).tick time)) :
    Shown t e (.tick time) ⟨e', none⟩
      [.refreshHead, .announceSlot e.store.view.currentSlot e'.store.view.currentSlot,
        .releaseBlocks e'.store.view.currentSlot, .releaseUntilTick]

theorem shown_importBlocks (queue : List PendingBlock) :
    Shown t e (.importBlocks queue) ((Task.importBlocks queue).perform t e).1
      ((Task.importBlocks queue).perform t e).2 := by
  cases queue with
  | nil => exact .still (.refl e none) rfl (by simp [Task.perform])
  | cons b queue =>
    rcases hImport : (Draft.ofStore e.store).importBlock t b.block with ⟨result, d⟩
    rw [Task.perform, hImport]
    rcases result with (reason | reason) | root | root
    · exact .still ⟨SameChain.refl _, rfl⟩ rfl (by simp)
    · exact .still (.delayOrRefuseBlock b reason (e.abandon d)) rfl (by simp [Task.news])
    · exact .imported hImport
    · exact .still ⟨SameChain.refl _, rfl⟩ rfl (by simp [Task.news])

/-- **One task**, as far as others are told of what it does. -/
theorem shown_perform (t : StateTransition) (e : Engine) (task : Task) :
    Shown t e task (task.perform t e).1 (task.perform t e).2 := by
  cases task with
  | tick time => exact .ticked rfl
  | announceSlot previous current =>
    rw [Task.perform, announceSlot]
    split
    · rename_i hLater
      exact .told (by rw [Task.news, if_pos hLater])
    · rename_i hNotLater
      exact .still (.refl e none) (by rw [Task.news, if_neg hNotLater]) (by simp)
  | importBlocks queue => exact shown_importBlocks queue
  | tellImported root => exact .told rfl
  | refreshHead => exact .still (.refreshHead e) rfl (by simp [Task.perform])
  | releaseBlocks slot => exact .still (.refl e none) rfl (by simp [Task.perform, Task.news])
  | releaseUntilTick => exact .still (.releaseUntilTick e) rfl (by simp [Task.perform])
  | afterImport root block => exact .still (.afterImport root block e) rfl (by simp [Task.perform])
  | releaseFor root queue =>
    exact .still (.releaseAttestations root { e with
      waiting := (e.waiting.takeUntilParent root).2 }) rfl (by simp [Task.perform, Task.news])
  | burst attestations =>
    exact .still (.processAttestations attestations e) rfl (by simp [Task.perform])
  | justified checkpoint =>
    exact .still (.adoptJustified checkpoint e) rfl (by simp [Task.perform])

end Engine

/-! ## A mutator at work -/

namespace Mutator

open Notice StoreView

/-- What others have been told, and what they will be told by the tasks that there are. -/
def news (m : Mutator) : List Notice :=
  m.notices ++ m.tasks.flatMap Task.news

/-- At most one task has news, and before it there is at most the one in which the head is looked
for. -/
inductive Agenda : List Task → Prop
  | first {tasks : List Task} (h : ∀ task ∈ tasks.drop 1, task.news = []) : Agenda tasks
  | afterTick {tasks : List Task} (h : ∀ task ∈ tasks.drop 1, task.news = []) :
    Agenda (.refreshHead :: tasks)
  | afterImport {root : Root} {block : Block} {tasks : List Task}
    (h : ∀ task ∈ tasks.drop 1, task.news = []) : Agenda (.afterImport root block :: tasks)

theorem flatMap_news_eq_nil {tasks : List Task} (h : ∀ task ∈ tasks, task.news = []) :
    tasks.flatMap Task.news = [] :=
  List.flatMap_eq_nil_iff.mpr h

/-- What others have been told and will be told fits what they can read. -/
structure Orderly (s : Store) (m : Mutator) : Prop where
  agenda : Agenda m.tasks
  chronicle : Chronicle s m.view m.news

variable {s : Store} {m m' : Mutator} {e : Engine} {run : Run} {task : Task}
  {next rest : List Task}

theorem news_cons (run : Run) (task : Task) (rest : List Task) :
    news ⟨run, task :: rest⟩ = run.engine.notices ++ (task.news ++ rest.flatMap Task.news) :=
  rfl

/-- At rest nothing is owed. -/
theorem news_at_rest (run : Run) : news ⟨run, []⟩ = run.engine.notices :=
  List.append_nil _

theorem news_append (run : Run) (next rest : List Task) :
    news ⟨run, next ++ rest⟩ =
      run.engine.notices ++ (next.flatMap Task.news ++ rest.flatMap Task.news) := by
  rw [news, List.flatMap_append]
  rfl

/-- The rest has no news if the task is not one in which the head is looked for. -/
theorem Agenda.rest_eq_nil (h : Agenda (task :: rest)) (hHead : task ≠ .refreshHead)
    (hImport : ∀ root block, task ≠ .afterImport root block) :
    rest.flatMap Task.news = [] := by
  cases h with
  | first hRest => exact flatMap_news_eq_nil hRest
  | afterTick => exact absurd rfl hHead
  | afterImport => exact absurd rfl (hImport _ _)

section

variable [HashFunction] [SignatureScheme] {t : StateTransition}

theorem work_at_rest (t : StateTransition) (h : m.tasks = []) : m.work t = m := by
  obtain ⟨⟨e, _ | failure⟩, tasks⟩ := m <;> cases h <;> rfl

/-- What follows a task comes before the rest, and the rest has no news unless the task is one in
which the head is looked for. -/
theorem Agenda.perform (h : Agenda (task :: rest)) (t : StateTransition) (e : Engine) :
    Agenda ((task.perform t e).2 ++ rest) := by
  cases h with
  | first hRest =>
    have hRest : ∀ task ∈ rest, task.news = [] := hRest
    have hShown := Engine.shown_perform t e task
    generalize (task.perform t e).1 = run at hShown
    generalize (task.perform t e).2 = next at hShown ⊢
    cases hShown with
    | still _ _ hNext =>
      -- Neither what follows nor the rest has news.
      refine .first fun task' hMem => ?_
      rcases List.mem_append.mp (List.mem_of_mem_drop hMem) with hMem | hMem
      · exact hNext task' hMem
      · exact hRest task' hMem
    | told => exact .first fun task' hMem => hRest task' (List.mem_of_mem_drop hMem)
    | imported =>
      -- The head is looked for before the news is told.
      refine .afterImport fun task' hMem => ?_
      rcases List.mem_cons.mp hMem with rfl | hMem
      · rfl
      · exact hRest task' hMem
    | ticked =>
      refine .afterTick fun task' hMem => ?_
      rcases List.mem_cons.mp hMem with rfl | hMem
      · rfl
      · rcases List.mem_cons.mp hMem with rfl | hMem
        · rfl
        · exact hRest task' hMem
  | afterTick hRest => exact .first hRest
  | afterImport hRest => exact .first hRest

/-- **One task** leaves what has been told and will be told as it is, or it adds to it. -/
theorem Orderly.work (h : Orderly s m) (t : StateTransition) :
    Orderly s (m.work t) ∧ m.news <+: (m.work t).news := by
  obtain ⟨⟨e, _ | failure⟩, _ | ⟨task, rest⟩⟩ := m
  · exact ⟨h, List.prefix_rfl⟩
  · rw [work_cons]
    obtain ⟨hAgenda, hChronicle⟩ := h
    have hNext := hAgenda.perform t e
    have hShown := Engine.shown_perform t e task
    generalize (task.perform t e).1 = run at hShown ⊢
    generalize (task.perform t e).2 = next at hShown hNext ⊢
    suffices hNews : Chronicle s run.engine.store.view (news ⟨run, next ++ rest⟩) ∧
        news ⟨⟨e, none⟩, task :: rest⟩ <+: news ⟨run, next ++ rest⟩ from
      ⟨⟨hNext, hNews.1⟩, hNews.2⟩
    have hChronicle : Chronicle s e.store.view (news ⟨⟨e, none⟩, task :: rest⟩) := hChronicle
    rw [news_cons] at hChronicle ⊢
    rw [news_append]
    cases hShown with
    | still hStill hTask hQuiet =>
      -- What has been told and what is owed are as before, and so is the chain.
      rw [flatMap_news_eq_nil hQuiet, ← hTask, hStill.2]
      exact ⟨hChronicle.of_sameChain hStill.1, List.prefix_rfl⟩
    | @told _ notice hTask =>
      -- What was owed has been told.
      have hSame : (e.notify notice).notices ++ ([].flatMap Task.news ++ rest.flatMap Task.news) =
          e.notices ++ (task.news ++ rest.flatMap Task.news) := by
        rw [hTask]
        exact List.append_assoc e.notices [notice] _
      rw [hSame]
      exact ⟨hChronicle, List.prefix_rfl⟩
    | @imported b queue root d hImport =>
      -- Nothing was owed when the block was committed, so it is the next one in the chronicle.
      rw [hAgenda.rest_eq_nil (by simp) (by simp)] at hChronicle ⊢
      have hOld : Chronicle s e.store.view e.notices := by
        simpa [Task.news] using hChronicle
      exact ⟨hOld.of_import hImport, by simp [Task.news, Engine.record, Engine.publish]⟩
    | @ticked time e' he' =>
      rw [hAgenda.rest_eq_nil (by simp) (by simp)] at hChronicle ⊢
      have hOld : Chronicle s e.store.view e.notices := by
        simpa [Task.news] using hChronicle
      have hNotices : e'.notices = e.notices := by
        rw [he']
        rfl
      have hAdded := hOld.of_tick time (congrArg (fun e => e.store.view) he')
      refine ⟨?_, by simp [Task.news, hNotices]⟩
      simpa [Task.news, hNotices] using hAdded
  · exact ⟨h, List.prefix_rfl⟩
  · exact ⟨h, List.prefix_rfl⟩

/-- **Others are told of what they can read.** When they are told of a block, it is in the store
already, and when they are told of a slot, it is the present one. -/
theorem Orderly.told (h : Orderly s m) (t : StateTransition) :
    (m.work t).notices = m.notices ∨ ∃ notice, (m.work t).notices = m.notices ++ [notice] ∧
      (m.work t).view = m.view ∧ notice.Suits m.view := by
  obtain ⟨⟨e, _ | failure⟩, _ | ⟨task, rest⟩⟩ := m
  · exact Or.inl rfl
  · rw [work_cons]
    obtain ⟨hAgenda, hChronicle⟩ := h
    have hShown := Engine.shown_perform t e task
    have hChronicle : Chronicle s e.store.view (news ⟨⟨e, none⟩, task :: rest⟩) := hChronicle
    rw [news_cons] at hChronicle
    generalize (task.perform t e).1 = run at hShown ⊢
    generalize (task.perform t e).2 = next at hShown ⊢
    cases hShown with
    | still hStill => exact Or.inl hStill.2
    | imported => exact Or.inl rfl
    | ticked he' =>
      left
      rw [he']
      rfl
    | @told _ notice hTask =>
      refine Or.inr ⟨notice, rfl, rfl, ?_⟩
      -- The head is looked for without news, so nothing else is owed.
      have hHead : task ≠ .refreshHead := by
        rintro rfl
        cases hTask
      have hImport : ∀ root block, task ≠ .afterImport root block := by
        rintro root block rfl
        cases hTask
      rw [hTask, hAgenda.rest_eq_nil hHead hImport, List.append_nil] at hChronicle
      cases notice with
      | blockImported root =>
        have hTold : root ∈ blocks (e.notices ++ [.blockImported root]) := by simp
        exact ((hChronicle.mem_blocks root).mp hTold).2
      | slotBegan slot =>
        have hLast := hChronicle.current
        rw [slots_append, slots_slot, ← List.cons_append, List.getLast?_concat] at hLast
        exact Option.some.inj hLast
  · exact Or.inl rfl
  · exact Or.inl rfl

theorem Orderly.reaches (h : Orderly s m) (hReaches : m.Reaches t m') :
    Orderly s m' ∧ m.news <+: m'.news := by
  obtain ⟨n, rfl⟩ := hReaches
  -- The induction is on the number of tasks, from the first one on.
  induction n generalizing m with
  | zero => exact ⟨h, List.prefix_rfl⟩
  | succ n ih =>
    obtain ⟨hNext, hMore⟩ := h.work t
    obtain ⟨hEnd, hRest⟩ := ih hNext
    exact ⟨hEnd, hMore.trans hRest⟩

/-! ## The moments of a run -/

/-- The moments of a run: it has just begun with a store, a task has been done, or a message has
been taken when there was nothing left to do. -/
inductive Moment (t : StateTransition) (s : Store) : List Delivery → Mutator → Prop
  | start : Moment t s [] ⟨⟨{ store := s }, none⟩, [.refreshHead]⟩
  | work {deliveries : List Delivery} {m : Mutator} (h : Moment t s deliveries m) :
    Moment t s deliveries (m.work t)
  | deliver {deliveries : List Delivery} {m : Mutator} (h : Moment t s deliveries m)
    (hRests : m.tasks = []) (hRuns : m.run.failure = none) (x : Delivery) :
    Moment t s (deliveries ++ [x]) { m with tasks := [x.task] }

namespace Moment

variable {deliveries more : List Delivery}

theorem reaches (h : Moment t s deliveries m) (hReaches : m.Reaches t m') :
    Moment t s deliveries m' := by
  obtain ⟨n, rfl⟩ := hReaches
  induction n generalizing m with
  | zero => exact h
  | succ n ih => exact ih h.work

omit [SignatureScheme] in
/-- A store that begins with a trusted block knows no other. -/
theorem chronicle_start (hs : s.IsAnchored) : Chronicle s s.view [] := by
  have hTree := rooted_of_anchored hs
  have hAlone : ∀ {r block}, s.view.block? r = some block → r = s.view.anchorRoot := by
    obtain ⟨block, state, hAnchor⟩ := hs
    obtain ⟨root, -, -, -, -, time, -, hStore⟩ := Store.ofAnchor_eq_ok.mp hAnchor
    intro r block' hKnown
    rw [← hStore, singleton_block?] at hKnown
    rw [← hStore]
    by_cases hr : root = r
    · exact hr.symm
    · rw [if_neg hr] at hKnown
      cases hKnown
  exact {
    tree := hTree
    anchorRoot := rfl
    once := List.nodup_nil
    mem_blocks := by
      intro r
      refine ⟨fun h => absurd h List.not_mem_nil, ?_⟩
      rintro ⟨hNe, block, hKnown⟩
      exact absurd (hAlone hKnown) hNe
    parent_first := by
      intro c p hParent
      obtain ⟨hNe, block, hKnown, -⟩ := parent?_eq_some.mp hParent
      exact absurd (hAlone hKnown) hNe
    ascending := List.pairwise_singleton _ _
    current := rfl }

/-- **The invariant** holds at all moments of a run. -/
theorem orderly (hs : s.IsAnchored) (h : Moment t s deliveries m) :
    Orderly s m := by
  induction h with
  | start => exact ⟨.first (by simp), chronicle_start hs⟩
  | work _ ih => exact (ih.work t).1
  | @deliver _ m _ hRests _ x ih =>
    -- A message brings no news by itself.
    have hNews : x.task.news = [] := by
      cases x <;> rfl
    refine ⟨.first (by simp), ?_⟩
    have hChronicle := ih.chronicle
    rw [news, hRests] at hChronicle
    show Chronicle _ m.view (m.notices ++ (x.task.news ++ []))
    rw [hNews]
    exact hChronicle

/-- A run that does not fail comes to rest after each message. -/
theorem of_run (hOk : (Engine.runFrom t s deliveries).failure = none) :
    Moment t s deliveries ⟨Engine.runFrom t s deliveries, []⟩ := by
  induction deliveries using List.reverseRecOn with
  | nil => exact .work .start
  | append_singleton deliveries x ih =>
    rw [Engine.runFrom_concat] at hOk ⊢
    have hBefore := (Run.andThen_ok hOk).1
    rw [Run.andThen_of_ok hBefore] at hOk ⊢
    have hRests := ih hBefore
    generalize Engine.runFrom t s deliveries = run at hOk hBefore hRests ⊢
    obtain ⟨e, failure⟩ := run
    cases hBefore
    obtain ⟨left, hReaches, hLeft⟩ := Engine.handled_by_tasks t e x []
    rw [hLeft hOk] at hReaches
    exact (Moment.deliver hRests rfl rfl x).reaches hReaches

/-- From each moment on a run that does not fail comes to rest as it does at once. -/
theorem reaches_end (h : Moment t s deliveries m)
    (hOk : (Engine.runFrom t s deliveries).failure = none) :
    m.Reaches t ⟨Engine.runFrom t s deliveries, []⟩ := by
  induction h with
  | start => exact ⟨1, rfl⟩
  | @work deliveries m h ih =>
    -- As many tasks lead from the next moment to the end: one more at rest does nothing.
    obtain ⟨n, hn⟩ := ih hOk
    refine ⟨n, ?_⟩
    rw [← Function.iterate_succ_apply, Function.iterate_succ_apply', hn]
    exact work_at_rest t rfl
  | @deliver deliveries m h hRests hRuns x ih =>
    rw [Engine.runFrom_concat] at hOk ⊢
    have hBefore := (Run.andThen_ok hOk).1
    rw [Run.andThen_of_ok hBefore] at hOk ⊢
    -- The mutator is at rest, so it is where the run has come to rest.
    have hSame : m = ⟨Engine.runFrom t s deliveries, []⟩ := by
      obtain ⟨n, hn⟩ := ih hBefore
      rw [← hn, Function.iterate_fixed (work_at_rest t hRests)]
    rw [hSame] at hRuns ⊢
    generalize Engine.runFrom t s deliveries = run at hOk hRuns ⊢
    obtain ⟨e, failure⟩ := run
    cases hRuns
    obtain ⟨left, hReaches, hLeft⟩ := Engine.handled_by_tasks t e x []
    rw [hLeft hOk] at hReaches
    exact hReaches

/-- What is owed at some moment has been told in the end. -/
theorem news_prefix (hs : s.IsAnchored) (h : Moment t s deliveries m)
    (hOk : (Engine.runFrom t s (deliveries ++ more)).failure = none) :
    m.news <+: (Engine.runFrom t s (deliveries ++ more)).engine.notices := by
  induction more using List.reverseRecOn with
  | nil =>
    rw [List.append_nil] at hOk ⊢
    have hMore := ((h.orderly hs).reaches (h.reaches_end hOk)).2
    rwa [news_at_rest] at hMore
  | append_singleton more x ih =>
    rw [← List.append_assoc, Engine.runFrom_concat] at hOk
    have hBefore := (Run.andThen_ok hOk).1
    rw [← Engine.runFrom_concat] at hOk
    rw [← List.append_assoc]
    have hDelivered := Moment.deliver (of_run hBefore) rfl hBefore x
    have hMore := ((hDelivered.orderly hs).reaches (hDelivered.reaches_end hOk)).2
    rw [news_at_rest] at hMore
    exact (ih hBefore).trans ((List.prefix_append _ _).trans hMore)

end Moment

end

end Mutator

namespace Engine

open Mutator

section

variable [HashFunction] [SignatureScheme] {s : Store}

/-- **What those who verify attestations are told** in a run that does not fail. They are told of
each block that is in the store in the end, but not of the anchor, exactly once, of no other block,
and of its parent before. Slots come in order. Whatever the present slot is at any moment, they are
told of it unless it is the one at the beginning. And whenever they are told of something, it can be
read already, and the store does not change: the block is in it, and the slot is the present one. -/
theorem notices_of_run (t : StateTransition) (hs : s.IsAnchored) (deliveries : List Delivery)
    (hOk : (runFrom t s deliveries).failure = none) :
    let e := (runFrom t s deliveries).engine
    ((Notice.blocks e.notices).Nodup ∧ ∀ r, r ∈ Notice.blocks e.notices ↔
      r ≠ s.anchorRoot ∧ ∃ block, e.store.view.block? r = some block) ∧
    (∀ r block, e.store.view.block? r = some block → r ≠ s.anchorRoot →
      block.parentRoot ≠ s.anchorRoot →
        [block.parentRoot, r].Sublist (Notice.blocks e.notices)) ∧
    (Notice.slots e.notices).Pairwise (· < ·) ∧
    Moment t s deliveries ⟨⟨e, none⟩, []⟩ ∧
    ∀ n m, Moment t s (deliveries.take n) m →
      (m.view.currentSlot = s.view.currentSlot ∨ .slotBegan m.view.currentSlot ∈ e.notices) ∧
      ((m.work t).notices = m.notices ∨ ∃ notice, (m.work t).notices = m.notices ++ [notice] ∧
        (m.work t).view = m.view ∧ notice.Suits m.view) := by
  intro e
  have hEnd := Moment.of_run hOk
  have hRun : runFrom t s deliveries = ⟨e, none⟩ := by
    show runFrom t s deliveries = ⟨(runFrom t s deliveries).engine, none⟩
    rw [← hOk]
  rw [hRun] at hEnd
  have hChronicle := (hEnd.orderly hs).chronicle
  rw [news_at_rest] at hChronicle
  have hView : Mutator.view ⟨⟨e, none⟩, []⟩ = e.store.view := rfl
  rw [hView] at hChronicle
  refine ⟨⟨hChronicle.once, ?_⟩, ?_, (List.pairwise_cons.mp hChronicle.ascending).2, hEnd, ?_⟩
  · intro r
    rw [← hChronicle.anchorRoot]
    exact hChronicle.mem_blocks r
  · intro r block hKnown hNe hParent
    rw [← hChronicle.anchorRoot] at hNe hParent
    exact hChronicle.parent_first (StoreView.parent?_eq hKnown hNe) hParent
  · intro n m hMoment
    have hOrderly := hMoment.orderly hs
    refine ⟨?_, hOrderly.told t⟩
    -- What is owed at this moment has been told in the end.
    have hTold : m.news <+: e.notices := by
      have hAll : (runFrom t s (deliveries.take n ++ deliveries.drop n)).failure = none := by
        rwa [List.take_append_drop]
      have hMore := hMoment.news_prefix hs hAll
      rwa [List.take_append_drop] at hMore
    have hCurrent := List.mem_of_getLast? hOrderly.chronicle.current
    rcases List.mem_cons.mp hCurrent with hFirst | hLater
    · exact Or.inl hFirst
    · exact Or.inr (hTold.subset (Notice.mem_of_mem_slots hLater))

end

/-- In a small network a block waits for its parent, which waits for its slot. Others are told of two
slots and of both blocks, once and in order, and in the end of the present slot. -/
theorem notices_of_tooEarly :
    letI : HashFunction := linearHash
    letI : SignatureScheme := Bls.scheme
    ∃ n : ChainedNetwork, chainedNetwork = some n ∧ n.store.IsAnchored ∧
      let run := runFrom (slotTransition n.store.preset) n.store n.tooEarly
      let notices := run.engine.notices
      run.failure = none ∧ Notice.slots notices = [1, 2] ∧ (Notice.slots notices).Pairwise (· < ·) ∧
        ∃ root, n.second.treeRoot = .ok root ∧
          Notice.blocks notices = [n.second.parentRoot, root] ∧ (Notice.blocks notices).Nodup ∧
            Moment (slotTransition n.store.preset) n.store n.tooEarly ⟨⟨run.engine, none⟩, []⟩ := by
  let : HashFunction := linearHash
  let : SignatureScheme := Bls.scheme
  have hRuns : (chainedNetwork.any fun n =>
      let run := runFrom (slotTransition n.store.preset) n.store n.tooEarly
      run.failure.isNone && Notice.slots run.engine.notices = [1, 2] &&
        n.second.treeRoot.toOption.any fun root =>
          Notice.blocks run.engine.notices = [n.second.parentRoot, root]) = true := by
    decide +kernel
  obtain ⟨n, hNetwork, hGenesis, hRun⟩ := exists_chainedNetwork hRuns
  simp only [Bool.and_eq_true, Option.isNone_iff_eq_none, decide_eq_true_eq, Option.any_eq_true]
    at hRun
  obtain ⟨⟨hOk, hSlots⟩, root, hRoot, hBlocks⟩ := hRun
  have hs := hGenesis.isAnchored
  obtain ⟨⟨hOnce, -⟩, -, hAscending, hEnd, -⟩ := notices_of_run _ hs n.tooEarly hOk
  exact ⟨n, hNetwork, hs, hOk, hSlots, hAscending, root, toOption_eq_some.mp hRoot, hBlocks, hOnce,
    hEnd⟩

end Engine

end ForkChoice
