import ForkChoice.Proofs.Engine.Waiting
import ForkChoice.Proofs.Groups
import ForkChoice.Proofs.Ledger

/-!
# ForkChoice — how long things wait

Blocks and attestations begin to wait and go on in any order of operations. What waits is told apart
by the number of the operation with which it has begun to wait. It waits until the first operation
that covers it, and is returned by this one. This is all that the four queues have to do with each
other: they could as well be one list, of which an operation takes what it covers.

* `Entry`, `Operation` — what waits, and what is done, `after`, `returned` — what operations leave
  and return;
* `Shows`, `shows_perform` — the queues as parts of one list, and one operation on both;
* `ledger`, `shows_after` — any operations, by the ledger of the list;
* `LeavesAt`, `WaitsAt` — when something that has begun to wait goes on, and how long it waits;
  `mem_ledger_leaving`, `mem_ledger_before` — the ledger tells this.
-/

namespace ForkChoice.Waiting

/-! ## Operations -/

/-- Something that waits, with what it waits for. -/
inductive Entry where
  | blockUntilSlot (b : PendingBlock)
  | blockUntilParent (b : PendingBlock)
  | attestationUntilTick (a : ReceivedAttestation)
  | attestationUntilBlock (root : Root) (a : ReceivedAttestation)

/-- What something may wait for. -/
inductive Occasion where
  | slot (slot : Slot)
  | parent (root : Root)
  | tick
  | block (root : Root)

/-- Something begins to wait, or goes on. -/
inductive Operation where
  | delay (e : Entry)
  | take (o : Occasion)

namespace Entry

/-- The slot of a block or of a vote. -/
def slot : Entry → Slot
  | .blockUntilSlot b => b.block.slot
  | .blockUntilParent b => b.block.slot
  | .attestationUntilTick a => a.data.slot
  | .attestationUntilBlock _ a => a.data.slot

/-- Whether a block waits. -/
def isBlock : Entry → Bool
  | .blockUntilSlot _ => true
  | .blockUntilParent _ => true
  | .attestationUntilTick _ => false
  | .attestationUntilBlock _ _ => false

end Entry

/-- The entries of one kind, as what they are made of. -/
structure Kind (β : Type) where
  make : β → Entry
  get? : Entry → Option β
  make_eq : ∀ {e : Entry} {x : β}, get? e = some x → make x = e

namespace Kind

def blockUntilSlot : Kind PendingBlock where
  make := .blockUntilSlot
  get?
    | .blockUntilSlot b => some b
    | _ => none
  make_eq {e x} h := by
    cases e <;> cases h
    rfl

def blockUntilParent : Kind PendingBlock where
  make := .blockUntilParent
  get?
    | .blockUntilParent b => some b
    | _ => none
  make_eq {e x} h := by
    cases e <;> cases h
    rfl

def attestationUntilTick : Kind ReceivedAttestation where
  make := .attestationUntilTick
  get?
    | .attestationUntilTick a => some a
    | _ => none
  make_eq {e x} h := by
    cases e <;> cases h
    rfl

def attestationUntilBlock : Kind (Root × ReceivedAttestation) where
  make p := .attestationUntilBlock p.1 p.2
  get?
    | .attestationUntilBlock root a => some (root, a)
    | _ => none
  make_eq {e x} h := by
    cases e <;> cases h
    rfl

end Kind

/-- Whether something has waited for an occasion. -/
def Occasion.covers : Occasion → Entry → Bool
  | .slot last, .blockUntilSlot b => b.block.slot ≤ last
  | .parent root, .blockUntilParent b => b.block.parentRoot = root
  | .tick, .attestationUntilTick _ => true
  | .block root, .attestationUntilBlock root' _ => root' = root
  | _, _ => false

namespace Operation

/-- What begins to wait. -/
def begins? : Operation → Option Entry
  | .delay e => some e
  | .take _ => none

/-- Whether something goes on if it waits. -/
def covers : Operation → Entry → Bool
  | .delay _, _ => false
  | .take o, e => o.covers e

end Operation

/-- Something begins to wait. -/
def delay (w : Waiting) : Entry → Waiting
  | .blockUntilSlot b => w.delayUntilSlot b
  | .blockUntilParent b => w.delayUntilParent b
  | .attestationUntilTick a => w.delayUntilTick a
  | .attestationUntilBlock root a => w.delayUntilBlock root a

/-- What has waited for an occasion goes on. -/
def take (w : Waiting) : Occasion → List Entry × Waiting
  | .slot slot => Prod.map (List.map .blockUntilSlot) id (w.takeUntilSlot slot)
  | .parent root => Prod.map (List.map .blockUntilParent) id (w.takeUntilParent root)
  | .tick => Prod.map (List.map .attestationUntilTick) id w.takeUntilTick
  | .block root => Prod.map (List.map (.attestationUntilBlock root)) id (w.takeUntilBlock root)

/-- Carries out an operation: what it returns, and what still waits. -/
def perform (w : Waiting) : Operation → List Entry × Waiting
  | .delay e => ([], w.delay e)
  | .take o => w.take o

/-- What waits after so many operations of a sequence, when nothing has waited before. Every finite
sequence is the beginning of an endless one. -/
def after (ops : Nat → Operation) : Nat → Waiting
  | 0 => {}
  | n + 1 => ((after ops n).perform (ops n)).2

/-- What an operation of a sequence returns. -/
def returned (ops : Nat → Operation) (n : Nat) : List Entry :=
  ((after ops n).perform (ops n)).1

variable {w : Waiting} {e : Entry} {es : List Entry} {o : Occasion} {op : Operation}
  {ops : Nat → Operation} {i n : Nat}

/-! ## One list -/

/-- The queues are the parts of one list, one for each kind. -/
structure Shows (es : List Entry) (w : Waiting) : Prop where
  untilSlot : w.blocksUntilSlot = es.filterMap Kind.blockUntilSlot.get?
  untilParent : w.blocksUntilParent = es.filterMap Kind.blockUntilParent.get?
  untilTick : w.attestationsUntilTick = es.filterMap Kind.attestationUntilTick.get?
  untilBlock : w.attestationsUntilBlock = es.filterMap Kind.attestationUntilBlock.get?

/-- The same entries in the order of slots, and those of one slot in the given order. -/
structure InSlotOrder (due out : List Entry) : Prop where
  ascending : out.Pairwise fun e e' => e.slot ≤ e'.slot
  sameSlot : ∀ slot, (out.filter fun e => e.slot = slot) = due.filter fun e => e.slot = slot

/-- The order in which an operation returns what goes on, given in the order of arrival. -/
def Operation.Arranges : Operation → List Entry → List Entry → Prop
  | .take (.slot _), due, out => InSlotOrder due out
  | _, due, out => out = due

/-- What begins to wait does so at the end of the queue of its kind. -/
theorem delay_eq (w : Waiting) (e : Entry) :
    w.delay e =
      { blocksUntilSlot := w.blocksUntilSlot ++ (Kind.blockUntilSlot.get? e).toList
        blocksUntilParent := w.blocksUntilParent ++ (Kind.blockUntilParent.get? e).toList
        attestationsUntilTick :=
          w.attestationsUntilTick ++ (Kind.attestationUntilTick.get? e).toList
        attestationsUntilBlock :=
          w.attestationsUntilBlock ++ (Kind.attestationUntilBlock.get? e).toList } := by
  cases e <;>
    simp [delay, delayUntilSlot, delayUntilParent, delayUntilTick, delayUntilBlock,
      Kind.blockUntilSlot, Kind.blockUntilParent, Kind.attestationUntilTick,
      Kind.attestationUntilBlock]

/-- What is not covered by an occasion still waits after it, in all queues. -/
theorem take_rest_eq (w : Waiting) (o : Occasion) :
    (w.take o).2 =
      { blocksUntilSlot :=
          w.blocksUntilSlot.filter fun b => !o.covers (Kind.blockUntilSlot.make b)
        blocksUntilParent :=
          w.blocksUntilParent.filter fun b => !o.covers (Kind.blockUntilParent.make b)
        attestationsUntilTick :=
          w.attestationsUntilTick.filter fun a => !o.covers (Kind.attestationUntilTick.make a)
        attestationsUntilBlock :=
          w.attestationsUntilBlock.filter fun p =>
            !o.covers (Kind.attestationUntilBlock.make p) } := by
  -- An occasion covers one kind of entries only, so that the other queues stay as they are.
  cases o <;>
    simp [take, takeUntilSlot, takeUntilParent, takeUntilTick, takeUntilBlock, Occasion.covers,
      Kind.blockUntilSlot, Kind.blockUntilParent, Kind.attestationUntilTick,
      Kind.attestationUntilBlock, List.partition_eq_filter_filter, Function.comp_def]

namespace Kind

variable {β : Type}

/-- Leaving entries out of a list is leaving them out of each of its parts. -/
theorem filterMap_filter (kind : Kind β) (keeps : Entry → Bool) (es : List Entry) :
    (es.filter keeps).filterMap kind.get? =
      (es.filterMap kind.get?).filter fun x => keeps (kind.make x) := by
  rw [List.filterMap_filter, List.filter_filterMap]
  refine List.filterMap_congr fun e _ => ?_
  cases hKind : kind.get? e with
  | none => simp
  | some x => rw [Option.filter_some, kind.make_eq hKind]

/-- Entries that are all of one kind can be made again. -/
theorem map_filterMap (kind : Kind β) {es : List Entry} (h : ∀ e ∈ es, (kind.get? e).isSome) :
    (es.filterMap kind.get?).map kind.make = es := by
  induction es with
  | nil => rfl
  | cons e rest ih =>
    rw [List.forall_mem_cons] at h
    obtain ⟨x, hx⟩ := Option.isSome_iff_exists.mp h.1
    rw [List.filterMap_cons_some hx, List.map_cons, kind.make_eq hx, ih h.2]

/-- Taking entries of one kind from a list is taking them from one of its parts. -/
theorem filter_eq_map (kind : Kind β) (takes : Entry → Bool)
    (hKind : ∀ e, takes e = true → (kind.get? e).isSome) (es : List Entry) :
    es.filter takes =
      ((es.filterMap kind.get?).filter fun x => takes (kind.make x)).map kind.make := by
  rw [← filterMap_filter, map_filterMap kind fun e he => hKind e (List.mem_filter.mp he).2]

end Kind

theorem shows_delay (h : Shows es w) (e : Entry) : Shows (es ++ [e]) (w.delay e) := by
  have hLast : ∀ {β : Type} (kind : Kind β),
      (es ++ [e]).filterMap kind.get? = es.filterMap kind.get? ++ (kind.get? e).toList := by
    intro β kind
    rw [List.filterMap_append]
    cases hKind : kind.get? e <;> simp [hKind]
  rw [delay_eq]
  constructor <;> rw [hLast]
  · rw [h.untilSlot]
  · rw [h.untilParent]
  · rw [h.untilTick]
  · rw [h.untilBlock]

theorem shows_take_rest (h : Shows es w) (o : Occasion) :
    Shows (es.filter fun e => !o.covers e) (w.take o).2 := by
  rw [take_rest_eq]
  constructor <;> rw [Kind.filterMap_filter]
  · rw [h.untilSlot]
  · rw [h.untilParent]
  · rw [h.untilTick]
  · rw [h.untilBlock]

/-- The slot of a block. -/
def slotOf (b : PendingBlock) : Slot := b.block.slot

/-- Blocks go on in the order of their slots. -/
theorem takeUntilSlot_fst (w : Waiting) (slot : Slot) :
    (w.takeUntilSlot slot).1 =
      sortByKey slotOf (w.blocksUntilSlot.filter fun b => b.block.slot ≤ slot) := by
  have hOrder : (fun b b' : PendingBlock => decide (b.block.slot ≤ b'.block.slot)) =
      keyLE slotOf := by
    refine funext fun b => funext fun b' => ?_
    rw [keyLE, Bool.eq_iff_iff, decide_eq_true_eq, Std.isLE_compare]
    rfl
  rw [takeUntilSlot, sortByKey, List.partition_eq_filter_filter, hOrder]

/-- Sorting blocks by their slots keeps the order within each slot. -/
theorem inSlotOrder_sortByKey (blocks : List PendingBlock) :
    InSlotOrder (blocks.map Kind.blockUntilSlot.make)
      ((sortByKey slotOf blocks).map Kind.blockUntilSlot.make) where
  ascending := by
    rw [List.pairwise_map]
    exact (pairwise_sortByKey slotOf blocks).imp fun h => Std.isLE_compare.mp h
  sameSlot slot := by
    rw [List.filter_map, List.filter_map]
    exact congrArg (List.map _) (filter_sortByKey slotOf blocks slot)

/-- **What goes on** at an occasion is what is covered by it. -/
theorem arranges_take (h : Shows es w) (o : Occasion) :
    (Operation.take o).Arranges (es.filter o.covers) (w.take o).1 := by
  cases o with
  | slot slot =>
    rw [Kind.blockUntilSlot.filter_eq_map _ (fun e he => by cases e <;> first | rfl | cases he),
      ← h.untilSlot]
    show InSlotOrder _ ((w.takeUntilSlot slot).1.map _)
    rw [takeUntilSlot_fst]
    exact inSlotOrder_sortByKey _
  | parent root =>
    rw [Kind.blockUntilParent.filter_eq_map _ (fun e he => by cases e <;> first | rfl | cases he),
      ← h.untilParent]
    show (w.takeUntilParent root).1.map _ = _
    rw [takeUntilParent, List.partition_eq_filter_filter]
    rfl
  | tick =>
    rw [Kind.attestationUntilTick.filter_eq_map _
      (fun e he => by cases e <;> first | rfl | cases he), ← h.untilTick]
    exact congrArg (List.map _) (List.filter_eq_self.mpr fun a _ => rfl).symm
  | block root =>
    rw [Kind.attestationUntilBlock.filter_eq_map _
      (fun e he => by cases e <;> first | rfl | cases he), ← h.untilBlock]
    show (w.takeUntilBlock root).1.map _ = _
    rw [takeUntilBlock, List.partition_eq_filter_filter, List.map_map]
    refine List.map_congr_left fun p hp => ?_
    rw [List.mem_filter, decide_eq_true_eq] at hp
    rw [← hp.2]
    rfl

/-- **One operation** returns what it covers, and leaves the rest. -/
theorem shows_perform (h : Shows es w) (op : Operation) :
    op.Arranges ((es ++ op.begins?.toList).filter op.covers) (w.perform op).1 ∧
      Shows ((es ++ op.begins?.toList).filter fun e => !op.covers e) (w.perform op).2 := by
  cases op with
  | delay e =>
    have hNone : (es ++ [e]).filter (Operation.delay e).covers = [] :=
      List.filter_eq_nil_iff.mpr fun _ _ => Bool.false_ne_true
    have hAll : ((es ++ [e]).filter fun e' => !(Operation.delay e).covers e') = es ++ [e] :=
      List.filter_eq_self.mpr fun _ _ => rfl
    rw [Operation.begins?, Option.toList_some, hNone, hAll]
    exact ⟨rfl, shows_delay h e⟩
  | take o =>
    rw [Operation.begins?, Option.toList_none, List.append_nil]
    exact ⟨arranges_take h o, shows_take_rest h o⟩

/-- The numbers of blocks and attestations that wait are those in the list. -/
theorem Shows.counts (h : Shows es w) :
    w.blockCount = (es.filter Entry.isBlock).length ∧
      w.attestationCount = (es.filter fun e => !e.isBlock).length := by
  rw [blockCount, attestationCount, h.untilSlot, h.untilParent, h.untilTick, h.untilBlock]
  simp only [List.length_filterMap_eq_countP, ← List.countP_eq_length_filter]
  clear h
  -- Each entry of the list counts in one of the four queues.
  induction es with
  | nil => exact ⟨rfl, rfl⟩
  | cons e rest ih =>
    obtain ⟨hBlocks, hAttestations⟩ := ih
    simp only [List.countP_cons, ← hBlocks, ← hAttestations]
    cases e <;>
      simp [Entry.isBlock, Kind.blockUntilSlot, Kind.blockUntilParent, Kind.attestationUntilTick,
        Kind.attestationUntilBlock] <;>
      omega

/-! ## Any operations -/

/-- The ledger of what waits: an operation makes all go on that it covers. -/
def ledger (ops : Nat → Operation) : Ledger Entry where
  enters n := (ops n).begins?
  leaves n _ m := (ops n).covers m.2

theorem ledger_free (ops : Nat → Operation) :
    (ledger ops).Free fun n e => (ops n).covers e = true :=
  fun _ _ _ => Iff.rfl

/-- **Any operations** leave what the ledger says, and return it. -/
theorem shows_after (ops : Nat → Operation) (n : Nat) :
    Shows (((ledger ops).before n).map Prod.snd) (after ops n) ∧
      (ops n).Arranges (((ledger ops).leaving n).map Prod.snd) (returned ops n) := by
  have hStep : ∀ {n}, Shows (((ledger ops).before n).map Prod.snd) (after ops n) →
      (ops n).Arranges (((ledger ops).leaving n).map Prod.snd) (returned ops n) ∧
        Shows (((ledger ops).before (n + 1)).map Prod.snd) (after ops (n + 1)) := by
    intro n h
    have hBoth := shows_perform h (ops n)
    -- The numbers of the members make no difference to what an operation covers.
    have hPresent : ((ledger ops).before n).map Prod.snd ++ (ops n).begins?.toList =
        ((ledger ops).before n ++ (ledger ops).entering n).map Prod.snd := by
      rw [List.map_append, Ledger.entering, List.map_map]
      exact congrArg _ (List.map_id _).symm
    rw [hPresent, List.filter_map, List.filter_map] at hBoth
    exact hBoth
  have hShows : ∀ n, Shows (((ledger ops).before n).map Prod.snd) (after ops n) := by
    intro n
    induction n with
    | zero => exact ⟨rfl, rfl, rfl, rfl⟩
    | succ n ih => exact (hStep ih).2
  exact ⟨hShows n, (hStep (hShows n)).1⟩

/-- The entry with which operation `i` has begun to wait goes on at operation `n`: this is the
first one after `i` that covers it. -/
def LeavesAt (ops : Nat → Operation) (i n : Nat) (e : Entry) : Prop :=
  i < n ∧ ops i = .delay e ∧ (ops n).covers e = true ∧
    ∀ k < n, i < k → ¬ (ops k).covers e = true

/-- The entry with which operation `i` has begun to wait still waits before operation `n`: none in
between has covered it. -/
def WaitsAt (ops : Nat → Operation) (i n : Nat) (e : Entry) : Prop :=
  i < n ∧ ops i = .delay e ∧ ∀ k < n, i < k → ¬ (ops k).covers e = true

theorem begins?_eq_some : op.begins? = some e ↔ op = .delay e := by
  cases op <;> simp [Operation.begins?]

/-- Nothing goes on with the operation that makes it wait. -/
theorem forall_covers_iff (h : ops i = .delay e) :
    (∀ k < n, i ≤ k → ¬ (ops k).covers e = true) ↔ ∀ k < n, i < k → ¬ (ops k).covers e = true := by
  refine forall₂_congr fun k _ => ⟨fun hAll hLess => hAll (Nat.le_of_lt hLess), fun hAll hLe => ?_⟩
  rcases Nat.lt_or_eq_of_le hLe with hLess | rfl
  · exact hAll hLess
  · rw [h]
    exact Bool.false_ne_true

theorem mem_ledger_before : (i, e) ∈ (ledger ops).before n ↔ WaitsAt ops i n e := by
  rw [(ledger_free ops).mem_before, WaitsAt]
  refine and_congr_right fun _ => ?_
  show (ops i).begins? = some e ∧ _ ↔ _
  rw [begins?_eq_some]
  exact and_congr_right forall_covers_iff

theorem mem_ledger_leaving : (i, e) ∈ (ledger ops).leaving n ↔ LeavesAt ops i n e := by
  rw [(ledger_free ops).mem_leaving, LeavesAt]
  show i ≤ n ∧ (ops i).begins? = some e ∧ _ ↔ _
  rw [begins?_eq_some]
  constructor
  · rintro ⟨hLe, hDelay, hCovers, hStays⟩
    refine ⟨Nat.lt_of_le_of_ne hLe ?_, hDelay, hCovers, (forall_covers_iff hDelay).mp hStays⟩
    rintro rfl
    rw [hDelay] at hCovers
    exact Bool.false_ne_true hCovers
  · rintro ⟨hLess, hDelay, hCovers, hStays⟩
    exact ⟨Nat.le_of_lt hLess, hDelay, hCovers, (forall_covers_iff hDelay).mpr hStays⟩

end ForkChoice.Waiting
