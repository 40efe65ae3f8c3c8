import ForkChoice.Proofs.Store.Draft

/-!
# ForkChoice — histories of a store

A store changes only by drafts: each takes any number of operations with any arguments, whether
they succeed or fail, and is then committed or given up. What holds of a view, whatever is done
to the draft and at its commit, holds of all stores that come to be and of all open drafts.

* `Change`, `Draft.changeAll` — the operations on a draft;
* `Transaction`, `Store.after` — drafts one after another, `Store.Shows` — what can be read in the
  course of it;
* `Draft.Stable` — a property of views that no operation and no commit destroys;
* `Stable.after`, `Stable.draft`, `Stable.shows` — it holds of every committed store and of every
  open draft.
-/

namespace ForkChoice

/-- An operation on a draft, with any arguments. -/
inductive Change where
  | tick (time : UInt64)
  | block (block : Block)
  | attestation (check : SignatureCheck) (attestation : Attestation)
  | discardVotes

/-- A draft from its beginning to its end, which is a commit unless it is given up. -/
structure Transaction where
  changes : List Change
  commits : Bool

section

variable [HashFunction] [SignatureScheme]

/-- The draft that an operation leaves, also when it fails. -/
def Draft.change (t : StateTransition) (d : Draft) : Change → Draft
  | .tick time => d.tick time
  | .block b => (d.importBlock t b).2
  | .attestation check a => (d.attest t check a).2
  | .discardVotes => d.discardVotes

/-- The draft after operations in order. -/
def Draft.changeAll (t : StateTransition) (d : Draft) (changes : List Change) : Draft :=
  changes.foldl (Draft.change t) d

/-- The store after a draft. -/
def Store.transact (t : StateTransition) (s : Store) (x : Transaction) : Store :=
  if x.commits then ((Draft.ofStore s).changeAll t x.changes).commit else s

/-- The store after drafts one after another. -/
def Store.after (t : StateTransition) (s : Store) (history : List Transaction) : Store :=
  history.foldl (Store.transact t) s

/-- What can be read at some time: a committed store, or an open draft of it. -/
def Store.Shows (t : StateTransition) (s : Store) (v : StoreView) : Prop :=
  ∃ history, v = (s.after t history).view ∨
    ∃ changes, v = ((Draft.ofStore (s.after t history)).changeAll t changes).view

theorem Draft.changeAll_concat (t : StateTransition) (d : Draft) (changes : List Change)
    (c : Change) : d.changeAll t (changes ++ [c]) = (d.changeAll t changes).change t c := by
  rw [changeAll, List.foldl_append]
  rfl

theorem Store.after_concat (t : StateTransition) (s : Store) (history : List Transaction)
    (x : Transaction) : s.after t (history ++ [x]) = (s.after t history).transact t x := by
  rw [after, List.foldl_append]
  rfl

/-! ## What no operation destroys -/

/-- No operation and no commit destroys the property. -/
structure Draft.Stable (t : StateTransition) (P : StoreView → Prop) : Prop where
  change : ∀ (d : Draft) (c : Change), P d.view → P (d.change t c).view
  commit : ∀ d : Draft, P d.view → P d.commit.view

namespace Draft.Stable

variable {t : StateTransition} {P : StoreView → Prop}

theorem importBlock (h : Stable t P) {d d' : Draft} {b : Block}
    {result : Outcome StoreError ImportResult}
    (hImport : d.importBlock t b = (result, d')) (hd : P d.view) : P d'.view := by
  have hChanged := h.change d (.block b) hd
  rwa [Draft.change, hImport] at hChanged

theorem attest (h : Stable t P) {d d' : Draft} {check : SignatureCheck} {a : Attestation}
    {result : Outcome StoreError (List ValidatorIndex)}
    (hAttest : d.attest t check a = (result, d')) (hd : P d.view) : P d'.view := by
  have hChanged := h.change d (.attestation check a) hd
  rwa [Draft.change, hAttest] at hChanged

theorem changeAll (h : Stable t P) {d : Draft} (changes : List Change) (hd : P d.view) :
    P (d.changeAll t changes).view := by
  unfold Draft.changeAll
  induction changes generalizing d with
  | nil => exact hd
  | cons c rest ih => exact ih (h.change d c hd)

/-- A property that no operation destroys holds of an open draft if it holds of the store. -/
theorem draft (h : Stable t P) {s : Store} (changes : List Change) (hs : P s.view) :
    P ((Draft.ofStore s).changeAll t changes).view :=
  h.changeAll changes (by rwa [Draft.ofStore_view])

theorem transact (h : Stable t P) {s : Store} (x : Transaction) (hs : P s.view) :
    P (s.transact t x).view := by
  unfold Store.transact
  split
  · exact h.commit _ (h.draft x.changes hs)
  · exact hs

/-- A property that no operation and no commit destroys holds of all stores that come to be. -/
theorem after (h : Stable t P) {s : Store} (history : List Transaction) (hs : P s.view) :
    P (s.after t history).view := by
  unfold Store.after
  induction history generalizing s with
  | nil => exact hs
  | cons x rest ih => exact ih (h.transact x hs)

/-- A property that no operation and no commit destroys holds of all that can be read. -/
theorem shows (h : Stable t P) {s : Store} {v : StoreView} (hs : P s.view) (hv : s.Shows t v) :
    P v := by
  obtain ⟨history, rfl | ⟨changes, rfl⟩⟩ := hv
  · exact h.after history hs
  · exact h.draft changes (h.after history hs)

end Draft.Stable

end

end ForkChoice
