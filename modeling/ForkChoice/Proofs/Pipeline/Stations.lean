import Mathlib.Data.List.Count
import Mathlib.Data.List.Perm.Basic
import ForkChoice.Pipeline.Basic

/-!
# ForkChoice — from station to station

On its way through the verification an attestation is at one of four stations: it is about to
enter, it waits for its block, it is due for the check against a state, or its signature is left to
be checked. What a stage reports decides to which station the attestation goes next, or that its way
ends. So the reports on an attestation are a trail that leads to where it is now.

Attestations are kept in books: which of them are at each station, what has been reported, and which
of them have been submitted. The books are sound if the reports on each attestation that has been
submitted lead to the one station at which it is, once. They stay so when an attestation is
submitted, and when some of those at one station are reported on and go where that leads them.

* `Station`, `Leads` — the stations, and where a report leads;
* `reportsOn`, `Trail` — the reports on an attestation, and what they lead to;
* `Trail.in_order`, `Trail.count_sanity`, `Trail.ends_once`, `Trail.refused` — what they say;
* `Books`, `Books.Sound` — the books; `Sound.pass`, `Sound.submit` — the steps.
-/

namespace ForkChoice

/-- Where an attestation can be. -/
inductive Station where
  /-- About to enter. -/
  | entering
  /-- Waiting for its block. -/
  | parked
  /-- To be checked against a state. -/
  | due
  /-- Checked against a state, but not its signature. -/
  | checked
  deriving DecidableEq

/-- What a report says: the stage, and the reason for a rejection if it is one. -/
abbrev Report := Stage × Option Rejection

/-- Where an attestation goes from its station with a report on it, if it goes anywhere. -/
inductive Leads : Station → Report → Option Station → Prop
  | refused (reason : Rejection) : Leads .entering (.sanity, some reason) none
  | known : Leads .entering (.sanity, none) (some .due)
  | unknown : Leads .entering (.sanity, none) (some .parked)
  | givenUp (reason : Rejection) : Leads .parked (.unknownBlock, some reason) none
  | released : Leads .parked (.unknownBlock, none) (some .due)
  | unfit (reason : Rejection) : Leads .due (.state, some reason) none
  | fit : Leads .due (.state, none) (some .checked)
  | judged (found : Option Rejection) : Leads .checked (.signature, found) none

/-- All reports on an attestation. -/
def reportsOn (events : List PipelineEvent) (a : ReceivedAttestation) : List Report :=
  (events.filter (·.attestation = a)).map fun e => (e.stage, e.rejection)

/-- Reports that lead from the entrance to a station, or to the end. -/
inductive Trail : List Report → Option Station → Prop
  | start : Trail [] (some .entering)
  | step {reports : List Report} {x : Station} {report : Report} {y : Option Station}
    (h : Trail reports (some x)) (hLeads : Leads x report y) : Trail (reports ++ [report]) y

/-- The stages that may have reported on an attestation that is at a station, or at the end. -/
def Station.stagesBefore : Option Station → List Stage
  | some .entering => []
  | some .parked => [.sanity]
  | some .due => [.sanity, .unknownBlock]
  | some .checked => [.sanity, .unknownBlock, .state]
  | none => [.sanity, .unknownBlock, .state, .signature]

section

variable {events : List PipelineEvent} {a : ReceivedAttestation} {reports : List Report}
  {report : Report} {x : Station} {place y : Option Station} {reason : Rejection}

theorem reportsOn_append (events more : List PipelineEvent) (a : ReceivedAttestation) :
    reportsOn (events ++ more) a = reportsOn events a ++ reportsOn more a := by
  simp [reportsOn]

theorem reportsOn_singleton (e : PipelineEvent) (a : ReceivedAttestation) :
    reportsOn [e] a = if e.attestation = a then [(e.stage, e.rejection)] else [] := by
  unfold reportsOn
  split <;> rename_i hSame <;> simp [hSame]

/-- A stage reports on some attestations, on each as often as it is among them. -/
theorem reportsOn_map (stage : Stage) (found : ReceivedAttestation → Option Rejection)
    (moved : List ReceivedAttestation) (a : ReceivedAttestation) :
    reportsOn (moved.map fun c => ⟨stage, c, found c⟩) a =
      List.replicate (moved.count a) (stage, found a) := by
  induction moved with
  | nil => rfl
  | cons c rest ih =>
    unfold reportsOn at ih ⊢
    by_cases hc : c = a
    · subst hc
      simpa [List.replicate_succ] using ih
    · simpa [hc] using ih

/-- A report among those that a stage makes is one of this stage. -/
theorem mem_reportsOn_append {stage : Stage} {found : ReceivedAttestation → Option Rejection}
    {moved : List ReceivedAttestation}
    (h : report ∈ reportsOn (events ++ moved.map fun c => ⟨stage, c, found c⟩) a) :
    report ∈ reportsOn events a ∨ report.1 = stage ∧ a ∈ moved := by
  rw [reportsOn_append, reportsOn_map, List.mem_append, List.mem_replicate] at h
  refine h.imp_right fun ⟨hCount, hReport⟩ => ⟨congrArg Prod.fst hReport, ?_⟩
  exact List.count_pos_iff.mp (Nat.pos_of_ne_zero hCount)

/-- What one stage reports does not change how often another one has reported something. -/
theorem count_reportsOn_append {stage : Stage} (hStage : report.1 ≠ stage)
    (events : List PipelineEvent) (found : ReceivedAttestation → Option Rejection)
    (moved : List ReceivedAttestation) (a : ReceivedAttestation) :
    (reportsOn (events ++ moved.map fun c => ⟨stage, c, found c⟩) a).count report =
      (reportsOn events a).count report := by
  rw [reportsOn_append, reportsOn_map, List.count_append, List.count_replicate, if_neg, Nat.add_zero]
  rw [beq_iff_eq]
  exact fun hSame => hStage (congrArg Prod.fst hSame).symm

/-! ## Trails -/

/-- No report leads to where the attestation has been before. -/
theorem Leads.ne (h : Leads x report y) : y ≠ some x := by
  cases h <;> simp

theorem Leads.ne_entering (h : Leads x report y) : y ≠ some .entering := by
  cases h <;> simp

theorem Leads.stagesBefore (h : Leads x report y) :
    (Station.stagesBefore (some x) ++ [report.1]).Sublist (Station.stagesBefore y) := by
  cases h <;> dsimp only <;> decide

theorem Station.stagesBefore_sublist (place : Option Station) :
    (stagesBefore place).Sublist [.sanity, .unknownBlock, .state, .signature] := by
  obtain _ | _ | _ | _ | _ := place <;> decide

namespace Trail

/-- There are no reports on an attestation that has not entered. -/
theorem eq_nil (h : Trail reports (some .entering)) : reports = [] := by
  generalize hPlace : some Station.entering = place at h
  cases h with
  | start => rfl
  | step _ hLeads => exact absurd hPlace.symm hLeads.ne_entering

/-- **Order**: the stages report in order, and none of them twice. -/
theorem in_order (h : Trail reports place) :
    (reports.map Prod.fst).Sublist (Station.stagesBefore place) := by
  induction h with
  | start => exact .slnil
  | step _ hLeads ih =>
    rw [List.map_append]
    exact (ih.append_right _).trans hLeads.stagesBefore

/-- The first stage reports once on each attestation that has entered. -/
theorem count_sanity (h : Trail reports place) :
    (reports.map Prod.fst).count .sanity = if place = some .entering then 0 else 1 := by
  induction h with
  | start => rfl
  | step _ hLeads ih =>
    rw [List.map_append, List.count_append, ih]
    cases hLeads <;> rfl

/-- **The end**: an attestation is rejected once or found valid once, unless its way has not
ended. -/
theorem ends_once (h : Trail reports place) :
    reports.countP (·.2.isSome) + reports.count (.signature, none) + place.toList.length = 1 := by
  induction h with
  | start => rfl
  | @step reports x report y _ hLeads ih =>
    rw [List.countP_append, List.count_append]
    have hStep : [report].countP (·.2.isSome) + [report].count (.signature, none) +
        y.toList.length = 1 := by
      cases hLeads with
      | judged found => cases found <;> rfl
      | _ => rfl
    simp only [Option.toList_some, List.length_singleton] at ih
    omega

/-- An attestation that the first stage rejects gets no other report. -/
theorem refused (h : Trail reports place) (hRefused : (.sanity, some reason) ∈ reports) :
    reports = [(.sanity, some reason)] ∧ place = none := by
  cases h with
  | start => exact absurd hRefused List.not_mem_nil
  | @step reports x report y hBefore hLeads =>
    rcases List.mem_append.mp hRefused with hOld | hNew
    · -- A rejection ends the way, but this one has gone on.
      have hEnds := hBefore.ends_once
      have hRejected : 0 < reports.countP (·.2.isSome) := List.countP_pos_iff.mpr ⟨_, hOld, rfl⟩
      simp only [Option.toList_some, List.length_singleton] at hEnds
      omega
    · rw [List.mem_singleton] at hNew
      subst hNew
      cases hLeads
      rw [hBefore.eq_nil]
      exact ⟨rfl, rfl⟩

end Trail

end

/-! ## Books -/

/-- The attestations at each station, what has been reported, and what has been submitted. -/
structure Books where
  held : Station → List ReceivedAttestation
  events : List PipelineEvent
  submitted : List ReceivedAttestation

namespace Books

variable {b b' : Books} {a : ReceivedAttestation}

/-- Each attestation that has been submitted is where the reports on it lead, and nowhere else, and
there are no others. -/
structure Sound (b : Books) : Prop where
  trail : ∀ a ∈ b.submitted, ∃ place, Trail (reportsOn b.events a) place ∧
    ∀ x, (b.held x).count a = if place = some x then 1 else 0
  others : ∀ a ∉ b.submitted, reportsOn b.events a = [] ∧ ∀ x, a ∉ b.held x

/-- Attestations at the station `x` are reported on, and all go to `y`. -/
structure Pass (x : Station) (stage : Stage) (found : ReceivedAttestation → Option Rejection)
    (y : Option Station) (moved : List ReceivedAttestation) (b b' : Books) : Prop where
  leads : ∀ a ∈ moved, Leads x (stage, found a) y
  held : ∀ z, ((if z = x then moved else []) ++ b'.held z).Perm
    (b.held z ++ if y = some z then moved else [])
  events : b'.events = b.events ++ moved.map fun a => ⟨stage, a, found a⟩
  submitted : b'.submitted = b.submitted

section

variable {x : Station} {stage : Stage} {found : ReceivedAttestation → Option Rejection}
  {y : Option Station} {moved : List ReceivedAttestation}

namespace Pass

theorem count (h : Pass x stage found y moved b b') (a : ReceivedAttestation) (z : Station) :
    (if z = x then moved.count a else 0) + (b'.held z).count a =
      (b.held z).count a + if y = some z then moved.count a else 0 := by
  simpa only [List.count_append, apply_ite (List.count a), List.count_nil]
    using (h.held z).count_eq a

/-- All that are reported on have been at the station. -/
theorem count_le (h : Pass x stage found y moved b b') (a : ReceivedAttestation) :
    moved.count a ≤ (b.held x).count a := by
  by_cases hMoved : a ∈ moved
  · have hCount := h.count a x
    rw [if_pos rfl, if_neg (h.leads a hMoved).ne] at hCount
    omega
  · rw [List.count_eq_zero.mpr hMoved]
    exact Nat.zero_le _

theorem reportsOn_eq (h : Pass x stage found y moved b b') (a : ReceivedAttestation) :
    reportsOn b'.events a =
      reportsOn b.events a ++ List.replicate (moved.count a) (stage, found a) := by
  rw [h.events, reportsOn_append, reportsOn_map]

end Pass

end

namespace Sound

/-- Within a station the order does not matter. -/
theorem perm (h : b.Sound) (hHeld : ∀ x, (b'.held x).Perm (b.held x))
    (hEvents : b'.events = b.events) (hSubmitted : b'.submitted = b.submitted) : b'.Sound where
  trail a ha := by
    obtain ⟨place, hTrail, hCount⟩ := h.trail a (hSubmitted ▸ ha)
    exact ⟨place, hEvents ▸ hTrail, fun x => (hHeld x).count_eq a ▸ hCount x⟩
  others a ha := by
    obtain ⟨hReports, hHere⟩ := h.others a (hSubmitted ▸ ha)
    exact ⟨hEvents ▸ hReports, fun x hx => hHere x ((hHeld x).subset hx)⟩

/-- Nothing leaves its station. -/
theorem congr (h : b.Sound) (hHeld : ∀ x, b'.held x = b.held x) (hEvents : b'.events = b.events)
    (hSubmitted : b'.submitted = b.submitted) : b'.Sound :=
  h.perm (fun x => .of_eq (hHeld x)) hEvents hSubmitted

/-- An attestation is submitted that has not been submitted before. -/
theorem submit (h : b.Sound) (hNew : a ∉ b.submitted) (hEvents : b'.events = b.events)
    (hSubmitted : b'.submitted = b.submitted ++ [a])
    (hHeld : ∀ x, (b'.held x).Perm (b.held x ++ if x = .entering then [a] else [])) :
    b'.Sound where
  trail c hc := by
    rw [hEvents]
    rw [hSubmitted, List.mem_append, List.mem_singleton] at hc
    rcases hc with hOld | rfl
    · obtain ⟨place, hTrail, hCount⟩ := h.trail c hOld
      refine ⟨place, hTrail, fun x => ?_⟩
      have hOther : a ≠ c := fun hSame => hNew (hSame ▸ hOld)
      rw [(hHeld x).count_eq, List.count_append, hCount x]
      split <;> split <;> simp [hOther]
    · obtain ⟨hReports, hNowhere⟩ := h.others c hNew
      refine ⟨some .entering, hReports ▸ .start, fun x => ?_⟩
      rw [(hHeld x).count_eq, List.count_append, List.count_eq_zero.mpr (hNowhere x), Nat.zero_add]
      cases x <;> simp
  others c hc := by
    rw [hSubmitted, List.mem_append, List.mem_singleton, not_or] at hc
    obtain ⟨hReports, hNowhere⟩ := h.others c hc.1
    refine ⟨hEvents ▸ hReports, fun x hx => ?_⟩
    rcases List.mem_append.mp ((hHeld x).subset hx) with hOld | hOther
    · exact hNowhere x hOld
    · split at hOther <;> simp [hc.2] at hOther

/-- **A stage** reports on attestations, and these go on. -/
theorem pass (h : b.Sound) (x : Station) (stage : Stage)
    (found : ReceivedAttestation → Option Rejection) (y : Option Station)
    (moved : List ReceivedAttestation) (hPass : Pass x stage found y moved b b') : b'.Sound := by
  refine ⟨fun a ha => ?_, fun a ha => ?_⟩
  · obtain ⟨place, hTrail, hCount⟩ := h.trail a (hPass.submitted ▸ ha)
    by_cases hMoved : a ∈ moved
    · -- It has been at the station, and only once, so it is reported on once.
      have hSome : 0 < moved.count a := List.count_pos_iff.mpr hMoved
      have hLe := hPass.count_le a
      rw [hCount x] at hLe
      have hPlace : place = some x := by
        by_contra hElse
        rw [if_neg hElse] at hLe
        omega
      subst hPlace
      rw [if_pos rfl] at hLe
      have hOnce : moved.count a = 1 := by omega
      refine ⟨y, ?_, fun z => ?_⟩
      · rw [hPass.reportsOn_eq, hOnce]
        exact .step hTrail (hPass.leads a hMoved)
      · have hBalance := hPass.count a z
        rw [hCount z, hOnce] at hBalance
        by_cases hHere : z = x
        · subst hHere
          rw [if_pos rfl, if_pos rfl] at hBalance
          omega
        · rw [if_neg hHere, if_neg fun hSame => hHere (Option.some.inj hSame).symm] at hBalance
          omega
    · have hNone : moved.count a = 0 := List.count_eq_zero.mpr hMoved
      refine ⟨place, ?_, fun z => ?_⟩
      · rw [hPass.reportsOn_eq, hNone, List.replicate_zero, List.append_nil]
        exact hTrail
      · simpa [hNone, hCount z] using hPass.count a z
  · obtain ⟨hReports, hNowhere⟩ := h.others a (hPass.submitted ▸ ha)
    have hNone : moved.count a = 0 :=
      Nat.le_zero.mp (List.count_eq_zero.mpr (hNowhere x) ▸ hPass.count_le a)
    refine ⟨?_, fun z => ?_⟩
    · rw [hPass.reportsOn_eq, hNone, hReports]
      rfl
    · rw [← List.count_eq_zero]
      simpa [hNone, List.count_eq_zero.mpr (hNowhere z)] using hPass.count a z

end Sound

end Books

end ForkChoice
