import ForkChoice.Pipeline.SignatureFold
import ForkChoice.Proofs.BitList.Positions
import ForkChoice.Proofs.Pipeline.Pairing

/-!
# ForkChoice — what has been folded together

Attestations of one committee are offered one after the other. Each of them is only compared with
the participants of all that have been folded so far, taken together: if it has none of them, it has
no participant in common with any single one either. So no two of those that are folded share a
participant, and every participant signs once.

All bit lists are as long as the committee is large. This matters: the union is as long as the first
list, and would forget participants beyond.

* `Offer`, `after`, `answer` — any offers, the fold after them, and what each of them is told;
* `accepted`, `covered` — those that have been folded in, and their participants;
* `Shows`, `Shows.accept`, `shows_after` — what a fold shows of them, after one offer and after any;
* `FoldsApart`, `foldsApart` — what becomes of offers.
-/

namespace ForkChoice.SignatureFold

open SignatureScheme

section

variable [SignatureScheme]

/-- An attestation that is offered: its participants, the sum of their keys and its signature. -/
structure Offer where
  bits : AggregationBits
  key : PublicKey
  signature : Signature

/-- Offers an attestation to a fold. -/
def offer (f : SignatureFold) (o : Offer) : Bool × SignatureFold := f.add o.bits o.key o.signature

/-- The fold after so many offers of a sequence, when nothing has been folded before. Every finite
sequence is the beginning of an endless one. -/
def after (offers : Nat → Offer) : Nat → SignatureFold
  | 0 => {}
  | n + 1 => ((after offers n).offer (offers n)).2

/-- Whether an offer of a sequence is folded in, as it is told. -/
def answer (offers : Nat → Offer) (n : Nat) : Bool := ((after offers n).offer (offers n)).1

/-- Those of the first `n` offers that are told to be folded in, in order. -/
def accepted (offers : Nat → Offer) (n : Nat) : List Offer :=
  ((List.range n).filter (answer offers)).map offers

/-- The participants of all offers together. -/
def covered (folded : List Offer) : Set Nat := ⋃ o ∈ folded, o.bits.positions

/-- The sum of at least one signature. -/
def sumSignatures : List Signature → Option Signature
  | [] => none
  | signature :: rest => some (rest.foldl addSignatures signature)

/-- The participants that a fold knows of. -/
def participants (f : SignatureFold) : Set Nat :=
  match f.bits with
  | some bits => bits.positions
  | none => ∅

variable {length n : Nat} {folded : List Offer} {f : SignatureFold} {o : Offer}
  {offers : Nat → Offer}

theorem accepted_succ (offers : Nat → Offer) (n : Nat) : accepted offers (n + 1) =
    accepted offers n ++ if answer offers n = true then [offers n] else [] := by
  rw [accepted, List.range_succ, List.filter_append, List.map_append]
  refine congrArg (accepted offers n ++ ·) ?_
  by_cases hAnswer : answer offers n = true
  · rw [if_pos hAnswer, List.filter_cons_of_pos hAnswer]
    rfl
  · rw [if_neg hAnswer, List.filter_cons_of_neg hAnswer]
    rfl

theorem covered_concat (folded : List Offer) (o : Offer) :
    covered (folded ++ [o]) = covered folded ∪ o.bits.positions := by
  ext position
  simp [covered, or_and_right, exists_or]

theorem disjoint_covered {positions : Set Nat} :
    Disjoint positions (covered folded) ↔ ∀ o ∈ folded, Disjoint positions o.bits.positions := by
  simp only [covered, Set.disjoint_iUnion_right]

theorem sumSignatures_concat (signatures : List Signature) (signature : Signature) :
    sumSignatures (signatures ++ [signature]) =
      match sumSignatures signatures with
      | some sum => some (addSignatures sum signature)
      | none => some signature := by
  cases signatures with
  | nil => rfl
  | cons first rest =>
    simp only [List.cons_append, sumSignatures, List.foldl_append, List.foldl_cons, List.foldl_nil]

/-! ## One offer -/

theorem overlaps_eq_false {bits : AggregationBits} :
    f.overlaps bits = false ↔ Disjoint bits.positions f.participants := by
  rw [overlaps, participants]
  cases f.bits with
  | none => exact iff_of_true rfl (Set.disjoint_empty _)
  | some known => exact BitList.intersects_eq_false.trans disjoint_comm

/-- An offer is folded in if it shares no participant; otherwise nothing changes. -/
theorem offer_eq (f : SignatureFold) (o : Offer) : f.offer o =
    if f.overlaps o.bits = true then (false, f) else (true, f.extended o.bits o.key o.signature) :=
  rfl

theorem answer_eq_true :
    answer offers n = true ↔ (after offers n).overlaps (offers n).bits = false := by
  rw [answer, offer_eq]
  split <;> simp_all

theorem after_succ_of_refused (h : answer offers n = false) :
    after offers (n + 1) = after offers n := by
  rw [answer, offer_eq] at h
  rw [after, offer_eq]
  split at h
  · rename_i hOverlaps
    rw [if_pos hOverlaps]
  · cases h

theorem after_succ_of_accepted (h : answer offers n = true) : after offers (n + 1) =
    (after offers n).extended (offers n).bits (offers n).key (offers n).signature := by
  rw [answer_eq_true] at h
  rw [after, offer_eq, h]
  rfl

/-- What a fold shows of the offers that have been folded in. Its three parts are aligned. -/
structure Shows (length : Nat) (folded : List Offer) (f : SignatureFold) : Prop where
  bits_eq_none : f.bits = none ↔ folded = []
  length_eq : ∀ bits, f.bits = some bits → bits.length = length
  participants_eq : f.participants = covered folded
  keys_eq : f.keys = folded.map Offer.key
  signature_eq : f.signature = sumSignatures (folded.map Offer.signature)

theorem shows_empty (length : Nat) : Shows length [] {} where
  bits_eq_none := iff_of_true rfl rfl
  length_eq := fun _ hBits => nomatch hBits
  participants_eq := by simp [participants, covered]
  keys_eq := rfl
  signature_eq := rfl

theorem length_extended {bits : AggregationBits} {key : PublicKey} {signature : Signature}
    (hKnown : ∀ known, f.bits = some known → known.length = length)
    (hLength : bits.length = length) :
    ∀ known, (f.extended bits key signature).bits = some known → known.length = length := by
  obtain ⟨_ | known, keys, sum⟩ := f <;> rintro _ ⟨⟩
  · exact hLength
  · exact (BitList.length_union known bits).trans (hKnown known rfl)

theorem participants_extended {bits : AggregationBits} {key : PublicKey} {signature : Signature}
    (hKnown : ∀ known, f.bits = some known → known.length = bits.length) :
    (f.extended bits key signature).participants = f.participants ∪ bits.positions := by
  obtain ⟨_ | known, keys, sum⟩ := f
  · exact (Set.empty_union bits.positions).symm
  · exact BitList.positions_union (hKnown known rfl)

theorem bits_extended_ne_none {bits : AggregationBits} {key : PublicKey} {signature : Signature} :
    (f.extended bits key signature).bits ≠ none := by
  obtain ⟨_ | known, keys, sum⟩ := f <;> exact Option.some_ne_none _

/-- **One offer** that is folded in is shown behind the others. -/
theorem Shows.extended (h : Shows length folded f) (hLength : o.bits.length = length) :
    Shows length (folded ++ [o]) (f.extended o.bits o.key o.signature) where
  bits_eq_none := iff_of_false bits_extended_ne_none
    (List.append_ne_nil_of_right_ne_nil folded (List.cons_ne_nil o []))
  length_eq := length_extended h.length_eq hLength
  participants_eq := by
    rw [covered_concat, ← h.participants_eq]
    exact participants_extended fun known hKnown => (h.length_eq known hKnown).trans hLength.symm
  keys_eq := by
    rw [List.map_append, ← h.keys_eq]
    rfl
  signature_eq := by
    rw [List.map_append, List.map_singleton, sumSignatures_concat, ← h.signature_eq]
    rfl

/-! ## Any offers -/

/-- **Any offers** of one length leave a fold that shows those that have been folded in. -/
theorem shows_after (h : ∀ n, (offers n).bits.length = length) (n : Nat) :
    Shows length (accepted offers n) (after offers n) := by
  induction n with
  | zero => exact shows_empty length
  | succ n ih =>
    rw [accepted_succ]
    cases hAnswer : answer offers n with
    | false =>
      rw [after_succ_of_refused hAnswer, if_neg Bool.false_ne_true, List.append_nil]
      exact ih
    | true =>
      rw [after_succ_of_accepted hAnswer, if_pos rfl]
      exact ih.extended (h n)

/-- What becomes of offers. -/
structure FoldsApart (length : Nat) (offers : Nat → Offer) : Prop where
  /-- An offer is folded in if and only if it has none of the participants so far, -/
  answer_iff : ∀ n, answer offers n = true ↔
    Disjoint (offers n).bits.positions (covered (accepted offers n))
  /-- as the first one always is. -/
  first : answer offers 0 = true
  /-- Those that are folded in share no participants, -/
  apart : ∀ n, (accepted offers n).Pairwise fun o o' => Disjoint o.bits.positions o'.bits.positions
  /-- and their union is kept, with all bits. -/
  bits_eq_none : ∀ n, (after offers n).bits = none ↔ accepted offers n = []
  bits_eq_some : ∀ n bits, (after offers n).bits = some bits →
    bits.length = length ∧ bits.positions = covered (accepted offers n)
  /-- They are counted, and their keys and signatures are kept. -/
  size_eq : ∀ n, (after offers n).size = (List.range n).countP (answer offers)
  keys_eq : ∀ n, (after offers n).keys = (accepted offers n).map Offer.key
  signature_eq : ∀ n, (after offers n).signature =
    sumSignatures ((accepted offers n).map Offer.signature)
  /-- Those that are refused leave no trace. -/
  refused : ∀ n, answer offers n = false → after offers (n + 1) = after offers n

theorem answer_iff_disjoint (h : ∀ n, (offers n).bits.length = length) (n : Nat) :
    answer offers n = true ↔ Disjoint (offers n).bits.positions (covered (accepted offers n)) := by
  rw [answer_eq_true, overlaps_eq_false, (shows_after h n).participants_eq]

/-- Those that are folded in share no participants with one another, as they shared none with all
that were there before. -/
theorem pairwise_accepted (h : ∀ n, (offers n).bits.length = length) (n : Nat) :
    (accepted offers n).Pairwise fun o o' => Disjoint o.bits.positions o'.bits.positions := by
  induction n with
  | zero => exact List.Pairwise.nil
  | succ n ih =>
    rw [accepted_succ]
    cases hAnswer : answer offers n with
    | false => rwa [if_neg Bool.false_ne_true, List.append_nil]
    | true =>
      rw [if_pos rfl, List.pairwise_append]
      refine ⟨ih, List.pairwise_singleton _ _, fun o ho o' ho' => ?_⟩
      rw [List.mem_singleton.mp ho']
      exact (disjoint_covered.mp ((answer_iff_disjoint h n).mp hAnswer) o ho).symm

/-- **Offers** of one length are folded in exactly if they share no participants with those that
have been. -/
theorem foldsApart (h : ∀ n, (offers n).bits.length = length) : FoldsApart length offers where
  answer_iff := answer_iff_disjoint h
  first := rfl
  apart := pairwise_accepted h
  bits_eq_none := fun n => (shows_after h n).bits_eq_none
  bits_eq_some := fun n bits hBits => by
    have hShows := shows_after h n
    refine ⟨hShows.length_eq bits hBits, ?_⟩
    rw [← hShows.participants_eq, participants, hBits]
  size_eq := fun n => by
    rw [size, (shows_after h n).keys_eq, List.length_map, accepted, List.length_map,
      List.countP_eq_length_filter]
  keys_eq := fun n => (shows_after h n).keys_eq
  signature_eq := fun n => (shows_after h n).signature_eq
  refused := fun _ => after_succ_of_refused

end

/-- Offers of a committee of three: by the first member, by the first two, and from then on by the
second one alone. -/
def overlappingOffers : Nat → @Offer integerScheme :=
  letI : SignatureScheme := integerScheme
  fun
    | 0 => ⟨⟨[true, false, false], by decide⟩, (3 : ℤ), (5 : ℤ)⟩
    | 1 => ⟨⟨[true, true, false], by decide⟩, (4 : ℤ), (7 : ℤ)⟩
    | _ => ⟨⟨[false, true, false], by decide⟩, (6 : ℤ), (11 : ℤ)⟩

/-- The first two members are folded, each of them once. -/
theorem foldsApart_of_overlap :
    letI : SignatureScheme := integerScheme
    (∀ n, (overlappingOffers n).bits.length = 3) ∧ FoldsApart 3 overlappingOffers ∧
      (List.range 4).map (answer overlappingOffers) = [true, false, true, false] ∧
        (after overlappingOffers 4).signature = some (5 + 11 : ℤ) := by
  let : SignatureScheme := integerScheme
  have hLength : ∀ n, (overlappingOffers n).bits.length = 3 := by
    rintro (_ | _ | n) <;> rfl
  exact ⟨hLength, foldsApart hLength, by decide, by rfl⟩

/-- Lists of several lengths do not do: the union is as long as the first one, which is too short
for the second member, so that this one is folded in twice. -/
example :
    letI : SignatureScheme := integerScheme
    let bits : Nat → AggregationBits
      | 0 => ⟨[true], by decide⟩
      | _ => ⟨[false, true], by decide⟩
    ∀ n < 3, answer (fun n => ⟨bits n, (1 : ℤ), (1 : ℤ)⟩) n = true := by
  decide

end ForkChoice.SignatureFold
