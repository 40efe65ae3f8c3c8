import Mathlib.Algebra.BigOperators.Group.List.Basic
import Mathlib.Algebra.Group.Hom.Instances
import Mathlib.Algebra.Group.Int.Defs
import Mathlib.Algebra.Group.Subgroup.Defs
import Mathlib.Algebra.Group.Subgroup.Lattice
import Mathlib.Algebra.Ring.Basic
import Mathlib.Algebra.Ring.Int.Defs
import ForkChoice.Proofs.Outcome
import ForkChoice.SignatureScheme

/-!
# ForkChoice — signatures that are checked by a pairing

All that is used of a signature scheme here: keys and signatures stand for points of two groups,
and are added as points are. A signature verifies if one equation holds, between the pairing of the
generator with the signature and the pairing of the key with the point of the message; besides, the
key must not be zero, and the signature must lie in the right group. Several keys are used by
adding them up.

The equation is linear in signature and key. How far a signature is from holding is an element of
the target group, its error, and the error of a sum of signatures under the sum of their keys is
the sum of their errors.

* `SignatureScheme.Pairing` — a scheme of this kind;
* `Pairing.error`, `Pairing.verify_iff_error` — by how much the equation is missed;
* `SignatureScheme.ChecksSums`, `Pairing.checksSums` — the order of keys does not matter;
* `integerScheme`, `integerPairing` — the same with numbers in place of points.
-/

namespace ForkChoice

open SignatureScheme

namespace SignatureScheme

variable [SignatureScheme]

theorem sumKeys_defined {keys : List PublicKey} (h : keys ≠ []) :
    ∃ key, sumKeys keys = .ok key := by
  cases keys with
  | nil => exact absurd rfl h
  | cons first rest => exact ⟨_, rfl⟩

/-- A sum of signatures verifies under several keys, in any order, if it verifies under their
sum. -/
def ChecksSums : Prop :=
  ∀ (signature : Signature) (message : Root) (keys keys' : List PublicKey) (key : PublicKey),
    keys'.Perm keys → sumKeys keys = .ok key →
      verifyAll signature message keys' = verify signature message key

/-- A scheme in which keys and signatures are points, and a signature is checked by a pairing. -/
structure Pairing (K S T : Type) [AddCommGroup K] [AddCommGroup S] [AddCommGroup T] where
  keyPoint : PublicKey → K
  signaturePoint : Signature → S
  messagePoint : Root → S
  generator : K
  /-- The points that signatures may be; not all that can be read are. -/
  group : AddSubgroup S
  pair : K →+ S →+ T
  keyPoint_addKeys : ∀ key key', keyPoint (addKeys key key') = keyPoint key + keyPoint key'
  signaturePoint_addSignatures : ∀ signature signature',
    signaturePoint (addSignatures signature signature') =
      signaturePoint signature + signaturePoint signature'
  verify_iff : ∀ signature message key, verify signature message key = true ↔
    keyPoint key ≠ 0 ∧ signaturePoint signature ∈ group ∧
      pair generator (signaturePoint signature) = pair (keyPoint key) (messagePoint message)
  verifyAll_iff : ∀ signature message keys, verifyAll signature message keys = true ↔
    ∃ key, sumKeys keys = .ok key ∧ verify signature message key = true

namespace Pairing

variable {K S T : Type} [AddCommGroup K] [AddCommGroup S] [AddCommGroup T] (P : Pairing K S T)

/-- By how much the equation of a signature is missed. -/
def error (signature : Signature) (message : Root) (key : PublicKey) : T :=
  P.pair P.generator (P.signaturePoint signature) - P.pair (P.keyPoint key) (P.messagePoint message)

theorem verify_iff_error {signature : Signature} {message : Root} {key : PublicKey} :
    verify signature message key = true ↔
      P.keyPoint key ≠ 0 ∧ P.signaturePoint signature ∈ P.group ∧
        P.error signature message key = 0 := by
  rw [P.verify_iff, error, sub_eq_zero]

/-- The sum of keys is the key of the sum of their points. -/
theorem keyPoint_sumKeys {keys : List PublicKey} {key : PublicKey} (h : sumKeys keys = .ok key) :
    P.keyPoint key = (keys.map P.keyPoint).sum := by
  cases keys with
  | nil => cases h
  | cons first rest =>
    cases h
    rw [List.map_cons, List.sum_cons]
    induction rest generalizing first with
    | nil => simp
    | cons second rest ih =>
      rw [List.foldl_cons, ih, P.keyPoint_addKeys, List.map_cons, List.sum_cons, add_assoc]

/-- Only the point of a key matters. -/
theorem verify_congr {key key' : PublicKey} (h : P.keyPoint key = P.keyPoint key')
    (signature : Signature) (message : Root) :
    verify signature message key = verify signature message key' := by
  rw [Bool.eq_iff_iff, P.verify_iff, P.verify_iff, h]

include P in
theorem verifyAll_eq {keys : List PublicKey} {key : PublicKey} (h : sumKeys keys = .ok key)
    (signature : Signature) (message : Root) :
    verifyAll signature message keys = verify signature message key := by
  rw [Bool.eq_iff_iff, P.verifyAll_iff, h]
  simp

include P in
/-- **Sums.** The order in which keys are added up does not matter. -/
theorem checksSums : ChecksSums := by
  intro signature message keys keys' key hPerm hSum
  have hSome : keys' ≠ [] := by
    rintro rfl
    rw [List.nil_perm] at hPerm
    subst hPerm
    cases hSum
  obtain ⟨key', hSum'⟩ := sumKeys_defined hSome
  -- The two sums may be different keys, but they are the same point.
  have hPoint : P.keyPoint key' = P.keyPoint key := by
    rw [P.keyPoint_sumKeys hSum', P.keyPoint_sumKeys hSum]
    exact (hPerm.map P.keyPoint).sum_eq
  rw [P.verifyAll_eq hSum', P.verify_congr hPoint]

end Pairing

end SignatureScheme

/-! ## Numbers in place of points -/

/-- The number that the bytes of a message stand for. -/
def messageNumber (message : Root) : ℤ := message.toNat

/-- The scheme in which keys and signatures are numbers: the signature of a message under a key
is their product. Whoever knows the key can sign, so it is only good for calculating. -/
@[reducible]
def integerScheme : SignatureScheme where
  PublicKey := ℤ
  Signature := ℤ
  readKey? bytes := if bytes = 0 then none else some bytes.toNat
  writeKey key := BitVec.ofInt 384 key
  readSignature? bytes := some bytes.toNat
  addKeys := (· + ·)
  addSignatures := (· + ·)
  verify signature message key := key ≠ 0 && signature = key * messageNumber message
  verifyAll signature message keys :=
    keys ≠ [] && (keys.sum ≠ 0 && signature = keys.sum * messageNumber message)

section

variable {signature key : ℤ} {message : Root} {keys : List ℤ}

theorem integer_verify : @verify integerScheme signature message key = true ↔
    key ≠ 0 ∧ signature = key * messageNumber message := by
  show (decide (key ≠ 0) && decide (signature = key * messageNumber message)) = true ↔ _
  rw [Bool.and_eq_true, decide_eq_true_eq, decide_eq_true_eq]

theorem integer_verifyAll : @verifyAll integerScheme signature message keys = true ↔
    keys ≠ [] ∧ @verify integerScheme signature message keys.sum = true := by
  show (decide (keys ≠ []) && @verify integerScheme signature message keys.sum) = true ↔ _
  rw [Bool.and_eq_true, decide_eq_true_eq]

theorem integer_sumKeys : @sumKeys integerScheme keys = .ok key ↔ keys ≠ [] ∧ keys.sum = key := by
  cases keys with
  | nil => simp [sumKeys]
  | cons first rest =>
    show Except.ok (rest.foldl (· + ·) first) = _ ↔ _
    have hSum : (first :: rest).sum = rest.foldl (· + ·) first := by
      rw [List.sum_eq_foldl, List.foldl_cons, zero_add]
    simp [hSum]

end

/-- It is checked by a pairing, the product of numbers. -/
def integerPairing : @SignatureScheme.Pairing integerScheme ℤ ℤ ℤ _ _ _ :=
  letI := integerScheme
  { keyPoint := id
    signaturePoint := id
    messagePoint := messageNumber
    generator := 1
    group := ⊤
    pair := AddMonoidHom.mul
    keyPoint_addKeys := fun _ _ => rfl
    signaturePoint_addSignatures := fun _ _ => rfl
    verify_iff := by
      intro signature message key
      rw [integer_verify]
      simp
    verifyAll_iff := by
      intro signature message keys
      simp only [integer_verifyAll, integer_sumKeys]
      simp }

end ForkChoice
