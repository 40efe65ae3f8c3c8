import ForkChoice.Chain.Attestation

/-!
# ForkChoice — votes for unknown blocks

A bounded number of attestations is kept until the blocks that they vote for are imported. The
pool is a queue: a new attestation displaces the oldest one if there is no room for both.

* `UnknownBlockPool.insert` — one more attestation, and the one that has to leave;
* `UnknownBlockPool.takeForBlock`, `UnknownBlockPool.prune` — those whose block has come, and
  those whose time has passed.
-/

namespace ForkChoice

/-- Attestations for unknown blocks, the oldest first. -/
structure UnknownBlockPool where
  capacity : Nat
  attestations : List ReceivedAttestation := []
  deriving Inhabited

namespace UnknownBlockPool

/-- The number of attestations. -/
def size (pool : UnknownBlockPool) : Nat := pool.attestations.length

/-- Whether there are no attestations. -/
def isEmpty (pool : UnknownBlockPool) : Bool := pool.attestations.isEmpty

/-- Adds an attestation, and gives the one that has to leave: the oldest one of a full pool, or
the new one if the pool has no room at all. -/
def insert (pool : UnknownBlockPool) (a : ReceivedAttestation) :
    Option ReceivedAttestation × UnknownBlockPool :=
  if pool.capacity = 0 then (some a, pool)
  else if pool.attestations.length < pool.capacity then
    (none, { pool with attestations := pool.attestations ++ [a] })
  else
    (pool.attestations.head?, { pool with attestations := pool.attestations.tail ++ [a] })

/-- Takes those attestations that satisfy a condition. -/
def takeWhere (pool : UnknownBlockPool) (condition : ReceivedAttestation → Bool) :
    List ReceivedAttestation × UnknownBlockPool :=
  let (taken, left) := pool.attestations.partition condition
  (taken, { pool with attestations := left })

/-- Takes the attestations that vote for a block. -/
def takeForBlock (pool : UnknownBlockPool) (root : Root) :
    List ReceivedAttestation × UnknownBlockPool :=
  pool.takeWhere fun a => a.data.blockRoot = root

/-- Takes the attestations with targets before an epoch. -/
def prune (pool : UnknownBlockPool) (epoch : Epoch) :
    List ReceivedAttestation × UnknownBlockPool :=
  pool.takeWhere fun a => a.data.target.epoch < epoch

end UnknownBlockPool

end ForkChoice
