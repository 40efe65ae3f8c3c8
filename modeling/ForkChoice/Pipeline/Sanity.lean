import ForkChoice.Chain.Attestation
import ForkChoice.Pipeline.Rejection

/-!
# ForkChoice — checks without a state

What can be checked of an attestation with nothing but the present and the finalized epoch.

* `Attestation.checkSanity` — the checks, in order.
-/

namespace ForkChoice

/-- How many epochs a target may be ahead of the present one: clocks of different nodes do not
agree exactly. -/
def maxLookahead : Epoch := 1

/-- The checks of an attestation that need no state. -/
def Attestation.checkSanity (p : Preset) (a : Attestation) (current finalized : Epoch) :
    Outcome Rejection Unit := do
  let target := a.data.target.epoch
  if target < a.data.source.epoch then
    Outcome.fail (.sourceAfterTarget a.data.source.epoch target)
  else if target < finalized then Outcome.fail (.targetBeforeFinalized target finalized)
  else
    let latest ← Word.add current maxLookahead
    if latest < target then Outcome.fail (.targetTooFarAhead target current)
    else if !a.aggregationBits.any then Outcome.fail .noAggregationBits
    else if p.epochAt a.data.slot ≠ target then
      Outcome.fail (.slotOutsideTargetEpoch a.data.slot target)
    else return ()

end ForkChoice
