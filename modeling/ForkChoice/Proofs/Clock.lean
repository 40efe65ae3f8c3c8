import Mathlib.Order.Bounds.Basic
import Mathlib.Order.Monotone.Basic
import Mathlib.Order.MinMax
import ForkChoice.Clock
import ForkChoice.Proofs.Chain.Committees
import ForkChoice.Store.View

/-!
# ForkChoice — slots and times

A slot has a start, and a time has a slot. In numbers the start is a product and the slot a
quotient, so the slot of a time is the only one whose start is not after the time while the start of
the next slot is; before genesis it is the first one. In words the quotient always exists, and the
product does not: the slots whose start does not fit into a word have none.

The first start that is not in the past is found by a quotient as well, but one that is rounded
up, and in nanoseconds. Rounding up is left adjoint to the product, so the slot is the least of all
whose start is not in the past, also of those whose start does not fit into a word.

* `Word.mul?_eq_some`, `Word.add?_eq_some`, `Word.toNat_satSub` — words in numbers;
* `Tick.unixSeconds_eq_ok`, `Tick.unixSeconds_eq_error` — the start of a slot, and when there is
  none;
* `Tick.atTime_eq_iff` — the slot of a time, by the starts of two slots;
* `Tick.atTime_mono`, `Tick.atTime_max` — later times have later slots;
* `Config.KeepsSlots` — what follows for starts and slots, `Config.keepsSlots` — everywhere;
* `firstTick_eq_ok` — the first tick that is not in the past, and when there is one,
  `Config.FindsFirstTick`, `Config.findsFirstTick` — everywhere.
-/

namespace ForkChoice

namespace Word

variable {a b c : UInt64}

theorem toNat_satSub (a b : UInt64) : (satSub a b).toNat = a.toNat - b.toNat := by
  unfold satSub
  split
  · rename_i hLe
    exact UInt64.toNat_sub_of_le a b hLe
  · rename_i hLess
    have hNat : a.toNat < b.toNat := UInt64.not_le.mp hLess
    rw [UInt64.toNat_zero]
    omega

theorem mul?_eq_some : mul? a b = some c ↔ c.toNat = a.toNat * b.toNat := by
  unfold mul?
  split
  · rename_i hFits
    have hProduct : (a * b).toNat = a.toNat * b.toNat := by
      rw [UInt64.toNat_mul]
      exact Nat.mod_eq_of_lt hFits
    rw [Option.some.injEq, ← hProduct, UInt64.toNat_inj, eq_comm]
  · rename_i hExceeds
    have hc : c.toNat < UInt64.size := c.toNat_lt
    simp only [reduceCtorEq, false_iff]
    omega

theorem add?_eq_some : add? a b = some c ↔ c.toNat = a.toNat + b.toNat := by
  unfold add?
  split
  · rename_i hFits
    rw [Option.some.injEq, ← toNat_add_of_lt hFits, UInt64.toNat_inj, eq_comm]
  · rename_i hExceeds
    have hc : c.toNat < UInt64.size := c.toNat_lt
    simp only [reduceCtorEq, false_iff]
    omega

end Word

namespace Tick

variable {config : Config} {genesisTime time time' : UInt64} {slot : Slot}

/-! ## The start of a slot -/

theorem secondsPerSlot_toNat_pos (config : Config) : 0 < config.secondsPerSlot.toNat :=
  config.secondsPerSlot_pos

/-- The start of a slot is as many slots after genesis as the number of the slot. -/
theorem unixSeconds_eq_ok : unixSeconds ⟨slot⟩ config genesisTime = .ok time ↔
    time.toNat = genesisTime.toNat + slot.toNat * config.secondsPerSlot.toNat := by
  have hFound : unixSeconds ⟨slot⟩ config genesisTime = .ok time ↔
      (Word.mul? slot config.secondsPerSlot).bind (Word.add? genesisTime) = some time := by
    unfold unixSeconds
    cases (Word.mul? slot config.secondsPerSlot).bind (Word.add? genesisTime) <;> simp
  rw [hFound, Option.bind_eq_some_iff]
  constructor
  · rintro ⟨elapsed, hElapsed, hSum⟩
    rw [← Word.mul?_eq_some.mp hElapsed]
    exact Word.add?_eq_some.mp hSum
  · -- The product is a part of a sum that fits, so it fits as well.
    intro hTime
    have hFits : slot.toNat * config.secondsPerSlot.toNat < UInt64.size := by
      have := time.toNat_lt
      simp only [UInt64.size]
      omega
    have hProduct : (UInt64.ofNat (slot.toNat * config.secondsPerSlot.toNat)).toNat =
        slot.toNat * config.secondsPerSlot.toNat := UInt64.toNat_ofNat_of_lt' hFits
    exact ⟨_, Word.mul?_eq_some.mpr hProduct, Word.add?_eq_some.mpr (by rw [hProduct, hTime])⟩

/-- A slot has no start if and only if the start does not fit into a word. -/
theorem unixSeconds_eq_error {e : ClockError} : unixSeconds ⟨slot⟩ config genesisTime = .error e ↔
    e = .timeOverflow ∧
      UInt64.size ≤ genesisTime.toNat + slot.toNat * config.secondsPerSlot.toNat := by
  cases hTime : unixSeconds ⟨slot⟩ config genesisTime with
  | ok time =>
    have hFits := time.toNat_lt
    rw [unixSeconds_eq_ok] at hTime
    simp only [reduceCtorEq, false_iff, not_and, Nat.not_le]
    intro _
    rw [← hTime]
    exact hFits
  | error e' =>
    have hOnly : e' = .timeOverflow := by
      unfold unixSeconds at hTime
      split at hTime <;> simp_all
    have hExceeds : UInt64.size ≤ genesisTime.toNat + slot.toNat * config.secondsPerSlot.toNat := by
      by_contra hFits
      rw [Nat.not_le] at hFits
      rw [unixSeconds_eq_ok.mpr (UInt64.toNat_ofNat_of_lt' hFits)] at hTime
      cases hTime
    rw [Except.error.injEq, hOnly, eq_comm]
    exact ⟨fun h => ⟨h, hExceeds⟩, And.left⟩

/-! ## The slot of a time -/

theorem atTime_toNat (config : Config) (time genesisTime : UInt64) :
    (atTime config time genesisTime).slot.toNat =
      (time.toNat - genesisTime.toNat) / config.secondsPerSlot.toNat := by
  rw [atTime, UInt64.toNat_div, Word.toNat_satSub]

/-- A store reads its slot from the same clock. -/
theorem currentSlot_eq (v : StoreView) :
    v.currentSlot = (atTime v.config v.time v.genesisTime).slot :=
  rfl

/-- From genesis on, the slot of a time is the one that has started and whose next one has not. -/
theorem atTime_eq_iff (hStarted : genesisTime ≤ time) : atTime config time genesisTime = ⟨slot⟩ ↔
    genesisTime.toNat + slot.toNat * config.secondsPerSlot.toNat ≤ time.toNat ∧
      time.toNat < genesisTime.toNat + (slot.toNat + 1) * config.secondsPerSlot.toNat := by
  have hNat : genesisTime.toNat ≤ time.toNat := hStarted
  have hSlot : atTime config time genesisTime = ⟨slot⟩ ↔
      (time.toNat - genesisTime.toNat) / config.secondsPerSlot.toNat = slot.toNat := by
    rw [← atTime_toNat, UInt64.toNat_inj]
    exact ⟨congrArg Tick.slot, fun h => congrArg Tick.mk h⟩
  rw [hSlot, Nat.div_eq_iff (secondsPerSlot_toNat_pos config), Nat.add_mul]
  have hPos := secondsPerSlot_toNat_pos config
  omega

/-- Times before genesis belong to the first slot. -/
theorem atTime_before (hBefore : time ≤ genesisTime) : atTime config time genesisTime = ⟨0⟩ := by
  have hNat : time.toNat ≤ genesisTime.toNat := hBefore
  have hZero : (atTime config time genesisTime).slot.toNat = (0 : UInt64).toNat := by
    rw [atTime_toNat, Nat.sub_eq_zero_of_le hNat, Nat.zero_div]
    rfl
  exact congrArg Tick.mk (UInt64.toNat_inj.mp hZero)

/-- The slot of a time does not go back when the time moves on. -/
theorem atTime_mono (h : time ≤ time') :
    (atTime config time genesisTime).slot ≤ (atTime config time' genesisTime).slot := by
  rw [UInt64.le_iff_toNat_le, atTime_toNat, atTime_toNat]
  exact Nat.div_le_div_right (Nat.sub_le_sub_right h _)

/-- The slot of the later of two times is the later one of their slots. -/
theorem atTime_max (time time' : UInt64) : (atTime config (max time time') genesisTime).slot =
    max (atTime config time genesisTime).slot (atTime config time' genesisTime).slot := by
  have hMono : Monotone fun n : Nat => (n - genesisTime.toNat) / config.secondsPerSlot.toNat :=
    fun _ _ h => Nat.div_le_div_right (Nat.sub_le_sub_right h _)
  rw [← UInt64.toNat_inj, UInt64.toNat_max, atTime_toNat, atTime_toNat, atTime_toNat,
    UInt64.toNat_max]
  exact hMono.map_max

/-- A slot lasts from its start for as many seconds as there are in a slot. -/
theorem atTime_add {after : UInt64} (hStart : unixSeconds ⟨slot⟩ config genesisTime = .ok time)
    (hWithin : after < config.secondsPerSlot) (hFits : time.toNat + after.toNat < UInt64.size) :
    atTime config (time + after) genesisTime = ⟨slot⟩ := by
  have hWithinNat : after.toNat < config.secondsPerSlot.toNat := hWithin
  have hSum : (time + after).toNat = time.toNat + after.toNat := Word.toNat_add_of_lt hFits
  rw [unixSeconds_eq_ok] at hStart
  have hStarted : genesisTime ≤ time + after := by
    rw [UInt64.le_iff_toNat_le, hSum]
    omega
  rw [atTime_eq_iff hStarted, hSum, hStart, Nat.add_mul]
  omega

end Tick

/-! ## Starts and slots -/

/-- How the starts of slots and the slots of times belong together. -/
structure Config.KeepsSlots (config : Config) (genesisTime : UInt64) : Prop where
  /-- At its start and for as long as it lasts, it is the slot of the time, and the present one of
  each store that shows this time. -/
  within : ∀ {slot start after : UInt64}, Tick.unixSeconds ⟨slot⟩ config genesisTime = .ok start →
    after < config.secondsPerSlot → start.toNat + after.toNat < UInt64.size →
      Tick.atTime config (start + after) genesisTime = ⟨slot⟩ ∧
        ∀ v : StoreView, v.config = config → v.genesisTime = genesisTime →
          v.time = start + after → v.currentSlot = slot
  /-- Only a start that does not fit into a word does not exist. -/
  start : ∀ {slot time : UInt64}, Tick.unixSeconds ⟨slot⟩ config genesisTime = .ok time ↔
    time.toNat = genesisTime.toNat + slot.toNat * config.secondsPerSlot.toNat
  overflow : ∀ {slot : UInt64}, Tick.unixSeconds ⟨slot⟩ config genesisTime = .error .timeOverflow ↔
    UInt64.size ≤ genesisTime.toNat + slot.toNat * config.secondsPerSlot.toNat
  before : ∀ {time : UInt64}, time ≤ genesisTime → Tick.atTime config time genesisTime = ⟨0⟩
  monotone : ∀ {time time' : UInt64}, time ≤ time' →
    (Tick.atTime config time genesisTime).slot ≤ (Tick.atTime config time' genesisTime).slot

theorem Config.keepsSlots (config : Config) (genesisTime : UInt64) :
    config.KeepsSlots genesisTime where
  within hStart hWithin hFits := by
    have hSlot := Tick.atTime_add hStart hWithin hFits
    refine ⟨hSlot, ?_⟩
    rintro v rfl rfl hTime
    rw [Tick.currentSlot_eq, hTime, hSlot]
  start := Tick.unixSeconds_eq_ok
  overflow := Tick.unixSeconds_eq_error.trans ⟨And.right, fun h => ⟨rfl, h⟩⟩
  before := Tick.atTime_before
  monotone := Tick.atTime_mono

/-- The last slot of the small network has no start, and the times of the last second are in an
earlier one. -/
example : Tick.unixSeconds ⟨Word.greatest⟩ .minimal 0 = .error .timeOverflow ∧
    Tick.atTime .minimal Word.greatest 0 = ⟨3074457345618258602⟩ := by
  decide

/-! ## The first tick -/

/-- The time in nanoseconds at which a slot starts, be it representable or not. -/
def Config.startNanos (config : Config) (genesisTime : UInt64) (slot : Nat) : Nat :=
  (genesisTime.toNat + slot * config.secondsPerSlot.toNat) * nanosPerSecond

section

variable {config : Config} {genesisTime time : UInt64} {now wait slot : Nat} {tick : Tick}

theorem Tick.unixSeconds_nanos (h : tick.unixSeconds config genesisTime = .ok time) :
    time.toNat * nanosPerSecond = config.startNanos genesisTime tick.slot.toNat := by
  rw [Tick.unixSeconds_eq_ok.mp h, Config.startNanos]

/-- A quotient that is rounded up. -/
theorem ceil_le_iff {n duration : Nat} (hPos : 0 < duration) :
    (n + duration - 1) / duration ≤ slot ↔ n ≤ slot * duration := by
  rw [Nat.div_le_iff_le_mul hPos]
  omega

/-- The slot that is found is not after another one if and only if the other one does not start in
the past. Before genesis none does, and the difference is zero. -/
theorem ceil_le_iff_startNanos (config : Config) (genesisTime : UInt64) (now slot : Nat) :
    (now - genesisTime.toNat * nanosPerSecond + config.secondsPerSlot.toNat * nanosPerSecond - 1) /
        (config.secondsPerSlot.toNat * nanosPerSecond) ≤ slot ↔
      now ≤ config.startNanos genesisTime slot := by
  have hPos : 0 < config.secondsPerSlot.toNat * nanosPerSecond :=
    Nat.mul_pos (Tick.secondsPerSlot_toNat_pos config) (by decide)
  rw [ceil_le_iff hPos, Config.startNanos, Nat.add_mul, Nat.mul_assoc]
  omega

/-- **The first tick** is that of the least slot that does not start in the past, if its start fits
into a word, and the wait is the time until then. -/
theorem firstTick_eq_ok : firstTick config genesisTime now = .ok (tick, wait) ↔
    (∃ time, tick.unixSeconds config genesisTime = .ok time) ∧
      IsLeast {slot | now ≤ config.startNanos genesisTime slot} tick.slot.toNat ∧
        now + wait = config.startNanos genesisTime tick.slot.toNat := by
  have hLeast := ceil_le_iff_startNanos config genesisTime now
  unfold firstTick
  dsimp only
  generalize (now - genesisTime.toNat * nanosPerSecond +
    config.secondsPerSlot.toNat * nanosPerSecond - 1) /
      (config.secondsPerSlot.toNat * nanosPerSecond) = first at hLeast
  have hFirst : IsLeast {slot | now ≤ config.startNanos genesisTime slot} first :=
    ⟨(hLeast first).mp (Nat.le_refl first), fun slot => (hLeast slot).mpr⟩
  split
  · -- A slot that is too great for a word is not that of any tick.
    rename_i hExceeds
    refine ⟨nofun, fun ⟨_, hTick, _⟩ => ?_⟩
    have hFits := tick.slot.toNat_lt
    rw [hTick.unique hFirst] at hFits
    exact absurd hFits (Nat.not_lt.mpr hExceeds)
  · rename_i hFits
    have hWord : (UInt64.ofNat first).toNat = first :=
      UInt64.toNat_ofNat_of_lt' (Nat.not_le.mp hFits)
    simp only [bind_eq_ok, pure_eq_ok, Prod.mk.injEq]
    constructor
    · rintro ⟨time, hTime, rfl, rfl⟩
      have hNanos := Tick.unixSeconds_nanos hTime
      have hNotPast : now ≤ config.startNanos genesisTime first := hFirst.1
      rw [hWord] at hNanos
      rw [hWord, hNanos]
      exact ⟨⟨time, hTime⟩, hFirst, Nat.add_sub_of_le hNotPast⟩
    · rintro ⟨⟨time, hTime⟩, hTick, hWait⟩
      have hSlot : tick = ⟨UInt64.ofNat first⟩ :=
        congrArg Tick.mk (UInt64.toNat_inj.mp ((hTick.unique hFirst).trans hWord.symm))
      refine ⟨time, hSlot ▸ hTime, hSlot.symm, ?_⟩
      rw [Tick.unixSeconds_nanos hTime, ← hWait, Nat.add_sub_cancel_left]

/-- There is a first tick whenever the start of the least slot that is not in the past fits into a
word. -/
theorem exists_firstTick (hLeast : IsLeast {slot | now ≤ config.startNanos genesisTime slot} slot)
    (hFits : genesisTime.toNat + slot * config.secondsPerSlot.toNat < UInt64.size) :
    ∃ tick wait, firstTick config genesisTime now = .ok (tick, wait) ∧
      tick.slot.toNat = slot := by
  -- The slot itself fits into a word, as slots do not last for nothing.
  have hSlot : slot < UInt64.size := by
    have := Nat.le_mul_of_pos_right slot (Tick.secondsPerSlot_toNat_pos config)
    omega
  have hWord : (UInt64.ofNat slot).toNat = slot := UInt64.toNat_ofNat_of_lt' hSlot
  have hTime : Tick.unixSeconds ⟨UInt64.ofNat slot⟩ config genesisTime = .ok (UInt64.ofNat
      (genesisTime.toNat + slot * config.secondsPerSlot.toNat)) := by
    rw [Tick.unixSeconds_eq_ok, hWord]
    exact UInt64.toNat_ofNat_of_lt' hFits
  refine ⟨⟨UInt64.ofNat slot⟩, config.startNanos genesisTime slot - now, ?_, hWord⟩
  rw [firstTick_eq_ok, hWord]
  exact ⟨⟨_, hTime⟩, hLeast, Nat.add_sub_of_le hLeast.1⟩

theorem firstTick_untilGenesis (hBefore : now ≤ genesisTime.toNat * nanosPerSecond) :
    firstTick config genesisTime now = .ok (⟨0⟩, genesisTime.toNat * nanosPerSecond - now) := by
  have hStart : config.startNanos genesisTime 0 = genesisTime.toNat * nanosPerSecond := by
    rw [Config.startNanos, Nat.zero_mul, Nat.add_zero]
  rw [firstTick_eq_ok]
  refine ⟨⟨genesisTime, Tick.unixSeconds_eq_ok.mpr ?_⟩, ⟨?_, fun slot _ => Nat.zero_le slot⟩, ?_⟩
  · rw [UInt64.toNat_zero, Nat.zero_mul, Nat.add_zero]
  · show now ≤ config.startNanos genesisTime 0
    rw [hStart]
    exact hBefore
  · rw [UInt64.toNat_zero, hStart, Nat.add_sub_of_le hBefore]

end

/-- How the first tick that is not in the past is found, at any time `now` in nanoseconds. -/
structure Config.FindsFirstTick (config : Config) (genesisTime : UInt64) (now : Nat) : Prop where
  /-- It starts at a time that fits into a word and is not in the past, no slot before it does so,
  and until then it is exactly as long as it is said to be. -/
  found : ∀ {tick : Tick} {wait : Nat}, firstTick config genesisTime now = .ok (tick, wait) →
    ∃ time, tick.unixSeconds config genesisTime = .ok time ∧
      time.toNat = genesisTime.toNat + tick.slot.toNat * config.secondsPerSlot.toNat ∧
        now ≤ time.toNat * nanosPerSecond ∧
          (∀ slot, now ≤ config.startNanos genesisTime slot → tick.slot.toNat ≤ slot) ∧
            now + wait = time.toNat * nanosPerSecond
  /-- There is one whenever the start of the least slot that is not in the past fits into a word. -/
  exists_of_fits : ∀ slot,
    IsLeast {slot | now ≤ config.startNanos genesisTime slot} slot →
      genesisTime.toNat + slot * config.secondsPerSlot.toNat < UInt64.size →
        ∃ tick wait, firstTick config genesisTime now = .ok (tick, wait) ∧ tick.slot.toNat = slot
  /-- Until genesis it is that of genesis. -/
  untilGenesis : now ≤ genesisTime.toNat * nanosPerSecond →
    firstTick config genesisTime now = .ok (⟨0⟩, genesisTime.toNat * nanosPerSecond - now)

theorem Config.findsFirstTick (config : Config) (genesisTime : UInt64) (now : Nat) :
    config.FindsFirstTick genesisTime now where
  found := by
    intro tick wait h
    obtain ⟨⟨time, hTime⟩, ⟨hNotPast, hLeast⟩, hWait⟩ := firstTick_eq_ok.mp h
    have hNanos := Tick.unixSeconds_nanos hTime
    refine ⟨time, hTime, Tick.unixSeconds_eq_ok.mp hTime, ?_, fun slot => (hLeast ·), ?_⟩
    · rw [hNanos]
      exact hNotPast
    · rw [hNanos]
      exact hWait
  exists_of_fits := fun _ => exists_firstTick
  untilGenesis := firstTick_untilGenesis

/-- In the middle of slot 2 of the small network, the first tick is that of slot 3. -/
example : firstTick .minimal 1000000 1000012500000000 = .ok (⟨3⟩, 5500000000) := by
  cbv

end ForkChoice
