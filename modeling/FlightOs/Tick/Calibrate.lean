/-
# The shortest tick: `tick_calibrate_min` of `kernel/tick.c`

The calibration programs a timeout, waits until the handler has run, and takes the time between two
runs of the handler as one measurement.  It looks for a timeout that gives a duration at all, adds
up a hundred of them, and derives the tick period from their mean.

What is programmed into the clock event device decides only when the handler runs, so the times at
which it runs (`nows`) are what the model is given.  The handler runs while the calibration waits.
A list that ends while it waits is one where it waits forever.

The loop ends with its counter at one hundred, and the sum is then divided by the counter less one.
If a measurement fails, the sum is divided by the right number, but the mean is not doubled.  So
the period is the intended one only when all measurements succeed and the two quotients agree
(`tickCalibrateMin_iff`).
-/
import FlightOs.Lib.Residue
import FlightOs.Tick.Isqrt
import Mathlib.Algebra.Order.BigOperators.Group.List
import Mathlib.Data.List.TakeWhile

namespace FlightOs

/-! ## 1. The code -/

/-- `tick_device[cpu]`, without the clock event device. -/
structure TickDevice where
  prevCalTime : Int
  tickPeriodMinNs : Nat
deriving DecidableEq

/-- The time between two runs of the handler, as an `unsigned long`. -/
def tickDelta (now prev : Int) : Nat := uint 32 (sint 64 (now - prev))

def tickCalibrateHandler (now : Int) (d : TickDevice) : TickDevice :=
  ⟨now, if d.prevCalTime ≠ 0 then tickDelta now d.prevCalTime else d.tickPeriodMinNs⟩

/-- `while (prev == tick_device[cpu].prev_cal_time) cpu_relax()` -/
def tickWait (prev : Int) : List Int → TickDevice → Option (TickDevice × List Int)
  | [], d => if d.prevCalTime = prev then none else some (d, [])
  | now :: nows, d =>
    if d.prevCalTime = prev then tickWait prev nows (tickCalibrateHandler now d)
    else some (d, now :: nows)

/-- `while (!tick_device[cpu].tick_period_min_ns)` -/
def tickFirst : Nat → Int → TickDevice → List Int → Option (Int × TickDevice × List Int)
  | 0, _, _, _ => none
  | fuel + 1, prev, d, nows =>
    if d.tickPeriodMinNs ≠ 0 then some (prev, d, nows)
    else
      match tickWait prev nows d with
      | none => none
      | some (d, nows) => tickFirst fuel d.prevCalTime d nows

/-- The deviation, which is only printed once its root has been found, and the period. -/
def tickCalibrateEnd (i min minsq : Nat) (d : TickDevice) : Option TickDevice :=
  let minsq := wsub (wmul (i - 1) minsq) (wmul min min) / wmul (i - 1) (i - 1)
  if (isqrt 17 (sint 32 minsq)).isOk then
    some { d with tickPeriodMinNs := wmul (min / (i - 1)) 2 }
  else none

/-- `for (i = 1; i < CALIBRATE_LOOPS; i++)`, with `n` rounds to go. -/
def tickCalibrateLoop : Nat → Nat → Nat → Nat → Int → TickDevice → List Int → Option TickDevice
  | 0, i, min, minsq, _, d, _ => tickCalibrateEnd i min minsq d
  | n + 1, i, min, minsq, prev, d, nows =>
    match tickWait prev nows { d with tickPeriodMinNs := 0 } with
    | none => none
    | some (d, nows) =>
      if d.tickPeriodMinNs = 0 then some { d with tickPeriodMinNs := min / i }
      else
        let dt := d.tickPeriodMinNs
        tickCalibrateLoop n (i + 1) (wadd min dt) (wadd minsq (wmul dt dt)) d.prevCalTime
          { d with tickPeriodMinNs := 0 } nows

/-- calibrate the minimum processable tick length, when the device knows one of the two modes -/
def Tick.tickCalibrateMin (mode : Bool) (nows : List Int) : Option TickDevice :=
  let d : TickDevice := ⟨0, 0⟩
  if mode then
    match tickFirst (nows.length + 1) d.prevCalTime d nows with
    | none => none
    | some (prev, d, nows) =>
      let min := d.tickPeriodMinNs
      tickCalibrateLoop 99 1 min (wmul min min) prev d nows
  else some d

/-! ## 2. The measurements -/

/-- The durations that the runs of the handler measure: one for each time that differs from the one
before, and none, which counts as zero, while there is no time before. -/
def tickDurations : Int → List Int → List Nat
  | _, [] => []
  | prev, now :: nows =>
    if now = prev then tickDurations prev nows
    else (if prev ≠ 0 then tickDelta now prev else 0) :: tickDurations now nows

/-- The durations from the first one on. -/
def tickMeasured (nows : List Int) : List Nat := (tickDurations 0 nows).dropWhile (· = 0)

/-- The good ones: those before the first that fails, and a hundred at most. -/
def tickGood (nows : List Int) : List Nat := ((tickMeasured nows).takeWhile (· ≠ 0)).take 100

theorem tickGood_pos {nows : List Int} {dt : Nat} (h : dt ∈ tickGood nows) : 1 ≤ dt := by
  have hne := List.mem_takeWhile_imp (List.mem_of_mem_take h)
  simp only [ne_eq, decide_not, Bool.not_eq_true', decide_eq_false_iff_not] at hne
  exact Nat.pos_of_ne_zero hne

/-- One wait takes one measurement. -/
theorem tickWait_spec {nows : List Int} : ∀ {prev : Int},
    tickDurations prev nows = [] ∧ tickWait prev nows ⟨prev, 0⟩ = none ∨
      ∃ dt now rest, tickDurations prev nows = dt :: tickDurations now rest ∧
        tickWait prev nows ⟨prev, 0⟩ = some (⟨now, dt⟩, rest) ∧ rest.length < nows.length := by
  induction nows with
  | nil =>
    intro prev
    exact Or.inl ⟨rfl, if_pos rfl⟩
  | cons now nows ih =>
    intro prev
    rw [tickWait, if_pos rfl, tickDurations, tickCalibrateHandler]
    dsimp only
    by_cases hsame : now = prev
    · have hzero : (if prev ≠ 0 then tickDelta prev prev else 0) = 0 := by
        simp [tickDelta, sint, uint]
      rw [if_pos hsame, hsame, hzero]
      rcases @ih prev with h | ⟨dt, now', rest, hd, hw, hlen⟩
      · exact Or.inl h
      · exact Or.inr ⟨dt, now', rest, hd, hw, Nat.lt_succ_of_lt hlen⟩
    · rw [if_neg hsame]
      refine Or.inr ⟨_, now, nows, rfl, ?_, Nat.lt_succ_self _⟩
      cases nows with
      | nil => rw [tickWait, if_neg hsame]
      | cons _ _ => rw [tickWait, if_neg hsame]

/-- The first loop ends with the first duration. -/
theorem tickFirst_spec {fuel : Nat} : ∀ {prev : Int} {nows : List Int}, nows.length ≤ fuel →
    (tickDurations prev nows).dropWhile (· = 0) ≠ [] →
    ∃ dt now rest, (tickDurations prev nows).dropWhile (· = 0) = dt :: tickDurations now rest ∧
      dt ≠ 0 ∧ tickFirst (fuel + 1) prev ⟨prev, 0⟩ nows = some (now, ⟨now, dt⟩, rest) := by
  induction fuel with
  | zero =>
    intro prev nows hlen hne
    rw [List.length_eq_zero_iff.mp (Nat.le_zero.mp hlen)] at hne
    exact absurd rfl hne
  | succ fuel ih =>
    intro prev nows hlen hne
    rcases @tickWait_spec nows prev with ⟨hd, -⟩ | ⟨dt, now, rest, hd, hw, hrest⟩
    · rw [hd] at hne
      exact absurd rfl hne
    · rw [tickFirst, if_neg (by simp), hw]
      dsimp only
      rw [hd] at hne ⊢
      by_cases hdt : dt = 0
      · have hdrop : (dt :: tickDurations now rest).dropWhile (· = 0) =
            (tickDurations now rest).dropWhile (· = 0) := by simp [hdt]
        rw [hdrop] at hne ⊢
        rw [hdt]
        exact ih (by omega) hne
      · refine ⟨dt, now, rest, by simp [hdt], hdt, ?_⟩
        rw [tickFirst, if_pos (by simpa using hdt)]

/-! ## 3. The period -/

/-- The deviation has a square root, since the square is small after the division. -/
theorem tickCalibrateEnd_eq {min minsq : Nat} {d : TickDevice} :
    tickCalibrateEnd 100 min minsq d =
      some { d with tickPeriodMinNs := wmul (min / 99) 2 } := by
  have h99 : 100 - 1 = 99 := rfl
  have hdiv : wmul 99 99 = 9801 := by decide
  unfold tickCalibrateEnd
  rw [h99, hdiv]
  dsimp only
  have hlt : wsub (wmul 99 minsq) (wmul min min) / 9801 < 2147483648 :=
    Nat.div_lt_of_lt_mul (lt_trans (wsub_lt _ _) (by norm_num))
  generalize wsub (wmul 99 minsq) (wmul min min) / 9801 = q at hlt ⊢
  have hfits : Fits 32 (q : Int) :=
    ⟨le_trans (by norm_num) (Int.natCast_nonneg q), by norm_num; omega⟩
  obtain ⟨r, hr, -⟩ := isqrt_spec (Int.natCast_nonneg q) hfits.2 (le_refl 17)
  rw [sint_of_fits (by norm_num) hfits, hr]
  rfl

/-- The loop adds the good measurements up, to the last or to the first that fails. -/
theorem tickCalibrateLoop_spec {n : Nat} : ∀ {i min minsq per : Nat} {prev : Int} {nows : List Int}
    {good : List Nat}, i + n = 100 → good = ((tickDurations prev nows).takeWhile (· ≠ 0)).take n →
    min + good.sum < 2 ^ 32 → (good.length = n ∨ good.length < (tickDurations prev nows).length) →
    ∃ dev, tickCalibrateLoop n i min minsq prev ⟨prev, per⟩ nows = some dev ∧
      dev.tickPeriodMinNs = if good.length = n then wmul ((min + good.sum) / 99) 2
        else (min + good.sum) / (i + good.length) := by
  induction n with
  | zero =>
    intro i min minsq per prev nows good hi hgood _ _
    rw [List.take_zero] at hgood
    rw [Nat.add_zero] at hi
    rw [hgood, tickCalibrateLoop, hi, tickCalibrateEnd_eq]
    exact ⟨_, rfl, rfl⟩
  | succ n ih =>
    intro i min minsq per prev nows good hi hgood hsum hmeasured
    rw [tickCalibrateLoop]
    dsimp only
    rcases @tickWait_spec nows prev with ⟨hd, -⟩ | ⟨dt, now, rest, hd, hw, -⟩
    · rw [hd] at hgood hmeasured
      rw [hgood] at hmeasured
      simp at hmeasured
    · rw [hd] at hgood hmeasured
      rw [hw]
      dsimp only
      by_cases hdt : dt = 0
      · -- the measurement has failed
        have hnil : good = [] := by simp [hgood, hdt]
        rw [if_pos hdt, hnil]
        exact ⟨_, rfl, rfl⟩
      · rw [if_neg hdt]
        have hcons : good = dt :: ((tickDurations now rest).takeWhile (· ≠ 0)).take n := by
          simp [hgood, hdt]
        rw [hcons, List.sum_cons] at hsum
        rw [hcons, List.length_cons, List.length_cons] at hmeasured
        have hadd : wadd min dt = min + dt := wadd_of_lt (by omega)
        obtain ⟨dev, hdev, hper⟩ := @ih (i + 1) (min + dt) (wadd minsq (wmul dt dt)) 0 now rest _
          (by omega) rfl (by omega) (by omega)
        refine ⟨dev, by rw [hadd]; exact hdev, ?_⟩
        rw [hper, hcons, List.length_cons, List.sum_cons, ← Nat.add_assoc, Nat.add_right_comm i]
        simp only [Nat.add_right_cancel_iff, Nat.add_assoc]

/-- What the calibration sets, for measurements that go on to the hundredth good one or to one that
fails. -/
theorem tickCalibrateMin_eq {nows : List Int} (hsum : (tickGood nows).sum < 2 ^ 32)
    (hmeasured : (tickGood nows).length = 100 ∨
      (tickGood nows).length < (tickMeasured nows).length) :
    0 < (tickGood nows).length ∧ ∃ dev, Tick.tickCalibrateMin true nows = some dev ∧
      dev.tickPeriodMinNs = if (tickGood nows).length = 100 then wmul ((tickGood nows).sum / 99) 2
        else (tickGood nows).sum / (tickGood nows).length := by
  have hne : tickMeasured nows ≠ [] := by
    intro hnil
    rw [tickGood, hnil] at hmeasured
    simp at hmeasured
  obtain ⟨dt, now, rest, hd, hdt, hfirst⟩ := tickFirst_spec (Nat.le_refl _) hne
  have hcons : tickGood nows = dt :: ((tickDurations now rest).takeWhile (· ≠ 0)).take 99 := by
    rw [tickGood, tickMeasured, hd]
    simp [hdt]
  rw [tickMeasured, hd, hcons, List.length_cons, List.length_cons] at hmeasured
  rw [hcons, List.sum_cons] at hsum
  obtain ⟨dev, hdev, hper⟩ := @tickCalibrateLoop_spec 99 1 dt (wmul dt dt) dt now rest _
    (by decide) rfl hsum (by omega)
  refine ⟨by simp [hcons], dev, ?_, ?_⟩
  · rw [Tick.tickCalibrateMin, if_pos rfl]
    dsimp only
    rw [hfirst]
    exact hdev
  · rw [hper, hcons, List.length_cons, List.sum_cons, Nat.add_comm 1]
    simp only [Nat.reduceEqDiff]

/-- **The calibrated period** is twice the mean of the good measurements, if and only if there are a
hundred of them, and a ninety-ninth of their sum is no more than a hundredth. -/
theorem tickCalibrateMin_iff (nows : List Int) (hsum : (tickGood nows).sum < 2 ^ 32)
    (hmeasured : (tickGood nows).length = 100 ∨
      (tickGood nows).length < (tickMeasured nows).length) :
    (∃ dev, Tick.tickCalibrateMin true nows = some dev ∧
      dev.tickPeriodMinNs = 2 * ((tickGood nows).sum / (tickGood nows).length)) ↔
      (tickGood nows).length = 100 ∧ (tickGood nows).sum / 100 + (tickGood nows).sum % 100 < 99 := by
  obtain ⟨hpos, dev, hdev, hper⟩ := tickCalibrateMin_eq hsum hmeasured
  have hset : (∃ dev, Tick.tickCalibrateMin true nows = some dev ∧
      dev.tickPeriodMinNs = 2 * ((tickGood nows).sum / (tickGood nows).length)) ↔
      dev.tickPeriodMinNs = 2 * ((tickGood nows).sum / (tickGood nows).length) := by
    simp [hdev]
  rw [hset, hper]
  by_cases hall : (tickGood nows).length = 100
  · rw [if_pos hall, hall, wmul_of_lt (by omega)]
    omega
  · -- the good ones are positive, so half of what is wanted is less than it
    have hle : (tickGood nows).length ≤ (tickGood nows).sum :=
      List.length_le_sum_of_one_le _ fun d hd => tickGood_pos hd
    have hmean : 0 < (tickGood nows).sum / (tickGood nows).length := Nat.div_pos hle hpos
    rw [if_neg hall]
    omega

/-- Times of the handler that are `dt` apart. -/
def tickTimes (dt : Int) : List Int := (List.range 101).map fun i => 1 + dt * (i : Int)

/-- For a hundred durations of four nanoseconds the period is right. -/
theorem tickCalibrateMin_iff_short : ∃ dev, Tick.tickCalibrateMin true (tickTimes 4) = some dev ∧
    dev.tickPeriodMinNs = 2 * ((tickGood (tickTimes 4)).sum / (tickGood (tickTimes 4)).length) :=
  (tickCalibrateMin_iff (tickTimes 4) (by decide) (Or.inl (by decide))).mpr
    (by decide)

/-- For a hundred durations of a microsecond it is two times 1010 nanoseconds. -/
theorem tickCalibrateMin_long : ¬ ∀ nows : List Int, (tickGood nows).sum < 2 ^ 32 →
    ((tickGood nows).length = 100 ∨ (tickGood nows).length < (tickMeasured nows).length) →
      ∃ dev, Tick.tickCalibrateMin true nows = some dev ∧
        dev.tickPeriodMinNs = 2 * ((tickGood nows).sum / (tickGood nows).length) := by
  intro h
  have hsum : (tickGood (tickTimes 1000)).sum = 100000 := by decide
  have hlen : (tickGood (tickTimes 1000)).length = 100 := by decide
  obtain ⟨-, dev, hdev, hper⟩ := tickCalibrateMin_eq (by rw [hsum]; decide) (Or.inl hlen)
  obtain ⟨dev', hdev', hper'⟩ := h (tickTimes 1000) (by rw [hsum]; decide) (Or.inl hlen)
  rw [hdev] at hdev'
  rw [← Option.some.inj hdev', hper, hlen, hsum] at hper'
  revert hper'
  decide

end FlightOs
