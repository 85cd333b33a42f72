/-
# Cycles to nanoseconds: `asm/time.h`, `leon_get_uptime`, `get_uptime`

The conversion multiplies by a thousand and divides by the megahertz of the CPU clock, in the one
order below a thousand cycles and in the other from there on.  Both orders round down, the second
before it multiplies, and the megahertz are rounded down as well.  So the values drop at the
threshold when the megahertz leave more than one of the thousand over, and the end of a second
comes out as a full second, or as more, when the megahertz are not exact or the scaler divides the
clock (`cpuCyclesToNs_iff`).  Nothing wraps (`cpuCyclesToNs_eq`).
-/
import FlightOs.Clock.Longcount
import FlightOs.Clock.Timespec

namespace FlightOs

/-! ## 1. The code -/

/-- `SPARC_CPU_CPS / 1000000UL` -/
def cpuMhz (F : Nat) : Nat := F / 1000000

/-- `CPU_CYCLES_TO_NS(x)`, for a CPU clock of `F` hertz -/
def cpuCyclesToNs (F x : Nat) : Nat :=
  if 1000 ≤ x then wmul (x / cpuMhz F) 1000 else wmul x 1000 / cpuMhz F

/-- The seconds and nanoseconds that the uptime clock reads. -/
def leonGetUptime (F : Nat) (up : GrtimerUptime) : Nat × Nat :=
  (up.coarse, cpuCyclesToNs F up.fine)

/-- get the time elapsed since boot, from the clock if one was configured -/
def getUptime (read : Option (Nat × Nat)) : Timespec :=
  match read with
  | none => ⟨0, 0⟩
  | some (sec, nsec) => ⟨sint 32 sec, sint 32 nsec⟩

/-! ## 2. What it is for -/

/-- The cycles in the last tick of the first timer's period, whose reload is `F / (s + 1)`. -/
def fineMax (F s : Nat) : Nat := F / (s + 1) * (s + 1)

/-- The conversion before anything is reduced to a word. -/
def cyclesToNs (F x : Nat) : Nat :=
  if 1000 ≤ x then x / cpuMhz F * 1000 else x * 1000 / cpuMhz F

/-- The nanoseconds of one second: nothing wraps, they never go backwards, and they stay below a
full second, in the conversion and in what `get_uptime` makes of it. -/
structure SecondCounts (F s : Nat) : Prop where
  exact : ∀ x ≤ fineMax F s, cpuCyclesToNs F x = cyclesToNs F x ∧ cyclesToNs F x < 2 ^ 32
  mono : ∀ x y, x ≤ y → y ≤ fineMax F s → cpuCyclesToNs F x ≤ cpuCyclesToNs F y
  range : ∀ x ≤ fineMax F s, cpuCyclesToNs F x < 1000000000
  readings : ∀ sec x y, x ≤ y → y ≤ fineMax F s →
    (getUptime (some (leonGetUptime F ⟨sec, x⟩))).tvNsec ≤
      (getUptime (some (leonGetUptime F ⟨sec, y⟩))).tvNsec
  normalised : ∀ sec, ∀ x ≤ fineMax F s,
    (getUptime (some (leonGetUptime F ⟨sec, x⟩))).Normalised

/-! ## 3. The conversion -/

theorem fineMax_le (F s : Nat) : fineMax F s ≤ F := Nat.div_mul_le_self F (s + 1)

section Cycles

variable {F x y : Nat}

theorem cpuMhz_bounds (hlo : 1000000 ≤ F) (hhi : F ≤ 1000000000) :
    0 < cpuMhz F ∧ cpuMhz F ≤ 1000 ∧ F < (cpuMhz F + 1) * 1000000 := by
  unfold cpuMhz
  omega

/-- No count within a second comes near the end of a word. -/
theorem cyclesToNs_lt (hlo : 1000000 ≤ F) (hhi : F ≤ 1000000000) (hx : x ≤ F) :
    cyclesToNs F x < 2 ^ 31 := by
  obtain ⟨hpos, -, hF⟩ := cpuMhz_bounds hlo hhi
  unfold cyclesToNs
  split
  · have hq : x / cpuMhz F < 2000000 := by
      rw [Nat.div_lt_iff_lt_mul hpos]
      calc x ≤ F := hx
        _ < (cpuMhz F + 1) * 1000000 := hF
        _ ≤ 2000000 * cpuMhz F := by omega
    omega
  · have := Nat.div_le_self (x * 1000) (cpuMhz F)
    omega

/-- Nothing wraps. -/
theorem cpuCyclesToNs_eq (hlo : 1000000 ≤ F) (hhi : F ≤ 1000000000) (hx : x ≤ F) :
    cpuCyclesToNs F x = cyclesToNs F x := by
  have hlt := cyclesToNs_lt hlo hhi hx
  unfold cpuCyclesToNs cyclesToNs at *
  split
  · next h =>
    rw [if_pos h] at hlt
    exact wmul_of_lt (by omega)
  · next h => rw [wmul_of_lt (by omega)]

/-- On either side of the threshold the nanoseconds grow. -/
theorem cyclesToNs_mono (hxy : x ≤ y) (hside : 1000 ≤ x ∨ y < 1000) :
    cyclesToNs F x ≤ cyclesToNs F y := by
  unfold cyclesToNs
  rcases hside with h | h
  · rw [if_pos h, if_pos (h.trans hxy)]
    exact Nat.mul_le_mul_right _ (Nat.div_le_div_right hxy)
  · rw [if_neg (by omega), if_neg (by omega)]
    exact Nat.div_le_div_right (Nat.mul_le_mul_right _ hxy)

/-- At the threshold they do not drop, if and only if the megahertz leave at most one over. -/
theorem cyclesToNs_threshold (hpos : 0 < cpuMhz F) (hle : cpuMhz F ≤ 1000) :
    cyclesToNs F 999 ≤ cyclesToNs F 1000 ↔ 1000 % cpuMhz F ≤ 1 := by
  have h999 : cyclesToNs F 999 = 999 * 1000 / cpuMhz F := if_neg (by decide)
  have h1000 : cyclesToNs F 1000 = 1000 / cpuMhz F * 1000 := if_pos (le_refl _)
  have hsplit := Nat.div_add_mod 1000 (cpuMhz F)
  have hmul : (1000 / cpuMhz F * 1000 + 1) * cpuMhz F =
      cpuMhz F * (1000 / cpuMhz F) * 1000 + cpuMhz F := by ring
  rw [h999, h1000, ← Nat.lt_add_one_iff, Nat.div_lt_iff_lt_mul hpos, hmul]
  omega

/-- The nanoseconds stay below a second, if and only if the cycles stay below the megahertz times a
million. -/
theorem cyclesToNs_range {max : Nat} (hpos : 0 < cpuMhz F) :
    (∀ x ≤ max, cyclesToNs F x < 1000000000) ↔ max < 1000000 * cpuMhz F := by
  rw [← Nat.div_lt_iff_lt_mul hpos]
  constructor
  · intro h
    have hmax := h max (le_refl _)
    unfold cyclesToNs at hmax
    split at hmax
    · omega
    · have := Nat.div_le_self max (cpuMhz F)
      omega
  · intro h x hx
    unfold cyclesToNs
    split
    · have : x / cpuMhz F ≤ max / cpuMhz F := Nat.div_le_div_right hx
      omega
    · have := Nat.div_le_self (x * 1000) (cpuMhz F)
      omega

end Cycles

/-- What `get_uptime` makes of it is the same number. -/
theorem getUptime_tvNsec {F sec x : Nat} (hlo : 1000000 ≤ F) (hhi : F ≤ 1000000000) (hx : x ≤ F) :
    (getUptime (some (leonGetUptime F ⟨sec, x⟩))).tvNsec = cyclesToNs F x := by
  have hlt := cyclesToNs_lt hlo hhi hx
  unfold getUptime leonGetUptime
  dsimp only
  rw [cpuCyclesToNs_eq hlo hhi hx]
  exact sint_of_fits (by norm_num)
    ⟨le_trans (by norm_num) (Int.natCast_nonneg _), by norm_num; omega⟩

/-- **The nanoseconds of the uptime** never go backwards within a second and stay below a full one,
if and only if the megahertz leave at most one of the thousand over, where the threshold is come
to, and the last cycle of the second is below the megahertz times a million. -/
theorem cpuCyclesToNs_iff (F s : Nat) (hlo : 1000000 ≤ F) (hhi : F ≤ 1000000000) :
    SecondCounts F s ↔
      (1000 ≤ fineMax F s → 1000 % cpuMhz F ≤ 1) ∧ fineMax F s < 1000000 * cpuMhz F := by
  obtain ⟨hpos, hle, -⟩ := cpuMhz_bounds hlo hhi
  have hF : ∀ {x : Nat}, x ≤ fineMax F s → x ≤ F := fun hx => hx.trans (fineMax_le F s)
  have heq : ∀ {x : Nat}, x ≤ fineMax F s → cpuCyclesToNs F x = cyclesToNs F x :=
    fun hx => cpuCyclesToNs_eq hlo hhi (hF hx)
  constructor
  · intro h
    refine ⟨fun hmax => ?_, ?_⟩
    · rw [← cyclesToNs_threshold hpos hle]
      have hdrop := h.mono 999 1000 (by decide) hmax
      rwa [heq (by omega), heq hmax] at hdrop
    · rw [← cyclesToNs_range hpos]
      intro x hx
      have hlt := h.range x hx
      rwa [heq hx] at hlt
  · rintro ⟨hthreshold, hmax⟩
    have hmono : ∀ x y, x ≤ y → y ≤ fineMax F s → cyclesToNs F x ≤ cyclesToNs F y := by
      intro x y hxy hy
      by_cases hside : 1000 ≤ x ∨ y < 1000
      · exact cyclesToNs_mono hxy hside
      · calc cyclesToNs F x ≤ cyclesToNs F 999 := cyclesToNs_mono (by omega) (Or.inr (by decide))
          _ ≤ cyclesToNs F 1000 :=
            (cyclesToNs_threshold hpos hle).mpr (hthreshold (by omega))
          _ ≤ cyclesToNs F y := cyclesToNs_mono (by omega) (Or.inl (le_refl _))
    have hrange := (cyclesToNs_range hpos).mpr hmax
    refine ⟨fun x hx => ⟨heq hx, ?_⟩, ?_, ?_, ?_, ?_⟩
    · exact (cyclesToNs_lt hlo hhi (hF hx)).trans (by norm_num)
    · intro x y hxy hy
      rw [heq (hxy.trans hy), heq hy]
      exact hmono x y hxy hy
    · intro x hx
      rw [heq hx]
      exact hrange x hx
    · intro sec x y hxy hy
      rw [getUptime_tvNsec hlo hhi (hF (hxy.trans hy)), getUptime_tvNsec hlo hhi (hF hy)]
      exact_mod_cast hmono x y hxy hy
    · intro sec x hx
      have hlt := hrange x hx
      unfold Timespec.Normalised nsecPerSec
      rw [getUptime_tvNsec hlo hhi (hF hx)]
      omega

/-- At 100 megahertz, a scaler of six does not come to the last cycles of the second. -/
theorem cpuCyclesToNs_iff_six : SecondCounts 100000000 6 :=
  (cpuCyclesToNs_iff 100000000 6 (by decide) (by decide)).mpr (by decide)

/-- At 50 megahertz and the scaler of four, the last reading of a second has a full second of
nanoseconds. -/
theorem cpuCyclesToNs_full : ¬ ∀ F s : Nat, 1000000 ≤ F → F ≤ 1000000000 → SecondCounts F s := by
  intro h
  have hlast := (h 50000000 4 (by decide) (by decide)).range 50000000 (by decide)
  revert hlast
  decide

end FlightOs
