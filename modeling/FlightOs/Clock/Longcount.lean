/-
# The long count timer: `lib/grtimer_longcount.c`

Timer 0 counts down and reloads from `r0` at its underflow; timer 1 is chained to it and counts the
underflows down.  The scaler in front of them divides the CPU clock by `sc + 1`.  The state of the
two after `n` ticks from the start is `LongcountCfg.state n`.

* The uptime is put together from six reads, between which the timers go on.  `longcount_sampled`:
  whichever pair is chosen, the timers really had these values at one time during the call, when
  the reads fit within one period of timer 0.
* The time since a latch is computed from one read of each timer.  `latchTimeDiff_iff`: when it is
  the number of cycles.  The code misses the scaler on the part below one period, and the one tick
  that a period has more than its reload value.
-/
import FlightOs.Lib.Residue
import Mathlib.Data.Fin.VecNotation
import Mathlib.Order.Fin.Basic
import Mathlib.Logic.Function.Iterate
import Mathlib.Tactic.LinearCombination
import Mathlib.Tactic.Zify

namespace FlightOs

/-! ## 1. The timers -/

/-- The values of the two timers. -/
structure Counters where
  fine : Nat
  coarse : Nat
deriving DecidableEq

/-- The reload values of the timers and of the scaler, as set up by `grtimer_longcount_start`. -/
structure LongcountCfg where
  r0 : Nat
  r1 : Nat
  sc : Nat
  r0_lt : r0 < 2 ^ 32
  r1_lt : r1 < 2 ^ 32

namespace LongcountCfg

variable (c : LongcountCfg)

/-- One tick of the scaler.  The chained timer counts when the first one reloads. -/
def tick (s : Counters) : Counters :=
  if s.fine = 0 then ⟨c.r0, if s.coarse = 0 then c.r1 else s.coarse - 1⟩
  else ⟨s.fine - 1, s.coarse⟩

/-- The timers `n` ticks after both were loaded. -/
def state (n : Nat) : Counters := c.tick^[n] ⟨c.r0, c.r1⟩

end LongcountCfg

/-! ## 2. The code -/

/-- `struct grtimer_uptime` -/
structure GrtimerUptime where
  coarse : Nat
  fine : Nat
deriving DecidableEq

/-- Earlier: by the coarse part first. -/
def GrtimerUptime.le (a b : GrtimerUptime) : Prop :=
  a.coarse < b.coarse ∨ a.coarse = b.coarse ∧ a.fine ≤ b.fine

/-- The uptime for one pair of values. -/
def LongcountCfg.uptime (c : LongcountCfg) (s : Counters) : GrtimerUptime :=
  ⟨wsub c.r1 s.coarse, wmul (wsub c.r0 s.fine) (wadd c.sc 1)⟩

/-- get the time since the long counting grtimer was started -/
def grtimerLongcountGetUptime (c : LongcountCfg) (t0a t1a t0b t1b t0c t1c : Nat) : GrtimerUptime :=
  if t0b ≤ t0a ∧ t1b ≤ t1a then c.uptime ⟨t0a, t1a⟩ else c.uptime ⟨t0c, t1c⟩

/-- The call whose six reads take place at the ticks `T`. -/
def LongcountCfg.sample (c : LongcountCfg) (T : Fin 6 → Nat) : GrtimerUptime :=
  grtimerLongcountGetUptime c (c.state (T 0)).fine (c.state (T 1)).coarse (c.state (T 2)).fine
    (c.state (T 3)).coarse (c.state (T 4)).fine (c.state (T 5)).coarse

/-- get the time since last latch occured in cpu cycles -/
def grtimerLongcountGetLatchTimeDiff (c : LongcountCfg) (latch now : Counters) : Nat :=
  let diff := wmul (wmul (wsub latch.coarse now.coarse) c.r0) (wadd c.sc 1)
  if now.fine < latch.fine then wadd diff (wsub latch.fine now.fine)
  else wadd diff (wsub c.r0 now.fine)

/-! ## 3. The timers in closed form -/

/-- A quotient and a remainder, one later. -/
theorem divMod_succ (r n : Nat) :
    (n + 1) / (r + 1) = n / (r + 1) + (if n % (r + 1) = r then 1 else 0) ∧
      (n + 1) % (r + 1) = if n % (r + 1) = r then 0 else n % (r + 1) + 1 := by
  have hpos : 0 < r + 1 := Nat.succ_pos r
  have hlt := Nat.mod_lt n hpos
  have hsplit := Nat.mod_add_div n (r + 1)
  apply (Nat.div_mod_unique hpos).mpr
  split
  · rw [Nat.mul_succ]
    omega
  · simp only [Nat.add_zero]
    omega

namespace LongcountCfg

variable (c : LongcountCfg)

/-- The timers count the ticks: the first by remainders and the second by quotients. -/
theorem state_eq (n : Nat) : c.state n =
    ⟨c.r0 - n % (c.r0 + 1), c.r1 - n / (c.r0 + 1) % (c.r1 + 1)⟩ := by
  induction n with
  | zero => simp [state]
  | succ n ih =>
    have hstep : c.state (n + 1) = c.tick (c.state n) := Function.iterate_succ_apply' _ _ _
    obtain ⟨hdiv, hmod⟩ := divMod_succ c.r0 n
    obtain ⟨-, hmod1⟩ := divMod_succ c.r1 (n / (c.r0 + 1))
    have hlt0 := Nat.mod_lt n (by omega : 0 < c.r0 + 1)
    have hlt1 := Nat.mod_lt (n / (c.r0 + 1)) (by omega : 0 < c.r1 + 1)
    rw [hstep, ih, hdiv, hmod, tick]
    dsimp only
    by_cases h : n % (c.r0 + 1) = c.r0
    · rw [if_pos h, if_pos h, if_pos (by omega), hmod1]
      congr 1
      split <;> split <;> omega
    · rw [if_neg h, if_neg h, if_neg (by omega), Nat.sub_sub]
      simp only [Nat.add_zero]

theorem state_fine (n : Nat) : (c.state n).fine = c.r0 - n % (c.r0 + 1) := by
  rw [state_eq]

theorem state_coarse (n : Nat) :
    (c.state n).coarse = c.r1 - n / (c.r0 + 1) % (c.r1 + 1) := by
  rw [state_eq]

/-- Two states of one period. -/
theorem state_same {m n : Nat} (hmn : m ≤ n) (h : m / (c.r0 + 1) = n / (c.r0 + 1)) :
    (c.state n).fine ≤ (c.state m).fine ∧ (c.state n).coarse = (c.state m).coarse := by
  have hm := Nat.mod_add_div m (c.r0 + 1)
  have hn := Nat.mod_add_div n (c.r0 + 1)
  rw [state_fine, state_fine, state_coarse, state_coarse]
  rw [h] at hm ⊢
  exact ⟨by omega, rfl⟩

/-- Within the length of a period there is at most one reload. -/
theorem div_le_succ {m n : Nat} (h : n ≤ m + c.r0) :
    n / (c.r0 + 1) ≤ m / (c.r0 + 1) + 1 := by
  rw [← Nat.add_div_right m (by omega)]
  exact Nat.div_le_div_right (by omega)

/-- After a reload, and before a full period has gone by, the first timer is above where it was. -/
theorem state_reloaded {m n : Nat} (h : n ≤ m + c.r0) (hlt : m / (c.r0 + 1) < n / (c.r0 + 1)) :
    (c.state m).fine < (c.state n).fine := by
  have hq : n / (c.r0 + 1) = m / (c.r0 + 1) + 1 := Nat.le_antisymm (c.div_le_succ h) hlt
  have hm := Nat.mod_add_div m (c.r0 + 1)
  have hn := Nat.mod_add_div n (c.r0 + 1)
  have hltm := Nat.mod_lt m (by omega : 0 < c.r0 + 1)
  rw [state_fine, state_fine]
  rw [hq, Nat.mul_succ] at hn
  omega

/-! ## 4. The uptime -/

/-- The six reads of one call: in their order, and within one period of the first timer. -/
structure Reads (T : Fin 6 → Nat) : Prop where
  mono : Monotone T
  period : T 5 ≤ T 0 + c.r0

variable {c} {T T' : Fin 6 → Nat}

/-- The values of two reads in one period are those of one state. -/
theorem state_of_same {m n : Nat} (hmn : m ≤ n) (h : m / (c.r0 + 1) = n / (c.r0 + 1)) :
    (⟨(c.state m).fine, (c.state n).coarse⟩ : Counters) = c.state m := by
  rw [(c.state_same hmn h).2]

/-- If the first pair is chosen, no reload came between its two reads. -/
theorem Reads.first (h : c.Reads T) (hchosen : (c.state (T 2)).fine ≤ (c.state (T 0)).fine) :
    T 0 / (c.r0 + 1) = T 1 / (c.r0 + 1) := by
  have h01 : T 0 ≤ T 1 := h.mono (by decide)
  have h12 : T 1 ≤ T 2 := h.mono (by decide)
  have h25 : T 2 ≤ T 5 := h.mono (by decide)
  by_contra hne
  have hlt : T 0 / (c.r0 + 1) < T 1 / (c.r0 + 1) :=
    lt_of_le_of_ne (Nat.div_le_div_right h01) hne
  have hreload := c.state_reloaded (m := T 0) (n := T 2) (h25.trans h.period)
    (lt_of_lt_of_le hlt (Nat.div_le_div_right h12))
  omega

/-- If the last pair is chosen, none came between its two. -/
theorem Reads.last (h : c.Reads T) (hchosen : ¬ ((c.state (T 2)).fine ≤ (c.state (T 0)).fine ∧
    (c.state (T 3)).coarse ≤ (c.state (T 1)).coarse)) :
    T 4 / (c.r0 + 1) = T 5 / (c.r0 + 1) := by
  have h01 : T 0 ≤ T 1 := h.mono (by decide)
  have h12 : T 1 ≤ T 2 := h.mono (by decide)
  have h23 : T 2 ≤ T 3 := h.mono (by decide)
  have h34 : T 3 ≤ T 4 := h.mono (by decide)
  have h45 : T 4 ≤ T 5 := h.mono (by decide)
  have hdiv : ∀ {m n : Nat}, m ≤ n → m / (c.r0 + 1) ≤ n / (c.r0 + 1) :=
    fun hmn => Nat.div_le_div_right hmn
  have hone := c.div_le_succ h.period
  have h01' := hdiv h01
  have h12' := hdiv h12
  have h23' := hdiv h23
  have h34' := hdiv h34
  have h45' := hdiv h45
  by_contra hne
  -- the one reload is behind the first four reads
  have hfine := (c.state_same (h01.trans h12) (by omega)).1
  have hcoarse := (c.state_same (h12.trans h23) (by omega)).2
  exact hchosen ⟨hfine, hcoarse.le⟩

/-- The uptime is that of a state during the call. -/
theorem Reads.sampled (h : c.Reads T) :
    ∃ n, T 0 ≤ n ∧ n ≤ T 5 ∧ c.sample T = c.uptime (c.state n) := by
  unfold sample grtimerLongcountGetUptime
  split
  · next hchosen =>
    refine ⟨T 0, le_refl _, h.mono (by decide), ?_⟩
    rw [state_of_same (h.mono (by decide)) (h.first hchosen.1)]
  · next hchosen =>
    refine ⟨T 4, h.mono (by decide), h.mono (by decide), ?_⟩
    rw [state_of_same (h.mono (by decide)) (h.last hchosen)]

/-- What the uptime of a state counts, when a period has fewer than `2 ^ 32` cycles. -/
theorem uptime_state (hfit : c.r0 * (c.sc + 1) < 2 ^ 32) (n : Nat) : c.uptime (c.state n) =
    ⟨n / (c.r0 + 1) % (c.r1 + 1), n % (c.r0 + 1) * (c.sc + 1)⟩ := by
  have hlt0 := Nat.mod_lt n (by omega : 0 < c.r0 + 1)
  have hlt1 := Nat.mod_lt (n / (c.r0 + 1)) (by omega : 0 < c.r1 + 1)
  have hless : n % (c.r0 + 1) * (c.sc + 1) < 2 ^ 32 :=
    lt_of_le_of_lt (Nat.mul_le_mul_right _ (by omega)) hfit
  have hfine : wsub c.r0 (c.r0 - n % (c.r0 + 1)) = n % (c.r0 + 1) := by
    rw [wsub_of_le c.r0_lt (by omega)]
    omega
  have hcoarse : wsub c.r1 (c.r1 - n / (c.r0 + 1) % (c.r1 + 1)) =
      n / (c.r0 + 1) % (c.r1 + 1) := by
    rw [wsub_of_le c.r1_lt (by omega)]
    omega
  rw [uptime, state_eq]
  dsimp only
  rw [hfine, hcoarse, wmul, wadd, Nat.mul_mod_mod, Nat.add_comm 1, Nat.mod_eq_of_lt hless]

/-- As long as the second timer does not run out, the uptime does not decrease. -/
theorem uptime_mono (hfit : c.r0 * (c.sc + 1) < 2 ^ 32) {m n : Nat} (hmn : m ≤ n)
    (hwrap : m / ((c.r0 + 1) * (c.r1 + 1)) = n / ((c.r0 + 1) * (c.r1 + 1))) :
    (c.uptime (c.state m)).le (c.uptime (c.state n)) := by
  have hq : m / (c.r0 + 1) ≤ n / (c.r0 + 1) := Nat.div_le_div_right hmn
  have hm := Nat.mod_add_div (m / (c.r0 + 1)) (c.r1 + 1)
  have hn := Nat.mod_add_div (n / (c.r0 + 1)) (c.r1 + 1)
  rw [Nat.div_div_eq_div_mul] at hm hn
  rw [hwrap] at hm
  rw [uptime_state hfit, uptime_state hfit]
  rcases Nat.lt_or_eq_of_le hq with hlt | heq
  · left
    dsimp only
    omega
  · right
    have hm0 := Nat.mod_add_div m (c.r0 + 1)
    have hn0 := Nat.mod_add_div n (c.r0 + 1)
    rw [heq] at hm0 ⊢
    exact ⟨rfl, Nat.mul_le_mul_right _ (by omega)⟩

end LongcountCfg

/-- **The uptime is sampled consistently.**  Every call whose reads fit within one period returns
the uptime of a state that the timers had during the call.  So, where the cycles of a period fit a
word, the uptimes of two calls never decrease until the second timer runs out. -/
theorem longcount_sampled (c : LongcountCfg) :
    (∀ T, c.Reads T → ∃ n, T 0 ≤ n ∧ n ≤ T 5 ∧ c.sample T = c.uptime (c.state n)) ∧
      (c.r0 * (c.sc + 1) < 2 ^ 32 → ∀ T T', c.Reads T → c.Reads T' → T 5 ≤ T' 0 →
        T 0 / ((c.r0 + 1) * (c.r1 + 1)) = T' 5 / ((c.r0 + 1) * (c.r1 + 1)) →
          (c.sample T).le (c.sample T')) := by
  refine ⟨fun T h => h.sampled, ?_⟩
  intro hfit T T' hT hT' hcalls hwrap
  obtain ⟨m, hm0, hm5, hm⟩ := hT.sampled
  obtain ⟨n, hn0, hn5, hn⟩ := hT'.sampled
  have hmn : m ≤ n := hm5.trans (hcalls.trans hn0)
  rw [hm, hn]
  apply LongcountCfg.uptime_mono hfit hmn
  apply Nat.le_antisymm
  · exact Nat.div_le_div_right hmn
  · calc n / ((c.r0 + 1) * (c.r1 + 1)) ≤ T' 5 / ((c.r0 + 1) * (c.r1 + 1)) :=
          Nat.div_le_div_right hn5
      _ = T 0 / ((c.r0 + 1) * (c.r1 + 1)) := hwrap.symm
      _ ≤ m / ((c.r0 + 1) * (c.r1 + 1)) := Nat.div_le_div_right hm0

/-- The timers as `leon_grtimer_longcount_init` starts them, for a CPU clock of `F` hertz. -/
def leonLongcount (F : Nat) (hF : F ≤ 1000000000) : LongcountCfg where
  r0 := F / (4 + 1)
  r1 := 0xFFFFFFFF
  sc := 4
  r0_lt := by omega
  r1_lt := by decide

/-- There the cycles of a period fit. -/
theorem leonLongcount_fits (F : Nat) (hF : F ≤ 1000000000) :
    (leonLongcount F hF).r0 * ((leonLongcount F hF).sc + 1) < 2 ^ 32 := by
  unfold leonLongcount
  dsimp only
  omega

/-- A call with a reload between its first two reads, and the call after it. -/
theorem longcount_sampled_reload :
    (∃ n, 9 ≤ n ∧ n ≤ 13 ∧ (leonLongcount 45 (by decide)).sample ![9, 10, 11, 11, 12, 13] =
      (leonLongcount 45 (by decide)).uptime ((leonLongcount 45 (by decide)).state n)) ∧
      ((leonLongcount 45 (by decide)).sample ![9, 10, 11, 11, 12, 13]).le
        ((leonLongcount 45 (by decide)).sample ![14, 15, 15, 16, 18, 19]) := by
  have hsampled := longcount_sampled (leonLongcount 45 (by decide))
  have hT : (leonLongcount 45 (by decide)).Reads ![9, 10, 11, 11, 12, 13] :=
    ⟨by decide, by decide⟩
  have hT' : (leonLongcount 45 (by decide)).Reads ![14, 15, 15, 16, 18, 19] :=
    ⟨by decide, by decide⟩
  exact ⟨hsampled.1 _ hT, hsampled.2 (by decide) _ _ hT hT' (by decide) (by decide)⟩

/-! ## 5. The time since a latch -/

namespace LongcountCfg

variable (c : LongcountCfg)

/-- The second timer has run out between the two states. -/
def Wrapped (latch now : Counters) : Prop :=
  latch.coarse < now.coarse ∨ latch.coarse = now.coarse ∧ latch.fine < now.fine

instance (latch now : Counters) : Decidable (Wrapped latch now) :=
  inferInstanceAs (Decidable (_ ∨ _))

/-- How often the first timer has reloaded between two states. -/
def reloads (latch now : Counters) : Int :=
  latch.coarse - now.coarse + if Wrapped latch now then (c.r1 + 1 : Int) else 0

/-- The cycles missing in the result: one tick for each reload, the scaler on the part below one
period, the start of a period in which the latched value was not come to, and what the second timer
has beyond a word when it runs out. -/
def latchMissing (latch now : Counters) : Int :=
  c.reloads latch now * (c.sc + 1) +
    (if Wrapped latch now then (c.r1 + 1 : Int) * c.r0 * (c.sc + 1) else 0) +
    if now.fine < latch.fine then (latch.fine - now.fine : Int) * c.sc
    else (latch.fine - now.fine : Int) * (c.sc + 1) - (c.r0 - now.fine)

variable {c} {m n : Nat}

/-- The second timer has run out, if and only if the tick is at an earlier place of the whole range
than the one before. -/
theorem wrapped_iff : Wrapped (c.state m) (c.state n) ↔
    n % ((c.r0 + 1) * (c.r1 + 1)) < m % ((c.r0 + 1) * (c.r1 + 1)) := by
  have hm0 := Nat.mod_lt m (by omega : 0 < c.r0 + 1)
  have hn0 := Nat.mod_lt n (by omega : 0 < c.r0 + 1)
  have hm1 := Nat.mod_lt (m / (c.r0 + 1)) (by omega : 0 < c.r1 + 1)
  have hn1 := Nat.mod_lt (n / (c.r0 + 1)) (by omega : 0 < c.r1 + 1)
  rw [Nat.mod_mul, Nat.mod_mul, Wrapped, state_eq, state_eq]
  dsimp only
  rcases Nat.lt_trichotomy (n / (c.r0 + 1) % (c.r1 + 1)) (m / (c.r0 + 1) % (c.r1 + 1)) with
    hlt | heq | hgt
  · have := Nat.mul_le_mul_left (c.r0 + 1) hlt
    rw [Nat.mul_succ] at this
    omega
  · rw [heq]
    omega
  · have := Nat.mul_le_mul_left (c.r0 + 1) hgt
    rw [Nat.mul_succ] at this
    omega

/-- A later tick less than a range away is in the same range, or in the next one if it is at an
earlier place. -/
theorem div_range {P : Nat} (hmn : m ≤ n) (hrange : n - m < P) :
    n / P = m / P + if n % P < m % P then 1 else 0 := by
  have hP : 0 < P := by omega
  have hm := Nat.mod_add_div m P
  have hn := Nat.mod_add_div n P
  have hmlt := Nat.mod_lt m hP
  have hnlt := Nat.mod_lt n hP
  have hle : m / P ≤ n / P := Nat.div_le_div_right hmn
  have hge : n / P ≤ m / P + 1 := by
    rw [← Nat.add_div_right m hP]
    exact Nat.div_le_div_right (by omega)
  rcases Nat.lt_or_eq_of_le hle with hlt | heq
  · have hone : n / P = m / P + 1 := Nat.le_antisymm hge hlt
    rw [hone, Nat.mul_succ] at hn
    rw [hone, if_pos (by omega)]
  · rw [← heq] at hn ⊢
    rw [if_neg (by omega), Nat.add_zero]

/-- Where the fine value is below the latched one, cycles are missing for every reload and for every
scaler: only without both is nothing missing. -/
theorem latchMissing_eq_zero_iff (c : LongcountCfg) {latch now : Counters}
    (hfine : now.fine < latch.fine) (hwrap : ¬ Wrapped latch now) :
    c.latchMissing latch now = 0 ↔ latch.coarse = now.coarse ∧ c.sc = 0 := by
  have hcoarse : now.coarse ≤ latch.coarse := by
    unfold Wrapped at hwrap
    omega
  unfold latchMissing reloads
  rw [if_neg hwrap, if_neg hwrap, if_pos hfine, add_zero, add_zero]
  have hreloads : (0 : Int) ≤ (latch.coarse - now.coarse) * (c.sc + 1) :=
    mul_nonneg (by omega) (by omega)
  have hscaled : (0 : Int) ≤ (latch.fine - now.fine) * c.sc := mul_nonneg (by omega) (by omega)
  rw [add_eq_zero_iff_of_nonneg hreloads hscaled, mul_eq_zero, mul_eq_zero]
  omega

/-- The ticks between two states, by their values. -/
theorem elapsed_eq (hmn : m ≤ n) (hrange : n - m < (c.r0 + 1) * (c.r1 + 1)) :
    (n : Int) - m = c.reloads (c.state m) (c.state n) * (c.r0 + 1) +
      ((c.state m).fine - (c.state n).fine) := by
  have hm := Nat.mod_add_div m ((c.r0 + 1) * (c.r1 + 1))
  have hn := Nat.mod_add_div n ((c.r0 + 1) * (c.r1 + 1))
  have hm0 := Nat.mod_lt m (by omega : 0 < c.r0 + 1)
  have hn0 := Nat.mod_lt n (by omega : 0 < c.r0 + 1)
  have hm1 := Nat.mod_lt (m / (c.r0 + 1)) (by omega : 0 < c.r1 + 1)
  have hn1 := Nat.mod_lt (n / (c.r0 + 1)) (by omega : 0 < c.r1 + 1)
  rw [div_range hmn hrange] at hn
  unfold reloads
  rw [if_congr wrapped_iff rfl rfl, state_eq, state_eq]
  dsimp only
  have hcast : ∀ {r x : Nat}, x < r + 1 → ((r - x : Nat) : Int) = r - x :=
    fun hx => Nat.cast_sub (Nat.le_of_lt_succ hx)
  rw [hcast hm0, hcast hn0, hcast hm1, hcast hn1]
  split at hn
  · next h =>
    rw [if_pos h]
    rw [Nat.mod_mul] at hm hn
    zify at hm hn
    push_cast
    linear_combination hm - hn
  · next h =>
    rw [if_neg h]
    rw [Nat.mod_mul] at hm hn
    zify at hm hn
    push_cast
    linear_combination hm - hn

/-- The result, up to a multiple of `2 ^ 32`. -/
theorem latchTimeDiff_residue {latch now : Counters} :
    (grtimerLongcountGetLatchTimeDiff c latch now : Int) ≡
      (c.reloads latch now * (c.r0 + 1) + (latch.fine - now.fine)) * (c.sc + 1) -
        c.latchMissing latch now [ZMOD 2 ^ 32] := by
  have hdiff : (wmul (wmul (wsub latch.coarse now.coarse) c.r0) (wadd c.sc 1) : Int) ≡
      (latch.coarse - now.coarse) * c.r0 * (c.sc + 1) [ZMOD 2 ^ 32] :=
    (wmul_residue _ _).trans (((wmul_residue _ _).trans
      ((wsub_residue _ _).mul_right _)).mul (by simpa using wadd_residue c.sc 1))
  unfold grtimerLongcountGetLatchTimeDiff latchMissing reloads
  dsimp only
  split
  · refine ((wadd_residue _ _).trans (hdiff.add (wsub_residue _ _))).trans ?_
    split
    · ring_nf
      rfl
    · ring_nf
      rfl
  · refine ((wadd_residue _ _).trans (hdiff.add (wsub_residue _ _))).trans ?_
    split
    · ring_nf
      rfl
    · ring_nf
      rfl

theorem latchTimeDiff_lt {latch now : Counters} :
    grtimerLongcountGetLatchTimeDiff c latch now < 2 ^ 32 := by
  unfold grtimerLongcountGetLatchTimeDiff
  dsimp only
  split
  · exact wadd_lt _ _
  · exact wadd_lt _ _

end LongcountCfg

/-- **The time since a latch** is the number of cycles, modulo a word, if and only if so are the
cycles that are missing. -/
theorem latchTimeDiff_iff (c : LongcountCfg) (m n : Nat) (hmn : m ≤ n)
    (hrange : n - m < (c.r0 + 1) * (c.r1 + 1)) :
    grtimerLongcountGetLatchTimeDiff c (c.state m) (c.state n) = (n - m) * (c.sc + 1) % 2 ^ 32 ↔
      (2 ^ 32 : Int) ∣ c.latchMissing (c.state m) (c.state n) := by
  have hres := @LongcountCfg.latchTimeDiff_residue c (c.state m) (c.state n)
  rw [← LongcountCfg.elapsed_eq hmn hrange] at hres
  have hcycles : (((n - m) * (c.sc + 1) % 2 ^ 32 : Nat) : Int) ≡
      ((n : Int) - m) * (c.sc + 1) [ZMOD 2 ^ 32] := by
    push_cast [Nat.cast_sub hmn]
    exact Int.mod_modEq _ _
  have hmissing := hcycles.sub hres
  rw [sub_sub_cancel] at hmissing
  rw [eq_of_residue LongcountCfg.latchTimeDiff_lt (Nat.mod_lt _ (by norm_num)),
    ← Int.modEq_zero_iff_dvd, ← Int.modEq_zero_iff_dvd]
  exact ⟨hmissing.symm.trans, hmissing.trans⟩

/-- Without a scaler, and before the first reload, nothing is missing. -/
theorem latchTimeDiff_iff_unscaled : grtimerLongcountGetLatchTimeDiff
    ⟨9, 0xFFFFFFFF, 0, by decide, by decide⟩ ⟨9, 0xFFFFFFFF⟩ ⟨4, 0xFFFFFFFF⟩ = 5 :=
  (latchTimeDiff_iff ⟨9, 0xFFFFFFFF, 0, by decide, by decide⟩ 0 5 (by decide) (by decide)).mpr
    (by decide)

/-- One tick after a latch, five cycles have gone by, and the result is one. -/
theorem latchTimeDiff_short : ¬ ∀ (c : LongcountCfg) (m n : Nat), m ≤ n →
    n - m < (c.r0 + 1) * (c.r1 + 1) →
      grtimerLongcountGetLatchTimeDiff c (c.state m) (c.state n) =
        (n - m) * (c.sc + 1) % 2 ^ 32 := by
  intro h
  have hone := h (leonLongcount 50000000 (by decide)) 0 1 (by decide) (by decide)
  revert hone
  decide

end FlightOs
