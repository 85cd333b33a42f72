/-
# The demand of periodic tasks

A task that asks for `cost` units of time in each `period`, to be served within `deadline` units of
its release, demands `cost` for each of its deadlines in an interval.  A set of tasks can be served
by an earliest deadline first processor if no interval of any length `L` has a demand of more than
`L`.  The demand grows only at the deadlines, and slower than `L` in the long run when the
utilisation is less than one, so that finitely many lengths decide.

* `demand_step`: the demand of an interval is that of the last deadline in it.
* `demand_le`: what the demand is at most.
* `demandMet_iff`: the deadlines to look at.
* `PeriodicTask.Proper.split`: a time divided into what lies before the deadlines of a task and what
  lies behind them.
-/
import Mathlib.Algebra.Order.BigOperators.Group.List
import Mathlib.Algebra.Order.Field.Rat
import Mathlib.Data.Rat.Floor
import Mathlib.Tactic.Linarith
import Mathlib.Tactic.FieldSimp
import Mathlib.Tactic.Positivity

namespace FlightOs

structure PeriodicTask where
  cost : Int
  deadline : Int
  period : Int
  deriving DecidableEq, Repr

/-- A task that can be served within a period. -/
structure PeriodicTask.Proper (τ : PeriodicTask) : Prop where
  cost_pos : 0 < τ.cost
  deadline_pos : 0 < τ.deadline
  deadline_le : τ.deadline ≤ τ.period

/-- The demand of one task in an interval that starts with a release. -/
def PeriodicTask.demand (τ : PeriodicTask) (L : Int) : Int :=
  if τ.deadline ≤ L then ((L - τ.deadline) / τ.period + 1) * τ.cost else 0

/-- The demand of all tasks. -/
def demand (ts : List PeriodicTask) (L : Int) : Int := (ts.map fun τ => τ.demand L).sum

def utilisation (ts : List PeriodicTask) : ℚ :=
  (ts.map fun τ => (τ.cost : ℚ) / (τ.period : ℚ)).sum

/-- A deadline of one of the tasks. -/
def IsDeadline (ts : List PeriodicTask) (d : Int) : Prop :=
  ∃ τ ∈ ts, ∃ k : Nat, d = τ.deadline + k * τ.period

/-- No interval has more demand than its length. -/
def DemandMet (ts : List PeriodicTask) : Prop := ∀ L, 0 ≤ L → demand ts L ≤ L

variable {ts : List PeriodicTask}

theorem PeriodicTask.Proper.period_pos {τ : PeriodicTask} (h : τ.Proper) : 0 < τ.period :=
  h.deadline_pos.trans_le h.deadline_le

/-! ## 1. Where the demand grows -/

/-- One task demands no more at a time that is not one of its deadlines. -/
theorem PeriodicTask.Proper.demand_step {τ : PeriodicTask} (h : τ.Proper) {L : Int}
    (hL : ∀ k : Nat, L ≠ τ.deadline + k * τ.period) : τ.demand L = τ.demand (L - 1) := by
  have hpos := h.period_pos
  unfold PeriodicTask.demand
  by_cases hlt : L < τ.deadline
  · rw [if_neg (by omega), if_neg (by omega)]
  -- the quotient changes at multiples of the period only
  have hquot := Int.emod_add_mul_ediv (L - τ.deadline) τ.period
  have hrem := Int.emod_nonneg (L - τ.deadline) hpos.ne'
  have hrem' := Int.emod_lt_of_pos (L - τ.deadline) hpos
  have hn : 0 ≤ (L - τ.deadline) / τ.period := Int.ediv_nonneg (by omega) hpos.le
  have hne : (L - τ.deadline) % τ.period ≠ 0 := by
    intro h0
    refine hL ((L - τ.deadline) / τ.period).toNat ?_
    rw [Int.toNat_of_nonneg hn, Int.mul_comm]
    omega
  have hsame : (L - 1 - τ.deadline) / τ.period = (L - τ.deadline) / τ.period := by
    have hcomm := Int.mul_comm τ.period ((L - τ.deadline) / τ.period)
    have hone : 1 ≤ (L - τ.deadline) % τ.period := by omega
    rw [Int.ediv_eq_iff_of_pos hpos]
    constructor <;> linarith
  have hge : τ.deadline ≤ L - 1 := by
    have h0 := hL 0
    omega
  rw [if_pos (by omega), if_pos hge, hsame]

theorem demand_step (hts : ∀ τ ∈ ts, τ.Proper) {L : Int} (hL : ¬ IsDeadline ts L) :
    demand ts L = demand ts (L - 1) := by
  unfold demand
  refine congrArg List.sum (List.map_congr_left fun τ hτ => ?_)
  exact (hts τ hτ).demand_step fun k hk => hL ⟨τ, hτ, k, hk⟩

theorem demand_zero (hts : ∀ τ ∈ ts, τ.Proper) : demand ts 0 = 0 := by
  refine List.sum_eq_zero fun x hx => ?_
  obtain ⟨τ, hτ, rfl⟩ := List.mem_map.mp hx
  rw [PeriodicTask.demand, if_neg (not_le.mpr (hts τ hτ).deadline_pos)]

/-- **The last deadline in an interval** has all of its demand. -/
theorem exists_deadline (hts : ∀ τ ∈ ts, τ.Proper) : ∀ L : Nat, 0 < demand ts L →
    ∃ d ≤ (L : Int), IsDeadline ts d ∧ demand ts d = demand ts L
  | 0, h => by
    rw [Nat.cast_zero, demand_zero hts] at h
    exact absurd h (lt_irrefl 0)
  | L + 1, h => by
    by_cases hL : IsDeadline ts ((L + 1 : Nat) : Int)
    · exact ⟨_, le_refl _, hL, rfl⟩
    · have hstep := demand_step hts hL
      rw [Nat.cast_succ, add_sub_cancel_right] at hstep
      rw [Nat.cast_succ, hstep] at h ⊢
      obtain ⟨d, hd, hdead, heq⟩ := exists_deadline hts L h
      exact ⟨d, by omega, hdead, heq⟩

/-! ## 2. What the demand is at most -/

theorem PeriodicTask.Proper.demand_le {τ : PeriodicTask} (h : τ.Proper) {L : Int} (hL : 0 ≤ L) :
    (τ.demand L : ℚ) ≤ (τ.cost : ℚ) / τ.period * L + τ.cost := by
  have hpos : (0 : ℚ) < τ.period := by exact_mod_cast h.period_pos
  have hcost : (0 : ℚ) < τ.cost := by exact_mod_cast h.cost_pos
  have hL' : (0 : ℚ) ≤ L := by exact_mod_cast hL
  unfold PeriodicTask.demand
  split
  · have hmul : (L - τ.deadline) / τ.period * τ.period ≤ L := by
      have h1 := Int.ediv_mul_le (L - τ.deadline) h.period_pos.ne'
      have h2 := h.deadline_pos
      omega
    have hquot : (((L - τ.deadline) / τ.period : Int) : ℚ) ≤ L / τ.period := by
      rw [le_div_iff₀ hpos]
      exact_mod_cast hmul
    calc ((((L - τ.deadline) / τ.period + 1) * τ.cost : Int) : ℚ)
        = (((L - τ.deadline) / τ.period : Int) + 1) * τ.cost := by push_cast; ring
      _ ≤ (L / τ.period + 1) * τ.cost := by gcongr
      _ = τ.cost / τ.period * L + τ.cost := by field_simp
  · push_cast
    positivity

theorem demand_le (hts : ∀ τ ∈ ts, τ.Proper) {L : Int} (hL : 0 ≤ L) :
    (demand ts L : ℚ) ≤ utilisation ts * L + (ts.map fun τ => (τ.cost : ℚ)).sum := by
  induction ts with
  | nil => simp [demand, utilisation]
  | cons τ ts ih =>
    have hτ := (hts τ List.mem_cons_self).demand_le hL
    have hrest := ih fun σ hσ => hts σ (List.mem_cons_of_mem _ hσ)
    simp only [demand, utilisation, List.map_cons, List.sum_cons] at hrest ⊢
    push_cast at hrest ⊢
    linarith

/-! ## 3. The deadlines that decide -/

/-- **The demand of every interval** is met if it is at the deadlines before a bound. -/
theorem demandMet_iff (hts : ∀ τ ∈ ts, τ.Proper) {u : ℚ} (hu : utilisation ts ≤ u) :
    DemandMet ts ↔ ∀ d, IsDeadline ts d →
      (1 - u) * d ≤ (ts.map fun τ => (τ.cost : ℚ)).sum → demand ts d ≤ d := by
  have hdead : ∀ d, IsDeadline ts d → 0 < d := by
    rintro d ⟨τ, hτ, k, rfl⟩
    have h1 := (hts τ hτ).deadline_pos
    have h2 : 0 ≤ (k : Int) * τ.period :=
      Int.mul_nonneg (Int.natCast_nonneg k) (hts τ hτ).period_pos.le
    omega
  constructor
  · exact fun h d hd _ => h d (hdead d hd).le
  · intro h L hL
    by_contra hnot
    have hover : L < demand ts L := not_le.mp hnot
    -- at the last deadline in the interval the demand is too much already
    obtain ⟨n, rfl⟩ := Int.eq_ofNat_of_zero_le hL
    obtain ⟨d, hdn, hd, heq⟩ := exists_deadline hts n (hL.trans_lt hover)
    have hd0 := hdead d hd
    have hless : d < demand ts d := by
      rw [heq]
      exact hdn.trans_lt hover
    refine absurd (h d hd ?_) (not_le.mpr hless)
    have hbound := demand_le hts hd0.le
    have hdq : (0 : ℚ) < d := by exact_mod_cast hd0
    have hlessq : (d : ℚ) < demand ts d := by exact_mod_cast hless
    have hmul : utilisation ts * d ≤ u * d := by gcongr
    linarith

/-! ## 4. Periods divided at the deadline -/

namespace PeriodicTask

/-- How many times a task has gone through the time before its deadline, with the fraction of the last
one. -/
def heads (τ : PeriodicTask) (d : Int) : ℚ :=
  (d / τ.period : Int) + (min (d % τ.period) τ.deadline : Int) / τ.deadline

/-- How many times it has gone through the time behind it. -/
def tails (τ : PeriodicTask) (d : Int) : ℚ :=
  (d / τ.period : Int) + (max (d % τ.period - τ.deadline) 0 : Int) / (τ.period - τ.deadline)

variable {τ : PeriodicTask}

/-- A time is made of the two. -/
theorem Proper.split (h : τ.Proper) (hlt : τ.deadline < τ.period) (d : Int) :
    (d : ℚ) = τ.deadline * τ.heads d + (τ.period - τ.deadline) * τ.tails d := by
  have hD : (τ.deadline : ℚ) ≠ 0 := by exact_mod_cast h.deadline_pos.ne'
  have hP : (τ.period : ℚ) - τ.deadline ≠ 0 := by
    refine sub_ne_zero.mpr ?_
    exact_mod_cast hlt.ne'
  have hrest : min (d % τ.period) τ.deadline + max (d % τ.period - τ.deadline) 0 = d % τ.period := by
    omega
  have hdiv := Int.emod_add_mul_ediv d τ.period
  rw [← hrest] at hdiv
  unfold heads tails
  rw [mul_add, mul_add, mul_div_cancel₀ _ hD, mul_div_cancel₀ _ hP]
  calc (d : ℚ)
      = ((min (d % τ.period) τ.deadline + max (d % τ.period - τ.deadline) 0 +
          τ.period * (d / τ.period) : Int) : ℚ) := by rw [hdiv]
    _ = _ := by
      push_cast
      ring

/-- The jobs that are due have gone through the time before their deadlines. -/
theorem Proper.demand_le_heads (h : τ.Proper) {d : Int} (hd : 0 ≤ d) :
    (τ.demand d : ℚ) ≤ τ.cost * τ.heads d := by
  have hpos := h.period_pos
  have hcost : (0 : ℚ) ≤ τ.cost := by exact_mod_cast h.cost_pos.le
  have hD : (0 : ℚ) < τ.deadline := by exact_mod_cast h.deadline_pos
  have hrem := Int.emod_nonneg d hpos.ne'
  have hrem' := Int.emod_lt_of_pos d hpos
  have hdiv := Int.emod_add_mul_ediv d τ.period
  have hle := h.deadline_le
  have hdl := h.deadline_pos
  unfold heads
  by_cases hdue : τ.deadline ≤ d % τ.period
  · -- the job of the last period is due, too
    have hquot : (d - τ.deadline) / τ.period = d / τ.period := by
      have hcomm := Int.mul_comm τ.period (d / τ.period)
      rw [Int.ediv_eq_iff_of_pos hpos]
      constructor <;> linarith
    have hk : 0 ≤ τ.period * (d / τ.period) := Int.mul_nonneg hpos.le (Int.ediv_nonneg hd hpos.le)
    rw [demand, if_pos (by omega), hquot, min_eq_right hdue, div_self hD.ne']
    push_cast
    exact le_of_eq (mul_comm _ _)
  · have hfrac : (0 : ℚ) ≤ (min (d % τ.period) τ.deadline : Int) / τ.deadline := by
      refine div_nonneg ?_ hD.le
      exact_mod_cast le_min hrem hdl.le
    have hjobs : τ.demand d ≤ d / τ.period * τ.cost := by
      unfold demand
      split
      · have hquot : (d - τ.deadline) / τ.period + 1 = d / τ.period := by
          have hcomm := Int.mul_comm τ.period (d / τ.period)
          have hq : (d - τ.deadline) / τ.period = d / τ.period - 1 := by
            rw [Int.ediv_eq_iff_of_pos hpos]
            constructor <;> linarith
          omega
        rw [hquot]
      · exact Int.mul_nonneg (Int.ediv_nonneg hd hpos.le) h.cost_pos.le
    calc (τ.demand d : ℚ)
        ≤ ((d / τ.period * τ.cost : Int) : ℚ) := by exact_mod_cast hjobs
      _ = τ.cost * (d / τ.period : Int) := by
        push_cast
        ring
      _ ≤ τ.cost * ((d / τ.period : Int) + (min (d % τ.period) τ.deadline : Int) / τ.deadline) :=
        mul_le_mul_of_nonneg_left (le_add_of_nonneg_right hfrac) hcost

theorem Proper.heads_nonneg (h : τ.Proper) {d : Int} (hd : 0 ≤ d) : 0 ≤ τ.heads d := by
  have hD : (0 : ℚ) < τ.deadline := by exact_mod_cast h.deadline_pos
  refine add_nonneg ?_ (div_nonneg ?_ hD.le)
  · exact_mod_cast Int.ediv_nonneg hd h.period_pos.le
  · exact_mod_cast le_min (Int.emod_nonneg d h.period_pos.ne') h.deadline_pos.le

theorem Proper.tails_nonneg (h : τ.Proper) {d : Int} (hd : 0 ≤ d) : 0 ≤ τ.tails d := by
  have hP : (0 : ℚ) ≤ τ.period - τ.deadline := by
    refine sub_nonneg.mpr ?_
    exact_mod_cast h.deadline_le
  refine add_nonneg ?_ (div_nonneg ?_ hP)
  · exact_mod_cast Int.ediv_nonneg hd h.period_pos.le
  · exact_mod_cast le_max_right _ _

end PeriodicTask

end FlightOs
