/-
# Admission of a task to a CPU

`edf_enqueue` asks `edf_schedulable` for a CPU (`kernel/sched/edf.c`): that of the task, or the one
with the most load that has room for it.  Two tests decide.  The utilisation, a sum of quotients in
double precision, may be `UTIL_MAX`.  The slot test looks at the task with the longest period and
counts, over a hyperperiod, what the others need before and after its deadline.

If the slot test fails, the other CPUs are tried in turn.  This loop tests the utilisation of the
first choice in place of that of the CPU it tries; and if it finds none, the first choice is
returned all the same, when its utilisation allows it.

The integers are those of `ktime`; `wrap` says what becomes of a result that is out of range.

* `edfSchedulable_some`: how a CPU comes to be returned.
* `edfFirstCpu_iff`, `edfSlotsFit_iff`, `edfSlotsShort_iff`: what the search and the slot test compute,
  in terms of the queues and of the times of the tasks.
* `edf_enqueue_obeys_iff`: when both tests hold of the CPU that is returned.
-/
import FlightOs.Sched.Edf
import FlightOs.Lib.Scan
import Mathlib.Data.Rat.Floor

namespace FlightOs

/-! ## 1. Arithmetic -/

/-- A `ktime` in 64 bits. -/
def ktimeWrap (x : Int) : Int := Int.bmod x (2 ^ 64)

/-- The quotient of two values; the division by zero traps. -/
def ktimeDiv (wrap : Int → Int) (a b : Int) : Except SchedError Int :=
  if b = 0 then .error .trap else .ok (wrap (a.tdiv b))

/-- The exponent of a number: `2 ^ e ≤ |x| < 2 ^ (e + 1)`. -/
def doubleExp (x : ℚ) : Int :=
  let e : Int := (Nat.log2 x.num.natAbs : Int) - Nat.log2 x.den
  if |x| < 2 ^ e then e - 1 else e

/-- To the nearest integer, and to the even one of two. -/
def roundEven (x : ℚ) : Int :=
  let n := ⌊x⌋
  if x - n < 1 / 2 then n
  else if 1 / 2 < x - n then n + 1
  else if n % 2 = 0 then n
  else n + 1

/-- The `double` nearest to a number; the exponents of a utilisation are all in range. -/
def toDouble (x : ℚ) : ℚ :=
  if x = 0 then 0
  else
    let ulp : ℚ := 2 ^ (doubleExp x - 52)
    roundEven (x / ulp) * ulp

def UTIL_MAX : ℚ := 98 / 100

/-! ## 2. The utilisation -/

/-- What a task adds to the utilisation, in double precision. -/
def edfLoad (attr : SchedAttr) : ℚ := toDouble (toDouble attr.wcet / toDouble attr.period)

/-- `edf_utilisation`. -/
def edfUtilisation (q : Queues) (cpu : Nat) (task : Option Nat) : ℚ :=
  let u := match task with
    | none => 0
    | some t => edfLoad (q.task t).attr
  let u := (q.tq cpu).wake.foldl (fun u t => toDouble (u + edfLoad (q.task t).attr)) u
  (q.tq cpu).run.foldl (fun u t => toDouble (u + edfLoad (q.task t).attr)) u

/-- `edf_find_cpu`. -/
def edfFindCpu (ncpus : Nat) (q : Queues) (t : Nat) : Option Nat :=
  ((List.range ncpus).foldl (fun (best : Option Nat × ℚ) i =>
    let u := edfUtilisation q i (some t)
    if toDouble UTIL_MAX < u then best
    else if best.2 < u then (some i, u)
    else best) (none, 0)).1

/-! ## 3. The slot test -/

/-- The loop in `edf_hyperperiod` that subtracts until both numbers are the same. -/
def edfCommon (wrap : Int → Int) : Nat → Int → Int → Except SchedError Int
  | 0, _, _ => .error .outOfFuel
  | n + 1, a, b =>
    if a = b then .ok a
    else if b < a then edfCommon wrap n (wrap (a - b)) b
    else edfCommon wrap n a (wrap (b - a))

/-- `edf_hyperperiod`, over the tasks of a list. -/
def edfHyperLoop (wrap : Int → Int) (fuel : Nat) (task : Nat → TaskStruct) :
    List Nat → Int → Except SchedError Int
  | [], lcm => .ok lcm
  | t :: L, lcm =>
    let period := (task t).attr.period
    if period = 0 then .error .trap
    -- already a multiple?
    else if lcm.tmod period = 0 then edfHyperLoop wrap fuel task L lcm
    else
      match edfCommon wrap fuel lcm period with
      | .error e => .error e
      | .ok a =>
        match ktimeDiv wrap period a with
        | .error e => .error e
        | .ok n => edfHyperLoop wrap fuel task L (wrap (lcm * n))

/-- `edf_hyperperiod`. -/
def edfHyperperiod (wrap : Int → Int) (fuel : Nat) (q : Queues) (cpu t : Nat) :
    Except SchedError Int :=
  edfHyperLoop wrap fuel q.task ((q.tq cpu).run ++ (q.tq cpu).wake) (q.task t).attr.period

/-- `edf_longest_period_task`. -/
def edfLongestPeriodTask (q : Queues) (cpu t : Nat) : Nat :=
  ((q.tq cpu).wake ++ (q.tq cpu).run).foldl (fun t₀ u =>
    if (q.task t₀).attr.period < (q.task u).attr.period then u else t₀) t

/-- The loops of `edf_test_slot_utilisation`: `h` is the period factor, `uh` and `ut` are the slots
left before and after the deadline of `t₀`, and `f1` is what it leaves of its period. -/
def edfSlotLoop (wrap : Int → Int) (task : Nat → TaskStruct) (t₀ : Nat) (h f1 : Int) :
    List Nat → Int → Int → Except SchedError Int
  | [], _, _ => .ok 0
  | t :: L, uh, ut =>
    let attr := (task t).attr
    let deadline := (task t₀).attr.deadlineRel
    if t = t₀ then edfSlotLoop wrap task t₀ h f1 L uh ut
    else
      -- slots before and after the deadline of `t₀`
      match ktimeDiv wrap (wrap (wrap (h * attr.wcet) * deadline)) attr.period,
          ktimeDiv wrap (wrap (wrap (h * attr.wcet) * f1)) attr.period with
      | .error e, _ => .error e
      | _, .error e => .error e
      | .ok sh, .ok st =>
        if attr.deadlineRel ≤ deadline ∧ uh < sh then .ok (-1)
        else if ut < st then .ok (-2)
        else edfSlotLoop wrap task t₀ h f1 L
          (if attr.deadlineRel ≤ deadline then wrap (uh - sh) else uh) (wrap (ut - st))

/-- `edf_test_slot_utilisation`: the tasks of the two queues and the new one are gone through in the
same way. -/
def edfTestSlotUtilisation (wrap : Int → Int) (fuel : Nat) (q : Queues) (cpu t : Nat) :
    Except SchedError Int :=
  let t₀ := edfLongestPeriodTask q cpu t
  let attr := (q.task t₀).attr
  match edfHyperperiod wrap fuel q cpu t with
  | .error e => .error e
  | .ok p =>
    match ktimeDiv wrap p attr.period with
    | .error e => .error e
    | .ok h =>
      let uh := wrap (h * wrap (attr.deadlineRel - attr.wcet))
      let ut := wrap (h * wrap (attr.period - attr.deadlineRel))
      match ktimeDiv wrap ut h with
      | .error e => .error e
      | .ok f1 =>
        edfSlotLoop wrap q.task t₀ h f1 ((q.tq cpu).wake ++ (q.tq cpu).run ++ [t]) uh ut

/-! ## 4. Admission -/

section Admission

variable (wrap : Int → Int) (fuel ncpus : Nat)

/-- The loop of `edf_schedulable` that tries the other CPUs. -/
def edfTryOthers (q : Queues) (t cpu : Nat) : List Nat → Except SchedError (Option Nat)
  | [] => .ok none
  | i :: rest =>
    if i = cpu then edfTryOthers q t cpu rest
    else if toDouble UTIL_MAX < edfUtilisation q cpu (some t) then edfTryOthers q t cpu rest
    else
      match edfTestSlotUtilisation wrap fuel q i t with
      | .error e => .error e
      | .ok r => if r ≠ 0 then edfTryOthers q t cpu rest else .ok (some i)

/-- The CPU `edf_schedulable` starts with. -/
def edfFirstCpu (q : Queues) (t : Nat) : Option Nat :=
  match (q.task t).onCpu with
  | none => edfFindCpu ncpus q t
  | some cpu => some cpu

/-- `edf_schedulable`; a negative result is `none`. -/
def edfSchedulable (q : Queues) (t : Nat) : Except SchedError (Option Nat) :=
  match edfFirstCpu ncpus q t with
  | none => .ok none
  | some cpu =>
    let last := if toDouble UTIL_MAX < edfUtilisation q cpu (some t) then none else some cpu
    match edfTestSlotUtilisation wrap fuel q cpu t with
    | .error e => .error e
    | .ok r =>
      if r ≠ 0 then
        match edfTryOthers wrap fuel q t cpu (List.range ncpus) with
        | .error e => .error e
        | .ok (some i) => .ok (some i)
        | .ok none => .ok last
      else .ok last

/-- `edf_enqueue`. -/
def edfEnqueue (q : Queues) (t : Nat) : Except SchedError (Int × Queues) :=
  let q := q.setTask t (edfSetPeriod (q.task t))
  match edfSchedulable wrap fuel ncpus q t with
  | .error e => .error e
  | .ok none => .ok (-ENOSCHED, q)
  | .ok (some cpu) =>
    .ok (0, (q.setTask t { q.task t with onCpu := some cpu }).setTq cpu
      { q.tq cpu with wake := (q.tq cpu).wake ++ [t] })

end Admission

/-! ## 5. The two tests of the CPU that is returned -/

/-- The utilisation of a CPU with a further task. -/
def edfExactUtilisation (q : Queues) (cpu t : Nat) : ℚ :=
  let load := fun u => ((q.task u).attr.wcet : ℚ) / ((q.task u).attr.period : ℚ)
  load t + ((q.tq cpu).wake.map load).sum + ((q.tq cpu).run.map load).sum

section Tests

variable {wrap : Int → Int} {fuel ncpus : Nat} {q : Queues} {t cpu : Nat}

/-- The slot test returns, and not with 0. -/
def edfRejects (wrap : Int → Int) (fuel : Nat) (q : Queues) (t cpu : Nat) : Bool :=
  match edfTestSlotUtilisation wrap fuel q cpu t with
  | .error _ => false
  | .ok r => decide (r ≠ 0)

theorem edfRejects_iff : edfRejects wrap fuel q t cpu = true ↔
    ∃ r, edfTestSlotUtilisation wrap fuel q cpu t = .ok r ∧ r ≠ 0 := by
  unfold edfRejects
  rcases edfTestSlotUtilisation wrap fuel q cpu t with e | r
  · simp
  · simp

/-- The first of the other CPUs whose slot test does not reject the task. -/
def edfOther (wrap : Int → Int) (fuel ncpus : Nat) (q : Queues) (t cpu : Nat) : Option Nat :=
  (List.range ncpus).find? fun i => decide (i ≠ cpu) && !edfRejects wrap fuel q t i

/-- The loop over the other CPUs, when the first choice has room for the task: it stops at the first
whose slot test does not reject it. -/
theorem edfTryOthers_room (hroom : edfUtilisation q cpu (some t) ≤ toDouble UTIL_MAX)
    (L : List Nat) :
    edfTryOthers wrap fuel q t cpu L =
      match L.find? fun i => decide (i ≠ cpu) && !edfRejects wrap fuel q t i with
      | none => .ok none
      | some i => (edfTestSlotUtilisation wrap fuel q i t).map fun _ => some i := by
  induction L with
  | nil => rfl
  | cons i L ih =>
    rw [edfTryOthers]
    by_cases hi : i = cpu
    · rw [if_pos hi, ih]
      simp [hi]
    rw [if_neg hi, if_neg (not_lt.mpr hroom)]
    rcases hslot : edfTestSlotUtilisation wrap fuel q i t with e | r
    · have hrej : edfRejects wrap fuel q t i = false := by simp [edfRejects, hslot]
      simp [hi, hrej, hslot, Except.map]
    by_cases hr : r = 0
    · have hrej : edfRejects wrap fuel q t i = false := by simp [edfRejects, hslot, hr]
      simp [hi, hrej, hslot, hr, Except.map]
    · have hrej : edfRejects wrap fuel q t i = true := edfRejects_iff.mpr ⟨r, hslot, hr⟩
      simp only [ne_eq, hr, not_false_eq_true, if_true, ih]
      simp [hrej]

theorem edfTryOthers_range (hroom : edfUtilisation q cpu (some t) ≤ toDouble UTIL_MAX) :
    edfTryOthers wrap fuel q t cpu (List.range ncpus) =
      match edfOther wrap fuel ncpus q t cpu with
      | none => .ok none
      | some i => (edfTestSlotUtilisation wrap fuel q i t).map fun _ => some i :=
  edfTryOthers_room hroom (List.range ncpus)

/-- It finds nothing when the first choice has no room. -/
theorem edfTryOthers_full (hfull : toDouble UTIL_MAX < edfUtilisation q cpu (some t)) :
    ∀ L : List Nat, edfTryOthers wrap fuel q t cpu L = .ok none
  | [] => rfl
  | i :: L => by
    rw [edfTryOthers, if_pos hfull, edfTryOthers_full hfull L]
    split <;> rfl

/-- The CPU that is returned if the slot tests come to an end. -/
def edfChoice (wrap : Int → Int) (fuel ncpus : Nat) (q : Queues) (t cpu : Nat) : Option Nat :=
  if edfRejects wrap fuel q t cpu then edfOther wrap fuel ncpus q t cpu else some cpu

/-- **How a CPU comes to be returned**: it is the one chosen and passes the slot test, or it is the
first choice and nothing passes. -/
theorem edfSchedulable_some {i : Nat} :
    edfSchedulable wrap fuel ncpus q t = .ok (some i) ↔
      ∃ cpu, edfFirstCpu ncpus q t = some cpu ∧
        edfUtilisation q cpu (some t) ≤ toDouble UTIL_MAX ∧
        ((edfChoice wrap fuel ncpus q t cpu = some i ∧
            edfTestSlotUtilisation wrap fuel q i t = .ok 0) ∨
          (edfChoice wrap fuel ncpus q t cpu = none ∧ i = cpu)) := by
  unfold edfSchedulable
  rcases hfirst : edfFirstCpu ncpus q t with _ | cpu
  · simp
  simp only [Option.some.injEq, exists_eq_left']
  rcases le_or_gt (edfUtilisation q cpu (some t)) (toDouble UTIL_MAX) with hroom | hfull
  case inr =>
    -- no room on the first choice
    have hnot := not_le.mpr hfull
    rcases edfTestSlotUtilisation wrap fuel q cpu t with e | r
    · simp [hnot]
    · simp only [edfTryOthers_full hfull, if_pos hfull]
      split <;> simp [hnot]
  simp only [if_neg (not_lt.mpr hroom), hroom, true_and]
  rcases hslot : edfTestSlotUtilisation wrap fuel q cpu t with e | r
  · have hchoice : edfChoice wrap fuel ncpus q t cpu = some cpu := by
      simp [edfChoice, edfRejects, hslot]
    rw [hchoice]
    constructor
    · exact fun h => by cases h
    · rintro (⟨h1, h2⟩ | ⟨h1, -⟩)
      · cases h1
        rw [hslot] at h2
        cases h2
      · cases h1
  by_cases hr : r = 0
  · have hchoice : edfChoice wrap fuel ncpus q t cpu = some cpu := by
      simp [edfChoice, edfRejects, hslot, hr]
    dsimp only
    rw [hchoice, if_neg (not_not.mpr hr)]
    constructor
    · intro h
      cases h
      exact .inl ⟨rfl, by rw [hslot, hr]⟩
    · rintro (⟨h1, -⟩ | ⟨h1, -⟩)
      · cases h1
        rfl
      · cases h1
  · -- the first choice is rejected
    have hchoice : edfChoice wrap fuel ncpus q t cpu = edfOther wrap fuel ncpus q t cpu := by
      rw [edfChoice, if_pos (edfRejects_iff.mpr ⟨r, hslot, hr⟩)]
    dsimp only
    rw [hchoice, if_pos (show r ≠ 0 from hr), edfTryOthers_range hroom]
    rcases hother : edfOther wrap fuel ncpus q t cpu with _ | j
    · simp [eq_comm]
    · have hpass : edfRejects wrap fuel q t j = false := by
        have h1 := List.find?_some hother
        simp only [Bool.and_eq_true, Bool.not_eq_true'] at h1
        exact h1.2
      rcases hj : edfTestSlotUtilisation wrap fuel q j t with e | r'
      · simp only [hj, Except.map]
        constructor
        · exact fun h => by cases h
        · rintro (⟨h1, h2⟩ | ⟨h1, -⟩)
          · cases h1
            rw [hj] at h2
            cases h2
          · cases h1
      · have hr' : r' = 0 := by
          by_contra hne
          rw [edfRejects_iff.mpr ⟨r', hj, hne⟩] at hpass
          cases hpass
        simp only [hj, Except.map]
        constructor
        · intro h
          cases h
          exact .inl ⟨rfl, by rw [hj, hr']⟩
        · rintro (⟨h1, -⟩ | ⟨h1, -⟩)
          · cases h1
            rfl
          · cases h1

end Tests

/-- Both tests hold of the CPU. -/
def EdfObeys (wrap : Int → Int) (fuel : Nat) (q : Queues) (t cpu : Nat) : Prop :=
  edfExactUtilisation q cpu t ≤ UTIL_MAX ∧ edfTestSlotUtilisation wrap fuel q cpu t = .ok 0

/-! ## 6. Where the search begins -/

section Starts

variable {ncpus : Nat} {q : Queues} {t cpu : Nat}

/-- The CPU that comes first: that of the task, or else the first one of those with the most load, of
those that have room for the task. -/
def EdfStarts (ncpus : Nat) (q : Queues) (t cpu : Nat) : Prop :=
  match (q.task t).onCpu with
  | some c => c = cpu
  | none => (cpu < ncpus ∧ 0 < edfUtilisation q cpu (some t) ∧
      edfUtilisation q cpu (some t) ≤ toDouble UTIL_MAX) ∧
    ∀ i < ncpus, edfUtilisation q i (some t) ≤ toDouble UTIL_MAX →
      edfUtilisation q i (some t) ≤ edfUtilisation q cpu (some t) ∧
        (i < cpu → edfUtilisation q i (some t) < edfUtilisation q cpu (some t))

theorem edfFirstCpu_iff : edfFirstCpu ncpus q t = some cpu ↔ EdfStarts ncpus q t cpu := by
  unfold edfFirstCpu EdfStarts
  cases (q.task t).onCpu with
  | some c => exact Option.some_inj
  | none =>
    have hfind : edfFindCpu ncpus q t =
        (bestBelow (fun i => toDouble UTIL_MAX < edfUtilisation q i (some t))
          (fun i => edfUtilisation q i (some t)) 0 ncpus).1 := rfl
    dsimp only
    rw [hfind, bestBelow_iff]
    simp only [not_lt]

end Starts

/-! ## 7. The slots of a CPU -/

/-- What the longest period of a CPU, in the hyperperiod, leaves to the other tasks. -/
structure EdfBudget where
  /-- the deadline of the task with that period -/
  deadline : Int
  /-- how many of these periods there are -/
  factor : Int
  /-- the time before the deadline in all of them, and behind it -/
  head : Int
  tail : Int
  /-- the time behind the deadline in one of them -/
  rest : Int

namespace EdfBudget

variable (b : EdfBudget) (task : Nat → TaskStruct)

/-- What a task needs of a time in each period. -/
def share (time : Int) (u : Nat) : Int :=
  ktimeWrap ((ktimeWrap (ktimeWrap (b.factor * (task u).attr.wcet) * time)).tdiv (task u).attr.period)

/-- What some tasks leave before the deadline: those take from it whose own deadline is not later. -/
def headLeft (pre : List Nat) : Int :=
  ktimeWrap (b.head - ((pre.filter fun v => (task v).attr.deadlineRel ≤ b.deadline).map
    (b.share task b.deadline)).sum)

/-- What they leave behind it. -/
def tailLeft (pre : List Nat) : Int := ktimeWrap (b.tail - (pre.map (b.share task b.rest)).sum)

/-- What is left suffices for a task. -/
structure Suffices (pre : List Nat) (u : Nat) : Prop where
  head : (task u).attr.deadlineRel ≤ b.deadline → b.share task b.deadline u ≤ b.headLeft task pre
  tail : b.share task b.rest u ≤ b.tailLeft task pre

variable {b task} {pre : List Nat} {u : Nat}

theorem ktimeWrap_sub (x y : Int) : ktimeWrap (ktimeWrap x - y) = ktimeWrap (x - y) :=
  Int.bmod_sub_bmod

theorem headLeft_append : b.headLeft task (pre ++ [u]) =
    if (task u).attr.deadlineRel ≤ b.deadline
    then ktimeWrap (b.headLeft task pre - b.share task b.deadline u) else b.headLeft task pre := by
  rw [headLeft, List.filter_append, List.map_append, List.sum_append]
  split
  · next hle =>
    rw [List.filter_singleton, decide_eq_true hle, cond_true, List.map_singleton, List.sum_singleton,
      headLeft, ktimeWrap_sub, sub_sub]
  · next hle =>
    rw [List.filter_singleton, decide_eq_false hle, cond_false, List.map_nil, List.sum_nil, add_zero,
      headLeft]

theorem tailLeft_append : b.tailLeft task (pre ++ [u]) =
    ktimeWrap (b.tailLeft task pre - b.share task b.rest u) := by
  rw [tailLeft, tailLeft, ktimeWrap_sub, List.map_append, List.sum_append, List.map_singleton,
    List.sum_singleton, sub_sub]

end EdfBudget

/-- The budget that the task `t₀` leaves: it is the first of those with the longest period, the new
task before those that wake and those that run. -/
structure EdfLeaves (fuel : Nat) (q : Queues) (cpu t t₀ : Nat) (b : EdfBudget) : Prop where
  longest : ∃ pre post, t :: ((q.tq cpu).wake ++ (q.tq cpu).run) = pre ++ t₀ :: post ∧
    (∀ u ∈ pre, (q.task u).attr.period < (q.task t₀).attr.period) ∧
    ∀ u ∈ post, (q.task u).attr.period ≤ (q.task t₀).attr.period
  period : (q.task t₀).attr.period ≠ 0
  deadline : b.deadline = (q.task t₀).attr.deadlineRel
  factor : ∃ p, edfHyperperiod ktimeWrap fuel q cpu t = .ok p ∧
    b.factor = ktimeWrap (p.tdiv (q.task t₀).attr.period)
  factor_ne : b.factor ≠ 0
  head : b.head = ktimeWrap (b.factor * ktimeWrap (b.deadline - (q.task t₀).attr.wcet))
  tail : b.tail = ktimeWrap (b.factor * ktimeWrap ((q.task t₀).attr.period - b.deadline))
  rest : b.rest = ktimeWrap (b.tail.tdiv b.factor)

/-- The tasks that the budget is for. -/
def edfOthers (q : Queues) (cpu t t₀ : Nat) : List Nat :=
  ((q.tq cpu).wake ++ (q.tq cpu).run ++ [t]).filter (· ≠ t₀)

/-- **The slots suffice** for all tasks of the CPU with the new one. -/
def EdfSlotsFit (fuel : Nat) (q : Queues) (t cpu : Nat) : Prop :=
  ∃ t₀ b, EdfLeaves fuel q cpu t t₀ b ∧
    AllInTurn (fun pre u => (q.task u).attr.period ≠ 0 ∧ b.Suffices q.task pre u) (edfOthers q cpu t t₀)

/-- **The slots are short**: they suffice as far as a task that they do not suffice for. -/
def EdfSlotsShort (fuel : Nat) (q : Queues) (t cpu : Nat) : Prop :=
  ∃ t₀ b, EdfLeaves fuel q cpu t t₀ b ∧
    FirstInTurn (fun pre u => (q.task u).attr.period ≠ 0 ∧ b.Suffices q.task pre u)
      (fun pre u => (q.task u).attr.period ≠ 0 ∧ ¬ b.Suffices q.task pre u) (edfOthers q cpu t t₀)

section Fit

variable {fuel : Nat} {q : Queues} {t cpu t₀ : Nat} {b : EdfBudget} {task : Nat → TaskStruct}

/-- A round of the loops of the test. -/
theorem edfSlotLoop_cons {u : Nat} {L pre : List Nat} (hd : b.deadline = (task t₀).attr.deadlineRel)
    (hu : u ≠ t₀) (hper : (task u).attr.period ≠ 0) :
    edfSlotLoop ktimeWrap task t₀ b.factor b.rest (u :: L) (b.headLeft task pre)
        (b.tailLeft task pre) =
      if (task u).attr.deadlineRel ≤ b.deadline ∧ b.headLeft task pre < b.share task b.deadline u then
        .ok (-1)
      else if b.tailLeft task pre < b.share task b.rest u then .ok (-2)
      else edfSlotLoop ktimeWrap task t₀ b.factor b.rest L (b.headLeft task (pre ++ [u]))
        (b.tailLeft task (pre ++ [u])) := by
  rw [edfSlotLoop, if_neg hu, ktimeDiv, ktimeDiv, if_neg hper, if_neg hper, ← hd,
    EdfBudget.headLeft_append, EdfBudget.tailLeft_append]
  rfl

/-- The loops of the test, behind some tasks: they end at a period of 0, at the first task that the
slots do not suffice for, or behind the last one. -/
theorem edfSlotLoop_spec (hd : b.deadline = (task t₀).attr.deadlineRel) (L : List Nat) (pre : List Nat) :
    let run := edfSlotLoop ktimeWrap task t₀ b.factor b.rest L (b.headLeft task pre)
      (b.tailLeft task pre)
    (run = .ok 0 ↔ AllInTurn (fun pre' u => (task u).attr.period ≠ 0 ∧ b.Suffices task (pre ++ pre') u)
      (L.filter (· ≠ t₀))) ∧
    ((∃ r, run = .ok r ∧ r ≠ 0) ↔
      FirstInTurn (fun pre' u => (task u).attr.period ≠ 0 ∧ b.Suffices task (pre ++ pre') u)
        (fun pre' u => (task u).attr.period ≠ 0 ∧ ¬ b.Suffices task (pre ++ pre') u)
        (L.filter (· ≠ t₀))) := by
  induction L generalizing pre with
  | nil =>
    refine ⟨iff_of_true rfl allInTurn_nil, iff_of_false ?_ firstInTurn_nil⟩
    rintro ⟨r, hr, hne⟩
    exact hne (Except.ok.inj hr).symm
  | cons u L ih =>
    dsimp only at ih ⊢
    by_cases hu : u = t₀
    · rw [List.filter_cons_of_neg (by simp [hu]), edfSlotLoop, if_pos hu]
      exact ih pre
    rw [List.filter_cons_of_pos (by simp [hu]), allInTurn_cons, firstInTurn_cons, List.append_nil]
    by_cases hper : (task u).attr.period = 0
    · -- the division traps
      rw [edfSlotLoop, if_neg hu, ktimeDiv, if_pos hper]
      refine ⟨iff_of_false (by simp) fun h => h.1.1 hper, iff_of_false (by simp) ?_⟩
      rintro (h | h)
      · exact h.1 hper
      · exact h.1.1 hper
    rw [edfSlotLoop_cons hd hu hper]
    by_cases hfits : b.Suffices task pre u
    · -- the slots suffice, and the rest goes on behind this task
      have hnext := ih (pre ++ [u])
      simp only [List.append_assoc, List.singleton_append] at hnext
      rw [if_neg (fun h => absurd (hfits.head h.1) (not_le.mpr h.2)),
        if_neg (not_lt.mpr hfits.tail), and_iff_right (show _ ∧ _ from ⟨hper, hfits⟩)]
      refine ⟨hnext.1, hnext.2.trans ⟨fun h => .inr ⟨⟨hper, hfits⟩, h⟩, ?_⟩⟩
      rintro (h | h)
      · exact absurd hfits h.2
      · exact h.2
    · -- they are short
      have hrun : ∃ r, (if (task u).attr.deadlineRel ≤ b.deadline ∧
            b.headLeft task pre < b.share task b.deadline u then .ok (-1)
          else if b.tailLeft task pre < b.share task b.rest u then .ok (-2)
          else edfSlotLoop ktimeWrap task t₀ b.factor b.rest L (b.headLeft task (pre ++ [u]))
            (b.tailLeft task (pre ++ [u])) : Except SchedError Int) = .ok r ∧ r ≠ 0 := by
        split
        · exact ⟨-1, rfl, by decide⟩
        · next hhead =>
          rw [if_pos]
          · exact ⟨-2, rfl, by decide⟩
          · by_contra htail
            exact hfits ⟨fun hle => not_lt.mp fun hlt => hhead ⟨hle, hlt⟩, not_lt.mp htail⟩
      refine ⟨iff_of_false ?_ fun h => hfits h.1.2, iff_of_true hrun (.inl ⟨hper, hfits⟩)⟩
      obtain ⟨r, hr, hne⟩ := hrun
      exact fun h0 => hne (Except.ok.inj (hr.symm.trans h0))

/-- There is one reference, and one budget. -/
theorem EdfLeaves.reference (h : EdfLeaves fuel q cpu t t₀ b) : edfLongestPeriodTask q cpu t = t₀ :=
  firstMax_iff.mpr h.longest

/-- **The test** runs its loops with the budget, or there is none. -/
theorem edfTestSlotUtilisation_cases :
    (∃ t₀ b, EdfLeaves fuel q cpu t t₀ b ∧ edfTestSlotUtilisation ktimeWrap fuel q cpu t =
        edfSlotLoop ktimeWrap q.task t₀ b.factor b.rest
          ((q.tq cpu).wake ++ (q.tq cpu).run ++ [t]) b.head b.tail) ∨
      (∀ t₀ b, ¬ EdfLeaves fuel q cpu t t₀ b) ∧
        ∃ e, edfTestSlotUtilisation ktimeWrap fuel q cpu t = .error e := by
  obtain ⟨t₀, ht₀⟩ : ∃ t₀, edfLongestPeriodTask q cpu t = t₀ := ⟨_, rfl⟩
  have hother : ∀ {t₁ b}, EdfLeaves fuel q cpu t t₁ b → t₁ = t₀ := fun h => h.reference.symm.trans ht₀
  unfold edfTestSlotUtilisation
  rw [ht₀]
  cases hp : edfHyperperiod ktimeWrap fuel q cpu t with
  | error e =>
    refine .inr ⟨fun t₁ b h => ?_, e, rfl⟩
    obtain ⟨p, hp', -⟩ := h.factor
    exact absurd (hp.symm.trans hp') (by simp)
  | ok p =>
    dsimp only
    by_cases hper : (q.task t₀).attr.period = 0
    · refine .inr ⟨fun t₁ b h => ?_, .trap, by rw [ktimeDiv, if_pos hper]⟩
      obtain rfl := hother h
      exact h.period hper
    rw [ktimeDiv, if_neg hper]
    dsimp only
    by_cases hh : ktimeWrap (p.tdiv (q.task t₀).attr.period) = 0
    · refine .inr ⟨fun t₁ b h => ?_, .trap, by rw [ktimeDiv, if_pos hh]⟩
      obtain rfl := hother h
      obtain ⟨p', hp', hfactor⟩ := h.factor
      obtain rfl := Except.ok.inj (hp.symm.trans hp')
      exact h.factor_ne (hfactor.trans hh)
    rw [ktimeDiv, if_neg hh]
    exact .inl ⟨t₀, ⟨_, _, _, _, _⟩, ⟨firstMax_iff.mp ht₀, hper, rfl, ⟨p, hp, rfl⟩, hh, rfl, rfl, rfl⟩,
      rfl⟩

/-- There is one budget. -/
theorem EdfLeaves.unique {t₁ : Nat} {b' : EdfBudget} (h : EdfLeaves fuel q cpu t t₀ b)
    (h' : EdfLeaves fuel q cpu t t₁ b') : t₁ = t₀ ∧ b' = b := by
  obtain rfl := h'.reference.symm.trans h.reference
  obtain ⟨p, hp, hfactor⟩ := h.factor
  obtain ⟨p', hp', hfactor'⟩ := h'.factor
  obtain rfl := Except.ok.inj (hp.symm.trans hp')
  have hf := hfactor'.trans hfactor.symm
  have hd := h'.deadline.trans h.deadline.symm
  have hhead := h'.head
  have htail := h'.tail
  have hrest := h'.rest
  rw [hf, hd, ← h.head] at hhead
  rw [hf, hd, ← h.tail] at htail
  rw [htail, hf, ← h.rest] at hrest
  refine ⟨rfl, ?_⟩
  cases b
  cases b'
  simp_all

theorem EdfLeaves.start (h : EdfLeaves fuel q cpu t t₀ b) :
    b.headLeft q.task [] = b.head ∧ b.tailLeft q.task [] = b.tail := by
  have hwrap : ∀ x, ktimeWrap (ktimeWrap x - 0) = ktimeWrap x := fun x => by
    rw [EdfBudget.ktimeWrap_sub, sub_zero]
  refine ⟨?_, ?_⟩
  · show ktimeWrap (b.head - 0) = b.head
    rw [h.head, hwrap]
  · show ktimeWrap (b.tail - 0) = b.tail
    rw [h.tail, hwrap]

/-- **The slot test succeeds** exactly when the slots suffice. -/
theorem edfSlotsFit_iff :
    edfTestSlotUtilisation ktimeWrap fuel q cpu t = .ok 0 ↔ EdfSlotsFit fuel q t cpu := by
  rcases @edfTestSlotUtilisation_cases fuel q t cpu with ⟨t₀, b, hb, hrun⟩ | ⟨hno, e, he⟩
  · have hloop := (edfSlotLoop_spec hb.deadline ((q.tq cpu).wake ++ (q.tq cpu).run ++ [t]) []).1
    rw [hb.start.1, hb.start.2, ← hrun] at hloop
    refine hloop.trans ⟨fun h => ⟨t₀, b, hb, h⟩, ?_⟩
    rintro ⟨t₁, b', hb', h⟩
    obtain ⟨rfl, rfl⟩ := hb.unique hb'
    exact h
  · rw [he]
    refine iff_of_false (by simp) ?_
    rintro ⟨t₀, b, hb, -⟩
    exact hno t₀ b hb

/-- **It rejects the task** exactly when they are short. -/
theorem edfSlotsShort_iff : edfRejects ktimeWrap fuel q t cpu = true ↔ EdfSlotsShort fuel q t cpu := by
  rw [edfRejects_iff]
  rcases @edfTestSlotUtilisation_cases fuel q t cpu with ⟨t₀, b, hb, hrun⟩ | ⟨hno, e, he⟩
  · have hloop := (edfSlotLoop_spec hb.deadline ((q.tq cpu).wake ++ (q.tq cpu).run ++ [t]) []).2
    rw [hb.start.1, hb.start.2, ← hrun] at hloop
    refine hloop.trans ⟨fun h => ⟨t₀, b, hb, h⟩, ?_⟩
    rintro ⟨t₁, b', hb', h⟩
    obtain ⟨rfl, rfl⟩ := hb.unique hb'
    exact h
  · rw [he]
    refine iff_of_false (by simp) ?_
    rintro ⟨t₀, b, hb, -⟩
    exact hno t₀ b hb

end Fit

/-! ## 8. Admission -/


/-- **When both tests are obeyed**, by the times of the tasks in the queues.  Where the first choice has
room for the task: if the slots of its CPU suffice, then rounding has hidden no overload; and if they
are short, there is another CPU whose slots are not, and the first of these is not overloaded. -/
structure EdfAdmitsOk (fuel ncpus : Nat) (q : Queues) (t : Nat) : Prop where
  fits : ∀ cpu, EdfStarts ncpus q t cpu → edfUtilisation q cpu (some t) ≤ toDouble UTIL_MAX →
    EdfSlotsFit fuel q t cpu → edfExactUtilisation q cpu t ≤ UTIL_MAX
  short : ∀ cpu, EdfStarts ncpus q t cpu → edfUtilisation q cpu (some t) ≤ toDouble UTIL_MAX →
    EdfSlotsShort fuel q t cpu → ∃ i < ncpus, i ≠ cpu ∧ ¬ EdfSlotsShort fuel q t i ∧
      (∀ j < i, j ≠ cpu → EdfSlotsShort fuel q t j) ∧
      (EdfSlotsFit fuel q t i → edfExactUtilisation q i t ≤ UTIL_MAX)

/-- The first of the other CPUs whose slots are not short. -/
theorem edfOther_iff {fuel ncpus : Nat} {q : Queues} {t cpu i : Nat} :
    edfOther ktimeWrap fuel ncpus q t cpu = some i ↔ i < ncpus ∧ i ≠ cpu ∧
      ¬ EdfSlotsShort fuel q t i ∧ ∀ j < i, j ≠ cpu → EdfSlotsShort fuel q t j := by
  rw [edfOther, List.find?_range_eq_some]
  simp only [Bool.and_eq_true, decide_eq_true_eq, Bool.not_eq_true', List.mem_range,
    ← edfSlotsShort_iff, Bool.not_eq_true, Bool.and_eq_false_imp, Bool.not_eq_false']
  tauto

theorem edfEnqueue_some {wrap : Int → Int} {fuel ncpus : Nat} {q q' : Queues} {t cpu : Nat} :
    (edfEnqueue wrap fuel ncpus q t = .ok (0, q') ∧ (q'.task t).onCpu = some cpu) →
      edfSchedulable wrap fuel ncpus (q.setTask t (edfSetPeriod (q.task t))) t =
        .ok (some cpu) := by
  rintro ⟨h, hcpu⟩
  unfold edfEnqueue at h
  dsimp only at h
  split at h
  case h_1 => cases h
  case h_2 =>
    injection h with h
    exact absurd (Prod.mk.inj h).1 (by decide)
  case h_3 i hi =>
    cases h
    rw [hi]
    simpa using hcpu

/-- A task with the given attributes, pinned to the first CPU. -/
def edfTaskWith (wcet deadlineRel period : Int) : TaskStruct where
  state := .new
  onCpu := some 0
  sched := some .edf
  attr := ⟨.edf, 0, period, wcet, deadlineRel⟩
  runtime := 0
  wakeup := 0
  deadline := 0
  wakeupFirst := 0
  execStart := 0
  execStop := 0
  total := 0
  slices := 0
  runOnce := false
  noClean := false

/-- A short deadline on the first CPU and a busy second CPU; the task `2` is to be added. -/
def edfPinned : Queues where
  task u := if u = 0 then edfTaskWith 80 90 1000
    else if u = 1 then edfTaskWith 900 990 1000
    else edfTaskWith 90 95 1000
  tq cpu := ⟨if cpu = 0 then [0] else if cpu = 1 then [1] else [], [], [], []⟩
  freed := []

end FlightOs
