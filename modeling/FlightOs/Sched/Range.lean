/-
# The range of the admission arithmetic

`edf_hyperperiod` computes the least common multiple of all periods of a CPU (`edf_hyperperiod_lcm`),
and `edf_test_slot_utilisation` multiplies the period factor by a run time, and the product by a
deadline.  All values are `ktime`, and no operation looks at its range.

The values that are computed are listed in the order of the code, over the integers
(`edfTestSteps`); where they are in range, so are those in 64 bits, and the verdicts are the same.
`edf_admission_range`: of all of them only the hyperperiod matters, and the products of three factors
for the tasks up to the first one that does not fit.  Two tasks of ten seconds are enough for a product
out of range, and for a wrong verdict (`edf_admission_overflows`).
-/
import FlightOs.Sched.Slots

namespace FlightOs

/-! ## 1. The hyperperiod -/

/-- The least common multiple of the periods of the tasks of a CPU and of the new one. -/
def edfPeriodsLcm (q : Queues) (cpu t : Nat) : Nat :=
  (edfSlotTasks q cpu t).foldr (fun u l => Nat.lcm (q.task u).attr.period.natAbs l) 1

section Lcm

variable {q : Queues} {cpu t : Nat}

theorem foldr_lcm_dvd_iff {α : Type} (f : α → Int) (L : List α) (x : Int) :
    ((L.foldr (fun u l => Nat.lcm (f u).natAbs l) 1 : Nat) : Int) ∣ x ↔ ∀ u ∈ L, f u ∣ x := by
  induction L with
  | nil => simp
  | cons u L ih =>
    have hlcm : Nat.lcm (f u).natAbs (L.foldr (fun u l => Nat.lcm (f u).natAbs l) 1) =
        Int.lcm (f u) ((L.foldr (fun u l => Nat.lcm (f u).natAbs l) 1 : Nat) : Int) := rfl
    rw [List.foldr_cons, List.forall_mem_cons, hlcm, Int.coe_lcm_dvd_iff, ih]

theorem edfPeriodsLcm_dvd_iff {x : Int} :
    (edfPeriodsLcm q cpu t : Int) ∣ x ↔ ∀ u ∈ edfSlotTasks q cpu t, (q.task u).attr.period ∣ x :=
  foldr_lcm_dvd_iff (fun u => (q.task u).attr.period) _ x

/-- The hyperperiod is the least common multiple, if there is one at all. -/
theorem eq_edfPeriodsLcm {p : Int} (hp : 0 < p)
    (hiff : ∀ x, p ∣ x ↔ ∀ u ∈ edfSlotTasks q cpu t, (q.task u).attr.period ∣ x) :
    p = edfPeriodsLcm q cpu t := by
  refine Int.dvd_antisymm hp.le (Int.natCast_nonneg _) ?_ ?_
  · exact (hiff _).mpr (edfPeriodsLcm_dvd_iff.mp dvd_rfl)
  · exact edfPeriodsLcm_dvd_iff.mpr ((hiff p).mp dvd_rfl)

/-- The tasks of the queues, in the order of `edf_hyperperiod`, and the new one. -/
theorem forall_edfSlotTasks_iff {P : Nat → Prop} : (∀ u ∈ edfSlotTasks q cpu t, P u) ↔
    P t ∧ ∀ u ∈ (q.tq cpu).run ++ (q.tq cpu).wake, P u := by
  constructor
  · refine fun hall => ⟨hall t (mem_edfSlotTasks.mpr (.inl rfl)), fun u hu => hall u ?_⟩
    exact mem_edfSlotTasks.mpr (.inr ((List.mem_append.mp hu).symm))
  · rintro ⟨ht, hqueued⟩ u hu
    rcases mem_edfSlotTasks.mp hu with rfl | hu
    · exact ht
    · exact hqueued u (List.mem_append.mpr hu.symm)

/-- **The hyperperiod** is the least common multiple of the periods, and the loops come to an end. -/
theorem edf_hyperperiod_lcm (hpos : ∀ u ∈ edfSlotTasks q cpu t, 0 < (q.task u).attr.period) :
    ∃ N, ∀ fuel, N ≤ fuel → edfHyperperiod id fuel q cpu t = .ok (edfPeriodsLcm q cpu t : Int) := by
  obtain ⟨ht, hqueued⟩ := forall_edfSlotTasks_iff.mp hpos
  obtain ⟨N, p, hp, hrun, hiff⟩ := edfHyperLoop_ok ht hqueued
  refine ⟨N, fun fuel hfuel => (hrun fuel hfuel).trans (congrArg _ (eq_edfPeriodsLcm hp fun x => ?_))⟩
  rw [hiff, forall_edfSlotTasks_iff]

/-- Periods of 200, 300 and 100. -/
theorem edf_hyperperiod_lcm_three : ∃ N, ∀ fuel, N ≤ fuel →
    edfHyperperiod id fuel (edfOrdered 100 200 300 [0] [1]) 0 2 = .ok 600 := by
  refine edf_hyperperiod_lcm fun u hu => ?_
  have hcases : u = 0 ∨ u = 1 ∨ u = 2 := by
    simpa [edfSlotTasks, edfOrdered] using hu
  rcases hcases with rfl | rfl | rfl
  · decide
  · decide
  · decide

end Lcm

/-! ## 2. The values that are computed -/

/-- A value of 64 bits. -/
def InKtime (x : Int) : Prop := -(2 ^ 63) ≤ x ∧ x < 2 ^ 63

theorem ktimeWrap_of_inKtime {x : Int} (hx : InKtime x) : ktimeWrap x = x :=
  Int.bmod_eq_of_le_mul_two (by have := hx.1; omega) (by have := hx.2; omega)

theorem InKtime.of_nonneg {x : Int} (h : 0 ≤ x) (hlt : x < 2 ^ 63) : InKtime x :=
  ⟨by omega, hlt⟩

/-- The differences in the loop that finds the common divisor. -/
def edfCommonSteps : Nat → Int → Int → List Int
  | 0, _, _ => []
  | n + 1, a, b =>
    if a = b then []
    else if b < a then (a - b) :: edfCommonSteps n (a - b) b
    else (b - a) :: edfCommonSteps n a (b - a)

/-- The differences, quotients and products in `edf_hyperperiod`. -/
def edfHyperSteps (fuel : Nat) (task : Nat → TaskStruct) : List Nat → Int → List Int
  | [], _ => []
  | t :: L, lcm =>
    let period := (task t).attr.period
    if lcm.tmod period = 0 then edfHyperSteps fuel task L lcm
    else
      edfCommonSteps fuel lcm period ++
        match edfCommon id fuel lcm period with
        | .error _ => []
        | .ok a =>
          period.tdiv a :: lcm * period.tdiv a :: edfHyperSteps fuel task L (lcm * period.tdiv a)

/-- The values that are computed for the slots of a task behind the deadline of `t₀`. -/
def edfTailSteps (h f1 : Int) (attr : SchedAttr) (ut : Int) (rest : List Int) : List Int :=
  [h * attr.wcet, h * attr.wcet * f1, edfTailSlots h f1 attr] ++
    if ut < edfTailSlots h f1 attr then [] else (ut - edfTailSlots h f1 attr) :: rest

/-- The values in the loops of `edf_test_slot_utilisation`: those for the slots before the deadline of
`t₀` come first, and only for tasks with a deadline that is not later. -/
def edfSlotSteps (task : Nat → TaskStruct) (t₀ : Nat) (h f1 : Int) : List Nat → Int → Int → List Int
  | [], _, _ => []
  | t :: L, uh, ut =>
    let attr := (task t).attr
    let deadline := (task t₀).attr.deadlineRel
    let sh := edfHeadSlots h deadline attr
    let st := edfTailSlots h f1 attr
    if t = t₀ then edfSlotSteps task t₀ h f1 L uh ut
    else if attr.deadlineRel ≤ deadline then
      [h * attr.wcet, h * attr.wcet * deadline, sh] ++
        if uh < sh then []
        else
          (uh - sh) :: edfTailSteps h f1 attr ut (edfSlotSteps task t₀ h f1 L (uh - sh) (ut - st))
    else edfTailSteps h f1 attr ut (edfSlotSteps task t₀ h f1 L uh (ut - st))

/-- The values in `edf_test_slot_utilisation`, over the integers. -/
def edfTestSteps (fuel : Nat) (q : Queues) (cpu t : Nat) : List Int :=
  let t₀ := edfLongestPeriodTask q cpu t
  let attr := (q.task t₀).attr
  edfHyperSteps fuel q.task ((q.tq cpu).run ++ (q.tq cpu).wake) (q.task t).attr.period ++
    match edfHyperperiod id fuel q cpu t with
    | .error _ => []
    | .ok p =>
      let h := p.tdiv attr.period
      let uh := h * (attr.deadlineRel - attr.wcet)
      let ut := h * (attr.period - attr.deadlineRel)
      let f1 := ut.tdiv h
      [h, attr.deadlineRel - attr.wcet, uh, attr.period - attr.deadlineRel, ut, f1] ++
        edfSlotSteps q.task t₀ h f1 ((q.tq cpu).wake ++ (q.tq cpu).run ++ [t]) uh ut

section Congr

variable {wrap : Int → Int} {task : Nat → TaskStruct} {q : Queues} {cpu t : Nat}

theorem edfCommon_congr {n : Nat} {a b : Int} (hs : ∀ x ∈ edfCommonSteps n a b, wrap x = x) :
    edfCommon wrap n a b = edfCommon id n a b := by
  induction n generalizing a b with
  | zero => rfl
  | succ n ih =>
    rw [edfCommonSteps] at hs
    rw [edfCommon, edfCommon]
    by_cases heq : a = b
    · rw [if_pos heq, if_pos heq]
    rw [if_neg heq] at hs ⊢
    rw [if_neg heq]
    by_cases hlt : b < a
    · rw [if_pos hlt] at hs ⊢
      obtain ⟨hdiff, hrest⟩ := List.forall_mem_cons.mp hs
      rw [if_pos hlt, hdiff, ih hrest]
      rfl
    · rw [if_neg hlt] at hs ⊢
      obtain ⟨hdiff, hrest⟩ := List.forall_mem_cons.mp hs
      rw [if_neg hlt, hdiff, ih hrest]
      rfl

theorem ktimeDiv_congr {a b : Int} (h : wrap (a.tdiv b) = a.tdiv b) :
    ktimeDiv wrap a b = ktimeDiv id a b := by
  rw [ktimeDiv, ktimeDiv, h]
  rfl

theorem edfHyperLoop_congr {fuel : Nat} {L : List Nat} {lcm : Int}
    (hs : ∀ x ∈ edfHyperSteps fuel task L lcm, wrap x = x) :
    edfHyperLoop wrap fuel task L lcm = edfHyperLoop id fuel task L lcm := by
  induction L generalizing lcm with
  | nil => rfl
  | cons u L ih =>
    rw [edfHyperSteps] at hs
    rw [edfHyperLoop, edfHyperLoop]
    by_cases hzero : (task u).attr.period = 0
    · rw [if_pos hzero, if_pos hzero]
    rw [if_neg hzero, if_neg hzero]
    by_cases hmul : lcm.tmod (task u).attr.period = 0
    · rw [if_pos hmul] at hs ⊢
      rw [if_pos hmul, ih hs]
    rw [if_neg hmul] at hs ⊢
    rw [if_neg hmul]
    obtain ⟨hcommon, hrest⟩ := List.forall_mem_append.mp hs
    rw [edfCommon_congr hcommon]
    cases hg : edfCommon id fuel lcm (task u).attr.period with
    | error e => rfl
    | ok a =>
      rw [hg] at hrest
      obtain ⟨hdiv, hrest⟩ := List.forall_mem_cons.mp hrest
      obtain ⟨hprod, hrest⟩ := List.forall_mem_cons.mp hrest
      dsimp only
      rw [ktimeDiv_congr hdiv]
      unfold ktimeDiv
      by_cases ha : a = 0
      · rw [if_pos ha]
      · rw [if_neg ha]
        dsimp only [id]
        rw [hprod, ih hrest]

theorem forall_mem_edfTailSteps {P : Int → Prop} {h f1 ut : Int} {attr : SchedAttr}
    {rest : List Int} : (∀ x ∈ edfTailSteps h f1 attr ut rest, P x) ↔
      P (h * attr.wcet) ∧ P (h * attr.wcet * f1) ∧ P (edfTailSlots h f1 attr) ∧
        (edfTailSlots h f1 attr ≤ ut → P (ut - edfTailSlots h f1 attr) ∧ ∀ x ∈ rest, P x) := by
  unfold edfTailSteps
  by_cases hfull : ut < edfTailSlots h f1 attr
  · simp [if_pos hfull, not_le.mpr hfull]
  · simp [if_neg hfull, not_lt.mp hfull]

/-- What holds of the values for a task and for those behind it. -/
theorem forall_mem_edfSlotSteps {P : Int → Prop} {t₀ u : Nat} {h f1 uh ut : Int} {L : List Nat}
    (hu : u ≠ t₀) :
    let attr := (task u).attr
    let d := (task t₀).attr.deadlineRel
    let sh := edfHeadSlots h d attr
    let st := edfTailSlots h f1 attr
    (∀ x ∈ edfSlotSteps task t₀ h f1 (u :: L) uh ut, P x) ↔
      (attr.deadlineRel ≤ d → P (h * attr.wcet) ∧ P (h * attr.wcet * d) ∧ P sh ∧
        (sh ≤ uh → P (uh - sh))) ∧
      ((attr.deadlineRel ≤ d → sh ≤ uh) → P (h * attr.wcet) ∧ P (h * attr.wcet * f1) ∧ P st ∧
        (st ≤ ut → P (ut - st) ∧ ∀ x ∈ edfSlotSteps task t₀ h f1 L
          (if attr.deadlineRel ≤ d then uh - sh else uh) (ut - st), P x)) := by
  intro attr d sh st
  rw [edfSlotSteps, if_neg hu]
  by_cases hdl : attr.deadlineRel ≤ d
  · rw [if_pos hdl]
    by_cases hfull : uh < sh
    · rw [if_pos hfull]
      simp [hdl, not_le.mpr hfull, attr, d, sh]
    · rw [if_neg hfull]
      simp [forall_mem_edfTailSteps, hdl, not_lt.mp hfull, attr, d, sh, st, and_assoc]
  · rw [if_neg hdl, forall_mem_edfTailSteps]
    simp [hdl, attr, d, sh, st]

/-- **The slots in 64 bits** are those over the integers, where the values on the way are. -/
theorem edfSlotLoop_congr {t₀ : Nat} {h f1 uh ut : Int} {L : List Nat}
    (hper : ∀ u ∈ L, (task u).attr.period ≠ 0)
    (hs : ∀ x ∈ edfSlotSteps task t₀ h f1 L uh ut, wrap x = x) :
    edfSlotLoop wrap task t₀ h f1 L uh ut = edfSlotLoop id task t₀ h f1 L uh ut := by
  induction L generalizing uh ut with
  | nil => rfl
  | cons u L ih =>
    obtain ⟨hzero, hper⟩ := List.forall_mem_cons.mp hper
    by_cases hu : u = t₀
    · rw [edfSlotSteps, if_pos hu] at hs
      rw [edfSlotLoop, edfSlotLoop, if_pos hu, if_pos hu, ih hper hs]
    obtain ⟨hhead, htail⟩ := (forall_mem_edfSlotSteps hu).mp hs
    rw [edfSlotLoop, edfSlotLoop, if_neg hu, if_neg hu]
    simp only [ktimeDiv, if_neg hzero, id]
    rw [edfHeadSlots] at hhead htail
    rw [edfTailSlots] at htail
    by_cases hdl : (task u).attr.deadlineRel ≤ (task t₀).attr.deadlineRel
    · obtain ⟨hw, hd, hsh, hleft⟩ := hhead hdl
      rw [hw, hd, hsh]
      by_cases hfull : uh < (h * (task u).attr.wcet * (task t₀).attr.deadlineRel).tdiv
          (task u).attr.period
      · rw [if_pos ⟨hdl, hfull⟩, if_pos ⟨hdl, hfull⟩]
      have hroom : ¬ ((task u).attr.deadlineRel ≤ (task t₀).attr.deadlineRel ∧
          uh < (h * (task u).attr.wcet * (task t₀).attr.deadlineRel).tdiv (task u).attr.period) :=
        fun h => hfull h.2
      obtain ⟨-, hf, hst, hrest⟩ := htail fun _ => not_lt.mp hfull
      rw [if_neg hroom, if_neg hroom, hf, hst]
      by_cases hlast : ut < (h * (task u).attr.wcet * f1).tdiv (task u).attr.period
      · rw [if_pos hlast, if_pos hlast]
      obtain ⟨hut, hrest⟩ := hrest (not_lt.mp hlast)
      rw [if_neg hlast, if_neg hlast, if_pos hdl, if_pos hdl, hleft (not_lt.mp hfull), hut]
      rw [if_pos hdl] at hrest
      exact ih hper hrest
    · obtain ⟨hw, hf, hst, hrest⟩ := htail fun h => absurd h hdl
      have hlater : ∀ sh, ¬ ((task u).attr.deadlineRel ≤ (task t₀).attr.deadlineRel ∧ uh < sh) :=
        fun _ h => hdl h.1
      rw [if_neg (hlater _), if_neg (hlater _), hw, hf, hst]
      by_cases hlast : ut < (h * (task u).attr.wcet * f1).tdiv (task u).attr.period
      · rw [if_pos hlast, if_pos hlast]
      obtain ⟨hut, hrest⟩ := hrest (not_lt.mp hlast)
      rw [if_neg hlast, if_neg hlast, if_neg hdl, if_neg hdl, hut]
      rw [if_neg hdl] at hrest
      exact ih hper hrest

/-- **The test in 64 bits** is that over the integers, where the values on the way are. -/
theorem edfTestSlotUtilisation_congr {fuel : Nat}
    (hper : ∀ u ∈ edfSlotTasks q cpu t, (q.task u).attr.period ≠ 0)
    (hs : ∀ x ∈ edfTestSteps fuel q cpu t, wrap x = x) :
    edfTestSlotUtilisation wrap fuel q cpu t = edfTestSlotUtilisation id fuel q cpu t := by
  obtain ⟨hhyper, hrest⟩ := List.forall_mem_append.mp hs
  have hp : edfHyperperiod wrap fuel q cpu t = edfHyperperiod id fuel q cpu t :=
    edfHyperLoop_congr hhyper
  unfold edfTestSlotUtilisation
  rw [hp]
  cases hrun : edfHyperperiod id fuel q cpu t with
  | error e => rfl
  | ok p =>
    rw [hrun] at hrest
    obtain ⟨hvalues, hslots⟩ := List.forall_mem_append.mp hrest
    simp only [List.forall_mem_cons] at hvalues
    obtain ⟨hh, hdw, huh, hpd, hut, hf1, -⟩ := hvalues
    dsimp only
    rw [ktimeDiv_congr hh, hdw, hpd]
    by_cases hzero : (q.task (edfLongestPeriodTask q cpu t)).attr.period = 0
    · rw [ktimeDiv, if_pos hzero]
    rw [ktimeDiv, if_neg hzero]
    dsimp only [id]
    rw [huh, hut, ktimeDiv_congr hf1]
    by_cases hfactor : p.tdiv (q.task (edfLongestPeriodTask q cpu t)).attr.period = 0
    · rw [ktimeDiv, if_pos hfactor]
    · rw [ktimeDiv, if_neg hfactor]
      exact edfSlotLoop_congr hper hslots

end Congr

/-! ## 3. The range -/

/-- A task that is queued: its attributes have passed the check, and `edf_enqueue` has set a period where
there was none.  The times are of 64 bits, and a period is made from a length of time. -/
def EdfQueued (tick : Int) (attr : SchedAttr) : Prop :=
  ∃ tsk : TaskStruct, (edfCheckSchedAttr tick tsk.attr).1 = 0 ∧ attr = (edfSetPeriod tsk).attr ∧
    0 ≤ tsk.attr.period ∧ tsk.attr.period < 2 ^ 63 ∧ tsk.attr.deadlineRel < 2 ^ 63

/-- The products for the tasks up to the first one that does not fit. -/
def edfSlotsNarrow (h d f1 : Int) : List SchedAttr → Int → Int → Prop
  | [], _, _ => True
  | attr :: L, uh, ut =>
    (attr.deadlineRel ≤ d → h * attr.wcet * d < 2 ^ 63) ∧
    ((attr.deadlineRel ≤ d → edfHeadSlots h d attr ≤ uh) → h * attr.wcet * f1 < 2 ^ 63 ∧
      (edfTailSlots h f1 attr ≤ ut → edfSlotsNarrow h d f1 L
        (if attr.deadlineRel ≤ d then uh - edfHeadSlots h d attr else uh)
        (ut - edfTailSlots h f1 attr)))

/-- The hyperperiod is in range, and so are the products: with the period factor `h`, the run time of a
task and the deadline of the task with the longest period, or what this leaves of its period. -/
def EdfNarrow (q : Queues) (cpu t : Nat) : Prop :=
  let t₀ := edfLongestPeriodTask q cpu t
  let attr := (q.task t₀).attr
  let h := (edfPeriodsLcm q cpu t : Int) / attr.period
  (edfPeriodsLcm q cpu t : Int) < 2 ^ 63 ∧
    edfSlotsNarrow h attr.deadlineRel (attr.period - attr.deadlineRel)
      (((edfSlotTasks q cpu t).filter (· ≠ t₀)).map fun u => (q.task u).attr)
      (h * (attr.deadlineRel - attr.wcet)) (h * (attr.period - attr.deadlineRel))

/-- The test comes to an end with every value in range, without a division by zero, and with the verdict
that it has over the integers. -/
def EdfExact (q : Queues) (cpu t : Nat) : Prop :=
  ∃ N, ∀ fuel, N ≤ fuel → (∀ x ∈ edfTestSteps fuel q cpu t, InKtime x) ∧
    ∃ r, edfTestSlotUtilisation ktimeWrap fuel q cpu t = .ok r ∧
      edfTestSlotUtilisation id fuel q cpu t = .ok r

section Range

variable {q : Queues} {cpu t : Nat} {tick : Int} {attr : SchedAttr} {task : Nat → TaskStruct}

/-- What the check leaves of the times: `wcet < deadline ≤ period`. -/
theorem EdfQueued.times (htick : 0 < tick) (ha : EdfQueued tick attr) :
    0 < attr.wcet ∧ attr.wcet < attr.deadlineRel ∧ attr.deadlineRel ≤ attr.period ∧
      attr.period < 2 ^ 63 := by
  obtain ⟨tsk, hcheck, rfl, hnonneg, hperiod, hdeadline⟩ := ha
  obtain ⟨hwcet, hlt, hle⟩ := edfSetPeriod_times htick hnonneg hcheck
  refine ⟨hwcet, hlt, hle, ?_⟩
  unfold edfSetPeriod
  split
  · exact hdeadline
  · exact hperiod

/-- The differences lie below the numbers. -/
theorem edfCommonSteps_range {n : Nat} {a b M : Int} (ha : 0 < a) (hb : 0 < b) (haM : a ≤ M)
    (hbM : b ≤ M) : ∀ x ∈ edfCommonSteps n a b, 0 < x ∧ x ≤ M := by
  induction n generalizing a b with
  | zero => exact fun x hx => absurd hx List.not_mem_nil
  | succ n ih =>
    rw [edfCommonSteps]
    by_cases heq : a = b
    · rw [if_pos heq]
      exact fun x hx => absurd hx List.not_mem_nil
    rw [if_neg heq]
    by_cases hlt : b < a
    · rw [if_pos hlt]
      have hdiff : 0 < a - b ∧ a - b ≤ M := ⟨by linarith, by linarith⟩
      exact List.forall_mem_cons.mpr ⟨hdiff, ih hdiff.1 hb hdiff.2 hbM⟩
    · rw [if_neg hlt]
      have hdiff : 0 < b - a ∧ b - a ≤ M := ⟨by omega, by linarith⟩
      exact List.forall_mem_cons.mpr ⟨hdiff, ih ha hdiff.1 haM hdiff.2⟩

/-- Whenever the subtractions end, it is at the greatest common divisor. -/
theorem edfCommon_gcd {n : Nat} {a b g : Int} (ha : 0 < a) (hb : 0 < b)
    (hg : edfCommon id n a b = .ok g) : g = Int.gcd a b := by
  induction n generalizing a b with
  | zero => cases hg
  | succ n ih =>
    rw [edfCommon] at hg
    by_cases heq : a = b
    · rw [if_pos heq] at hg
      rw [← Except.ok.inj hg, ← heq, Int.gcd_self, Int.natAbs_of_nonneg ha.le]
    rw [if_neg heq] at hg
    by_cases hlt : b < a
    · rw [if_pos hlt] at hg
      rw [ih (sub_pos.mpr hlt) hb hg, Int.gcd_sub_self_left]
    · rw [if_neg hlt] at hg
      have hab : 0 < b - a := by omega
      rw [ih ha hab hg, Int.gcd_sub_self_right]

/-- **The values of the hyperperiod** are in range if it is, and it is one of them. -/
theorem edfHyperSteps_range {fuel : Nat} {L : List Nat} {lcm p M : Int} (hlcm : 0 < lcm)
    (hL : ∀ u ∈ L, 0 < (task u).attr.period ∧ (task u).attr.period ≤ M)
    (hrun : edfHyperLoop id fuel task L lcm = .ok p) :
    p ∈ lcm :: edfHyperSteps fuel task L lcm ∧ lcm ≤ p ∧
      (p ≤ M → ∀ x ∈ edfHyperSteps fuel task L lcm, 0 < x ∧ x ≤ M) := by
  induction L generalizing lcm with
  | nil =>
    rw [← Except.ok.inj hrun]
    exact ⟨List.mem_cons_self, le_refl _, fun _ x hx => absurd hx List.not_mem_nil⟩
  | cons u L ih =>
    obtain ⟨⟨hper, hM⟩, hrest⟩ := List.forall_mem_cons.mp hL
    rw [edfHyperLoop, if_neg hper.ne'] at hrun
    rw [edfHyperSteps]
    by_cases hmul : lcm.tmod (task u).attr.period = 0
    · rw [if_pos hmul] at hrun ⊢
      exact ih hlcm hrest hrun
    rw [if_neg hmul] at hrun ⊢
    cases hg : edfCommon id fuel lcm (task u).attr.period with
    | error e =>
      rw [hg] at hrun
      cases hrun
    | ok g =>
      have hgcd := edfCommon_gcd hlcm hper hg
      have hne : g ≠ 0 := by
        rw [hgcd]
        exact (Int.natCast_pos.mpr (Int.gcd_pos_of_ne_zero_left _ hlcm.ne')).ne'
      rw [hg] at hrun
      dsimp only at hrun ⊢
      rw [ktimeDiv, if_neg hne] at hrun
      dsimp only [id] at hrun
      have hnext : lcm * (task u).attr.period.tdiv g = Int.lcm lcm (task u).attr.period := by
        rw [hgcd, lcm_eq_mul_tdiv hlcm hper]
      have hpos : 0 < lcm * (task u).attr.period.tdiv g := by
        rw [hnext]
        exact Int.natCast_pos.mpr (Int.lcm_pos hlcm.ne' hper.ne')
      have hfactor : 0 < (task u).attr.period.tdiv g := pos_of_mul_pos_right hpos hlcm.le
      obtain ⟨hmem, hle, hrange⟩ := ih hpos hrest hrun
      have hgrow : lcm ≤ lcm * (task u).attr.period.tdiv g :=
        le_mul_of_one_le_right hlcm.le (Int.add_one_le_iff.mpr hfactor)
      refine ⟨?_, hgrow.trans hle, fun hp => ?_⟩
      · exact List.mem_cons_of_mem _ (List.mem_append_right _ (List.mem_cons_of_mem _ hmem))
      · refine List.forall_mem_append.mpr ⟨?_, ?_⟩
        · exact edfCommonSteps_range hlcm hper (hgrow.trans (hle.trans hp)) hM
        · refine List.forall_mem_cons.mpr ⟨⟨hfactor, ?_⟩, List.forall_mem_cons.mpr
            ⟨⟨hpos, hle.trans hp⟩, hrange hp⟩⟩
          exact (le_mul_of_one_le_left hfactor.le (Int.add_one_le_iff.mpr hlcm)).trans (hle.trans hp)

/-- A quotient of numbers that are not negative lies between them. -/
theorem inKtime_tdiv {a b : Int} (ha : 0 ≤ a) (hb : 0 ≤ b) (hlt : a < 2 ^ 63) :
    0 ≤ a.tdiv b ∧ InKtime (a.tdiv b) :=
  ⟨Int.tdiv_nonneg ha hb, .of_nonneg (Int.tdiv_nonneg ha hb)
    (lt_of_le_of_lt (Int.tdiv_le_self b ha) hlt)⟩

/-- **The values of the slots** are in range if the products of three factors are. -/
theorem edfSlotSteps_range {t₀ : Nat} {h f1 uh ut : Int} {L : List Nat} (hh : 0 < h)
    (hlcm : h * (task t₀).attr.period < 2 ^ 63) (hd : 0 ≤ (task t₀).attr.deadlineRel) (hf1 : 0 ≤ f1)
    (hL : ∀ u ∈ L, 0 < (task u).attr.wcet ∧ (task u).attr.wcet ≤ (task u).attr.period ∧
      (task u).attr.period ≤ (task t₀).attr.period)
    (huh : 0 ≤ uh ∧ uh < 2 ^ 63) (hut : 0 ≤ ut ∧ ut < 2 ^ 63) :
    (∀ x ∈ edfSlotSteps task t₀ h f1 L uh ut, InKtime x) ↔
      edfSlotsNarrow h (task t₀).attr.deadlineRel f1
        ((L.filter (· ≠ t₀)).map fun u => (task u).attr) uh ut := by
  induction L generalizing uh ut with
  | nil => exact iff_of_true (fun x hx => absurd hx List.not_mem_nil) trivial
  | cons u L ih =>
    obtain ⟨⟨hwpos, hwper, hper⟩, hL⟩ := List.forall_mem_cons.mp hL
    by_cases hu : u = t₀
    · rw [edfSlotSteps, if_pos hu, List.filter_cons_of_neg (by simp [hu])]
      exact ih hL huh hut
    rw [List.filter_cons_of_pos (by simp [hu]), List.map_cons, edfSlotsNarrow]
    refine (forall_mem_edfSlotSteps hu).trans ?_
    have hP : 0 ≤ (task u).attr.period := by linarith
    have hw : 0 < h * (task u).attr.wcet := mul_pos hh hwpos
    have hwin : InKtime (h * (task u).attr.wcet) :=
      .of_nonneg hw.le (lt_of_le_of_lt (mul_le_mul_of_nonneg_left (hwper.trans hper) hh.le) hlcm)
    have hdprod : 0 ≤ h * (task u).attr.wcet * (task t₀).attr.deadlineRel := mul_nonneg hw.le hd
    have hfprod : 0 ≤ h * (task u).attr.wcet * f1 := mul_nonneg hw.le hf1
    -- what is left of the slots, if they last
    have hleft : ((task u).attr.deadlineRel ≤ (task t₀).attr.deadlineRel →
        edfHeadSlots h (task t₀).attr.deadlineRel (task u).attr ≤ uh) →
        let left := if (task u).attr.deadlineRel ≤ (task t₀).attr.deadlineRel then
          uh - edfHeadSlots h (task t₀).attr.deadlineRel (task u).attr else uh
        0 ≤ left ∧ left < 2 ^ 63 := by
      intro hfit
      have hsh : 0 ≤ edfHeadSlots h (task t₀).attr.deadlineRel (task u).attr :=
        Int.tdiv_nonneg hdprod hP
      dsimp only
      split
      · rename_i hdl
        exact ⟨sub_nonneg.mpr (hfit hdl), by linarith [huh.2]⟩
      · exact huh
    have hst : 0 ≤ edfTailSlots h f1 (task u).attr := Int.tdiv_nonneg hfprod hP
    have hrest : edfTailSlots h f1 (task u).attr ≤ ut →
        0 ≤ ut - edfTailSlots h f1 (task u).attr ∧ ut - edfTailSlots h f1 (task u).attr < 2 ^ 63 :=
      fun hlast => ⟨sub_nonneg.mpr hlast, by linarith [hut.2]⟩
    constructor
    · rintro ⟨hhead, htail⟩
      refine ⟨fun hdl => (hhead hdl).2.1.2, fun hfit => ?_⟩
      obtain ⟨-, hf, -, hnext⟩ := htail hfit
      exact ⟨hf.2, fun hlast => (ih hL (hleft hfit) (hrest hlast)).mp (hnext hlast).2⟩
    · rintro ⟨hhead, htail⟩
      refine ⟨fun hdl => ?_, fun hfit => ?_⟩
      · obtain ⟨hpos, hin⟩ := inKtime_tdiv hdprod hP (hhead hdl)
        exact ⟨hwin, .of_nonneg hdprod (hhead hdl), hin, fun hle =>
          .of_nonneg (sub_nonneg.mpr hle) (lt_of_le_of_lt (sub_le_self uh hpos) huh.2)⟩
      · obtain ⟨hf, hnext⟩ := htail hfit
        refine ⟨hwin, .of_nonneg hfprod hf, (inKtime_tdiv hfprod hP hf).2, fun hlast => ?_⟩
        obtain ⟨hnonneg, hlt⟩ := hrest hlast
        exact ⟨.of_nonneg hnonneg hlt, (ih hL (hleft hfit) (hrest hlast)).mpr (hnext hlast)⟩

/-- **All values of a test** are in range if the hyperperiod and the products are. -/
theorem edfTestSteps_range {fuel : Nat} (htick : 0 < tick)
    (hq : ∀ u ∈ edfSlotTasks q cpu t, EdfQueued tick (q.task u).attr)
    (hrun : edfHyperperiod id fuel q cpu t = .ok (edfPeriodsLcm q cpu t : Int)) :
    (∀ x ∈ edfTestSteps fuel q cpu t, InKtime x) ↔ EdfNarrow q cpu t := by
  obtain ⟨t₀, ht₀⟩ : ∃ t₀, edfLongestPeriodTask q cpu t = t₀ := ⟨_, rfl⟩
  obtain ⟨hmem, hlong⟩ := edfLongestPeriodTask_spec q cpu t
  unfold edfTestSteps EdfNarrow
  rw [ht₀] at hmem hlong ⊢
  obtain ⟨p, hp⟩ : ∃ p, (edfPeriodsLcm q cpu t : Int) = p := ⟨_, rfl⟩
  have htimes := fun u hu => (hq u hu).times htick
  obtain ⟨hwpos, hwd, hdp, hperiod⟩ := htimes t₀ hmem
  have hP : 0 < (q.task t₀).attr.period := by linarith
  have hall : ∀ u ∈ edfSlotTasks q cpu t,
      0 < (q.task u).attr.period ∧ (q.task u).attr.period ≤ 2 ^ 63 - 1 := by
    intro u hu
    obtain ⟨hw, hwd, hdp, hlt⟩ := htimes u hu
    exact ⟨by linarith, Int.le_sub_one_of_lt hlt⟩
  obtain ⟨ht, hqueued⟩ := forall_edfSlotTasks_iff.mp hall
  obtain ⟨hpmem, hple, hhyper⟩ := edfHyperSteps_range ht.1 hqueued hrun
  -- the period factor
  obtain ⟨h, hh⟩ : (q.task t₀).attr.period ∣ p := hp ▸ edfPeriodsLcm_dvd_iff.mp dvd_rfl _ hmem
  have hppos : 0 < p := lt_of_lt_of_le ht.1 (hp ▸ hple)
  have hpos : 0 < h := pos_of_mul_pos_right (hh ▸ hppos) hP.le
  have hfactor : p.tdiv (q.task t₀).attr.period = h := by
    rw [hh]
    exact Int.mul_tdiv_cancel_left h hP.ne'
  have hediv : p / (q.task t₀).attr.period = h := by
    rw [hh]
    exact Int.mul_ediv_cancel_left h hP.ne'
  rw [hrun, hp]
  dsimp only
  rw [hfactor, hediv, Int.mul_tdiv_cancel_left _ hpos.ne', List.forall_mem_append,
    List.forall_mem_append]
  rw [hp] at hpmem hhyper
  -- what a share of the longest period takes of the hyperperiod
  have hshare : ∀ x, 0 ≤ x → x ≤ (q.task t₀).attr.period → 0 ≤ h * x ∧ h * x ≤ p := by
    intro x hx hle
    rw [hh, mul_comm _ h]
    exact ⟨mul_nonneg hpos.le hx, mul_le_mul_of_nonneg_left hle hpos.le⟩
  obtain ⟨huh, huhp⟩ := hshare ((q.task t₀).attr.deadlineRel - (q.task t₀).attr.wcet)
    (by linarith) (by linarith)
  obtain ⟨hut, hutp⟩ := hshare ((q.task t₀).attr.period - (q.task t₀).attr.deadlineRel)
    (by linarith) (by linarith)
  have hslots : p < 2 ^ 63 → ((∀ x ∈ edfSlotSteps q.task t₀ h
      ((q.task t₀).attr.period - (q.task t₀).attr.deadlineRel) (edfSlotTasks q cpu t)
      (h * ((q.task t₀).attr.deadlineRel - (q.task t₀).attr.wcet))
      (h * ((q.task t₀).attr.period - (q.task t₀).attr.deadlineRel)), InKtime x) ↔
        edfSlotsNarrow h (q.task t₀).attr.deadlineRel
          ((q.task t₀).attr.period - (q.task t₀).attr.deadlineRel)
          (((edfSlotTasks q cpu t).filter (· ≠ t₀)).map fun u => (q.task u).attr)
          (h * ((q.task t₀).attr.deadlineRel - (q.task t₀).attr.wcet))
          (h * ((q.task t₀).attr.period - (q.task t₀).attr.deadlineRel))) := by
    intro hlt
    refine edfSlotSteps_range hpos ?_ (by linarith) (sub_nonneg.mpr hdp) (fun u hu => ?_)
      ⟨huh, lt_of_le_of_lt huhp hlt⟩ ⟨hut, lt_of_le_of_lt hutp hlt⟩
    · rw [mul_comm, ← hh]
      exact hlt
    · obtain ⟨hw, hwd, hdp, -⟩ := htimes u hu
      exact ⟨hw, by linarith, hlong u hu⟩
  constructor
  · rintro ⟨hin, hvalues, hsteps⟩
    have hlt : p < 2 ^ 63 := by
      rcases List.mem_cons.mp hpmem with heq | hmem
      · rw [heq]
        exact Int.lt_of_le_sub_one ht.2
      · exact (hin p hmem).2
    exact ⟨hlt, (hslots hlt).mp hsteps⟩
  · rintro ⟨hlt, hnarrow⟩
    have hhp : h ≤ p := by
      rw [hh]
      exact le_mul_of_one_le_left hpos.le (Int.add_one_le_iff.mpr hP)
    refine ⟨fun x hx => ?_, ?_, (hslots hlt).mpr hnarrow⟩
    · obtain ⟨hx0, hxM⟩ := hhyper (Int.le_sub_one_of_lt hlt) x hx
      exact .of_nonneg hx0.le (Int.lt_of_le_sub_one hxM)
    · simp only [List.forall_mem_cons]
      exact ⟨.of_nonneg hpos.le (lt_of_le_of_lt hhp hlt), .of_nonneg (by linarith) (by linarith),
        .of_nonneg huh (lt_of_le_of_lt huhp hlt), .of_nonneg (by linarith) (by linarith),
        .of_nonneg hut (lt_of_le_of_lt hutp hlt), .of_nonneg (by linarith) (by linarith),
        fun x hx => absurd hx List.not_mem_nil⟩

/-- **The admission arithmetic** is in range if, and only if, the hyperperiod and the products for the
tasks up to the first one that does not fit are. -/
theorem edf_admission_range (htick : 0 < tick)
    (hq : ∀ u ∈ edfSlotTasks q cpu t, EdfQueued tick (q.task u).attr) :
    EdfExact q cpu t ↔ EdfNarrow q cpu t := by
  have hpos : ∀ u ∈ edfSlotTasks q cpu t, 0 < (q.task u).attr.period := by
    intro u hu
    obtain ⟨hw, hwd, hdp, -⟩ := (hq u hu).times htick
    linarith
  obtain ⟨N, hrun⟩ := edf_hyperperiod_lcm hpos
  constructor
  · rintro ⟨N', hexact⟩
    exact (edfTestSteps_range htick hq (hrun _ (le_max_left N N'))).mp
      (hexact _ (le_max_right N N')).1
  · intro hnarrow
    obtain ⟨N', h, -, -, htest⟩ := edfTestSlotUtilisation_ok hpos rfl
    refine ⟨max N N', fun fuel hfuel => ?_⟩
    have hsteps := (edfTestSteps_range htick hq (hrun fuel (le_trans (le_max_left _ _) hfuel))).mpr
      hnarrow
    obtain ⟨r, hr, -⟩ := edfSlotLoop_ok (edfLongestPeriodTask q cpu t) h _ _ _ fun u hu => (hpos u hu).ne'
    have hid := (htest fuel (le_trans (le_max_right _ _) hfuel)).trans hr
    refine ⟨hsteps, r, ?_, hid⟩
    rw [edfTestSlotUtilisation_congr (fun u hu => (hpos u hu).ne') fun x hx =>
      ktimeWrap_of_inKtime (hsteps x hx)]
    exact hid

end Range

/-- Two tasks with a period of ten seconds; the deadlines are nine and five seconds. -/
def edfSeconds (wcet₀ wcet₁ : Int) : Queues where
  task u := if u = 0 then edfTaskWith wcet₀ 9000000000 10000000000
    else edfTaskWith wcet₁ 5000000000 10000000000
  tq _ := ⟨[], [1], [], []⟩
  freed := []

theorem edfSeconds_queued (wcet₀ wcet₁ : Int)
    (h₀ : (edfCheckSchedAttr 1 ((edfSeconds wcet₀ wcet₁).task 0).attr).1 = 0)
    (h₁ : (edfCheckSchedAttr 1 ((edfSeconds wcet₀ wcet₁).task 1).attr).1 = 0) :
    ∀ u ∈ edfSlotTasks (edfSeconds wcet₀ wcet₁) 0 0,
      EdfQueued 1 ((edfSeconds wcet₀ wcet₁).task u).attr := by
  intro u hu
  have hcases : u = 1 ∨ u = 0 := by
    simpa [edfSlotTasks, edfSeconds] using hu
  have hper : (0 : Int) ≤ 10000000000 ∧ (10000000000 : Int) < 2 ^ 63 := by decide
  rcases hcases with rfl | rfl
  · exact ⟨_, h₁, rfl, hper.1, hper.2, (by decide : (5000000000 : Int) < 2 ^ 63)⟩
  · exact ⟨_, h₀, rfl, hper.1, hper.2, (by decide : (9000000000 : Int) < 2 ^ 63)⟩

theorem edf_admission_range_seconds : EdfExact (edfSeconds 5500000000 1000000000) 0 0 := by
  refine (edf_admission_range (by decide : (0 : Int) < 1)
    (edfSeconds_queued _ _ (by decide) (by decide))).mpr ⟨by decide, ?_⟩
  exact ⟨fun _ => by decide, fun _ => ⟨by decide, fun _ => trivial⟩⟩

/-- **A product out of range.**  Four seconds times nine are `36 * 10 ^ 18`, which is negative in 64 bits:
the task is accepted, though its slots do not last. -/
theorem edf_admission_overflows : ¬ ∀ (q : Queues) (cpu t : Nat) (tick : Int), 0 < tick →
    (∀ u ∈ edfSlotTasks q cpu t, EdfQueued tick (q.task u).attr) → EdfExact q cpu t := by
  intro h
  obtain ⟨N, hexact⟩ := h (edfSeconds 5500000000 4000000000) 0 0 1 (by decide)
    (edfSeconds_queued _ _ (by decide) (by decide))
  obtain ⟨-, r, hwrap, hid⟩ := hexact N le_rfl
  have hwrap' : edfTestSlotUtilisation ktimeWrap N (edfSeconds 5500000000 4000000000) 0 0 = .ok 0 := by
    rfl
  have hid' : edfTestSlotUtilisation id N (edfSeconds 5500000000 4000000000) 0 0 = .ok (-1) := by
    rfl
  have hsame := Except.ok.inj ((hwrap'.symm.trans hwrap).trans (hid.symm.trans hid'))
  exact absurd hsame (by decide)

end FlightOs
