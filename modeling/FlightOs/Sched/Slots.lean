/-
# The slot test and the order of the tasks

`edf_test_slot_utilisation` goes through the tasks of a CPU one after the other, and takes what each
of them needs from the slots that the task with the longest period leaves.  The order is that of the
queues, with the new task last.

Over the integers the order makes no difference, once the reference is chosen: the hyperperiod is the
least common multiple of the periods (`edfHyperperiod_ok`), and a budget that only shrinks lasts or
does not, whoever draws on it first (`edfSlotsLast_perm`).  The choice does make a difference: of two
tasks with the longest period it is the first one, and another deadline leaves other slots.

* `edf_slot_order_free`: the same verdict, for references with the same deadline and run time.
* `edf_slot_order_matters`: two tasks of one period, one arrangement accepted and the other not.
-/
import FlightOs.Sched.Admission

namespace FlightOs

/-- The times of a task in a queue: the check of the attributes has let them pass, and `edf_enqueue`
has set a period where there was none. -/
structure EdfTimes (attr : SchedAttr) : Prop where
  period : 0 < attr.period
  wcet : 0 ≤ attr.wcet
  deadline : 0 ≤ attr.deadlineRel
  deadline_le : attr.deadlineRel ≤ attr.period

/-- What the check leaves of the times: `wcet < deadline ≤ period`. -/
theorem edfSetPeriod_times {tick : Int} (htick : 0 < tick) {tsk : TaskStruct}
    (hperiod : 0 ≤ tsk.attr.period) (h : (edfCheckSchedAttr tick tsk.attr).1 = 0) :
    0 < (edfSetPeriod tsk).attr.wcet ∧
      (edfSetPeriod tsk).attr.wcet < (edfSetPeriod tsk).attr.deadlineRel ∧
      (edfSetPeriod tsk).attr.deadlineRel ≤ (edfSetPeriod tsk).attr.period := by
  have hfails : ¬ (-(EINVAL : Int)) = 0 := by decide
  unfold edfCheckSchedAttr at h
  split at h
  · exact absurd h hfails
  split at h
  · exact absurd h hfails
  split at h
  · exact absurd h hfails
  split at h
  · exact absurd h hfails
  split at h
  · exact absurd h hfails
  unfold edfSetPeriod
  split
  · dsimp only
    omega
  · dsimp only
    omega

/-- Attributes with a period that is no negative number, as they are made from microseconds. -/
theorem EdfTimes.of_check {tick : Int} (htick : 0 < tick) {tsk : TaskStruct}
    (hperiod : 0 ≤ tsk.attr.period) (h : (edfCheckSchedAttr tick tsk.attr).1 = 0) :
    EdfTimes (edfSetPeriod tsk).attr := by
  obtain ⟨hwcet, hlt, hle⟩ := edfSetPeriod_times htick hperiod h
  have hdeadline : 0 < (edfSetPeriod tsk).attr.deadlineRel := hwcet.trans hlt
  exact ⟨hdeadline.trans_le hle, hwcet.le, hdeadline.le, hle⟩

/-! ## 1. The hyperperiod -/

section Hyperperiod

variable {task : Nat → TaskStruct} {L : List Nat} {a b lcm : Int}

/-- The subtractions end at the greatest common divisor. -/
theorem edfCommon_ok (n : Nat) (ha : 0 < a) (hb : 0 < b) (hn : a.toNat + b.toNat ≤ n) :
    edfCommon id n a b = .ok (Int.gcd a b) := by
  induction n generalizing a b with
  | zero => omega
  | succ n ih =>
    rw [edfCommon]
    by_cases heq : a = b
    · rw [if_pos heq, ← heq, Int.gcd_self, Int.natAbs_of_nonneg ha.le]
    rw [if_neg heq]
    by_cases hlt : b < a
    · rw [if_pos hlt, id, ih (by omega) hb (by omega), Int.gcd_sub_self_left]
    · rw [if_neg hlt, id, ih ha (by omega) (by omega), Int.gcd_sub_self_right]

/-- More fuel changes nothing. -/
theorem edfCommon_mono {wrap : Int → Int} {n m : Nat} {g : Int} (hnm : n ≤ m)
    (h : edfCommon wrap n a b = .ok g) : edfCommon wrap m a b = .ok g := by
  induction n generalizing a b m with
  | zero => cases h
  | succ n ih =>
    obtain ⟨m, rfl⟩ : ∃ k, m = k + 1 := ⟨m - 1, by omega⟩
    rw [edfCommon] at h ⊢
    split
    · next heq => rwa [if_pos heq] at h
    · next hne =>
      rw [if_neg hne] at h
      split
      · next hlt =>
        rw [if_pos hlt] at h
        exact ih (by omega) h
      · next hnlt =>
        rw [if_neg hnlt] at h
        exact ih (by omega) h

theorem edfHyperLoop_mono {wrap : Int → Int} {n m : Nat} {p : Int} (hnm : n ≤ m)
    (h : edfHyperLoop wrap n task L lcm = .ok p) : edfHyperLoop wrap m task L lcm = .ok p := by
  induction L generalizing lcm with
  | nil => exact h
  | cons u L ih =>
    rw [edfHyperLoop] at h ⊢
    by_cases hzero : (task u).attr.period = 0
    · rw [if_pos hzero] at h
      cases h
    rw [if_neg hzero] at h ⊢
    by_cases hmul : lcm.tmod (task u).attr.period = 0
    · rw [if_pos hmul] at h ⊢
      exact ih h
    rw [if_neg hmul] at h ⊢
    cases hg : edfCommon wrap n lcm (task u).attr.period with
    | error e =>
      rw [hg] at h
      cases h
    | ok a =>
      rw [hg] at h
      rw [edfCommon_mono hnm hg]
      dsimp only at h ⊢
      cases hdiv : ktimeDiv wrap (task u).attr.period a with
      | error e =>
        rw [hdiv] at h
        cases h
      | ok x =>
        rw [hdiv] at h
        exact ih h

/-- A further period is taken in by the factor that it lacks. -/
theorem lcm_eq_mul_tdiv (ha : 0 < a) (hb : 0 < b) : a * b.tdiv (Int.gcd a b) = Int.lcm a b := by
  have hg : (0 : Int) < Int.gcd a b := Int.natCast_pos.mpr (Int.gcd_pos_of_ne_zero_left b ha.ne')
  obtain ⟨c, hc⟩ : (Int.gcd a b : Int) ∣ b := Int.gcd_dvd_right ..
  have hmul : (Int.gcd a b : Int) * Int.lcm a b = a * b := by
    rw [← Int.natCast_mul, Int.gcd_mul_lcm, Int.natCast_mul, Int.natAbs_of_nonneg ha.le,
      Int.natAbs_of_nonneg hb.le]
  generalize (Int.gcd a b : Int) = g at hg hc hmul ⊢
  have hdiv : b.tdiv g = c := by
    rw [hc]
    exact Int.mul_tdiv_cancel_left c hg.ne'
  rw [hdiv]
  refine mul_left_cancel₀ hg.ne' ?_
  calc g * (a * c)
      _ = a * (g * c) := by ring
      _ = a * b := by rw [← hc]
      _ = g * Int.lcm a b := hmul.symm

/-- **The hyperperiod** is a multiple of the periods, and divides every other one. -/
theorem edfHyperLoop_ok (hlcm : 0 < lcm) (hL : ∀ u ∈ L, 0 < (task u).attr.period) :
    ∃ N p, 0 < p ∧ (∀ fuel, N ≤ fuel → edfHyperLoop id fuel task L lcm = .ok p) ∧
      ∀ x, p ∣ x ↔ lcm ∣ x ∧ ∀ u ∈ L, (task u).attr.period ∣ x := by
  induction L generalizing lcm with
  | nil => exact ⟨0, lcm, hlcm, fun _ _ => rfl, fun x => by simp⟩
  | cons t L ih =>
    have hper := hL t List.mem_cons_self
    have hrest : ∀ u ∈ L, 0 < (task u).attr.period := fun u hu => hL u (List.mem_cons_of_mem _ hu)
    by_cases hdvd : (task t).attr.period ∣ lcm
    · -- already a multiple
      obtain ⟨N, p, hp, hrun, hiff⟩ := ih hlcm hrest
      refine ⟨N, p, hp, fun fuel hfuel => ?_, fun x => ?_⟩
      · rw [edfHyperLoop, if_neg hper.ne', if_pos (Int.tmod_eq_zero_of_dvd hdvd), hrun fuel hfuel]
      · rw [hiff, List.forall_mem_cons]
        exact ⟨fun h => ⟨h.1, hdvd.trans h.1, h.2⟩, fun h => ⟨h.1, h.2.2⟩⟩
    · have hpos : (0 : Int) < Int.lcm lcm (task t).attr.period :=
        Int.natCast_pos.mpr (Int.lcm_pos hlcm.ne' hper.ne')
      obtain ⟨N, p, hp, hrun, hiff⟩ := ih hpos hrest
      refine ⟨max N (lcm.toNat + (task t).attr.period.toNat), p, hp, fun fuel hfuel => ?_,
        fun x => ?_⟩
      · have hg : ((Int.gcd lcm (task t).attr.period : Nat) : Int) ≠ 0 :=
          (Int.natCast_pos.mpr (Int.gcd_pos_of_ne_zero_left _ hlcm.ne')).ne'
        rw [edfHyperLoop, if_neg hper.ne', if_neg (fun h => hdvd (Int.dvd_of_tmod_eq_zero h)),
          edfCommon_ok fuel hlcm hper (le_trans (le_max_right _ _) hfuel)]
        dsimp only
        rw [ktimeDiv, if_neg hg]
        dsimp only [id]
        rw [lcm_eq_mul_tdiv hlcm hper, hrun fuel (le_trans (le_max_left _ _) hfuel)]
      · rw [hiff, List.forall_mem_cons, Int.coe_lcm_dvd_iff, and_assoc]

end Hyperperiod

/-! ## 2. The slots -/

/-- The slots a task needs before the deadline of the reference. -/
def edfHeadSlots (h d : Int) (attr : SchedAttr) : Int := (h * attr.wcet * d).tdiv attr.period

/-- The slots it needs behind it. -/
def edfTailSlots (h f1 : Int) (attr : SchedAttr) : Int := (h * attr.wcet * f1).tdiv attr.period

/-- The slots last for all tasks, one after the other. -/
def edfSlotsLast (h d f1 : Int) : List SchedAttr → Int → Int → Prop
  | [], _, _ => True
  | attr :: L, uh, ut =>
    (attr.deadlineRel ≤ d → edfHeadSlots h d attr ≤ uh) ∧ edfTailSlots h f1 attr ≤ ut ∧
      edfSlotsLast h d f1 L (if attr.deadlineRel ≤ d then uh - edfHeadSlots h d attr else uh)
        (ut - edfTailSlots h f1 attr)

section Slots

variable {task : Nat → TaskStruct} {t₀ : Nat} {h d f1 uh ut : Int} {L : List Nat}
  {A B : List SchedAttr}

/-- The loop accepts if the slots last for all tasks but the reference. -/
theorem edfSlotLoop_ok (t₀ : Nat) (h f1 uh ut : Int) (hL : ∀ u ∈ L, (task u).attr.period ≠ 0) :
    ∃ r, edfSlotLoop id task t₀ h f1 L uh ut = .ok r ∧
      (r = 0 ↔ edfSlotsLast h (task t₀).attr.deadlineRel f1
        ((L.filter (· ≠ t₀)).map (fun u => (task u).attr)) uh ut) := by
  induction L generalizing uh ut with
  | nil => exact ⟨0, rfl, by simp [edfSlotsLast]⟩
  | cons u L ih =>
    have hrest : ∀ v ∈ L, (task v).attr.period ≠ 0 := fun v hv => hL v (List.mem_cons_of_mem _ hv)
    have hper := hL u List.mem_cons_self
    by_cases hu : u = t₀
    · obtain ⟨r, hr, hiff⟩ := ih uh ut hrest
      refine ⟨r, ?_, ?_⟩
      · rw [edfSlotLoop, if_pos hu, hr]
      · rw [hiff, List.filter_cons_of_neg (by simp [hu])]
    obtain ⟨hs, hhs⟩ : ∃ hs, hs = edfHeadSlots h (task t₀).attr.deadlineRel (task u).attr := ⟨_, rfl⟩
    obtain ⟨ts, hts⟩ : ∃ ts, ts = edfTailSlots h f1 (task u).attr := ⟨_, rfl⟩
    have hstep : edfSlotLoop id task t₀ h f1 (u :: L) uh ut =
        if (task u).attr.deadlineRel ≤ (task t₀).attr.deadlineRel ∧ uh < hs then .ok (-1)
        else if ut < ts then .ok (-2)
        else edfSlotLoop id task t₀ h f1 L
          (if (task u).attr.deadlineRel ≤ (task t₀).attr.deadlineRel then uh - hs else uh)
          (ut - ts) := by
      rw [edfSlotLoop, if_neg hu, ktimeDiv, ktimeDiv, if_neg hper, if_neg hper, hhs, hts]
      rfl
    rw [hstep, List.filter_cons_of_pos (by simp [hu]), List.map_cons, edfSlotsLast, ← hhs, ← hts]
    by_cases hhead : (task u).attr.deadlineRel ≤ (task t₀).attr.deadlineRel ∧ uh < hs
    · refine ⟨-1, if_pos hhead, iff_of_false (by decide) (fun hlast => ?_)⟩
      exact absurd (hlast.1 hhead.1) (not_le.mpr hhead.2)
    rw [if_neg hhead]
    by_cases htail : ut < ts
    · refine ⟨-2, if_pos htail, iff_of_false (by decide) (fun hlast => ?_)⟩
      exact absurd hlast.2.1 (not_le.mpr htail)
    rw [if_neg htail]
    obtain ⟨r, hr, hiff⟩ := ih
      (if (task u).attr.deadlineRel ≤ (task t₀).attr.deadlineRel then uh - hs else uh) (ut - ts) hrest
    refine ⟨r, hr, hiff.trans ⟨fun hlast => ⟨fun hle => ?_, not_lt.mp htail, hlast⟩, fun hlast =>
      hlast.2.2⟩⟩
    exact not_lt.mp (fun hlt => hhead ⟨hle, hlt⟩)

/-- **A budget that only shrinks** lasts in every order, or in none. -/
theorem edfSlotsLast_perm (hperm : A.Perm B)
    (hA : ∀ a ∈ A, 0 ≤ edfHeadSlots h d a ∧ 0 ≤ edfTailSlots h f1 a) :
    edfSlotsLast h d f1 A uh ut ↔ edfSlotsLast h d f1 B uh ut := by
  induction hperm generalizing uh ut with
  | nil => exact Iff.rfl
  | cons a _ ih =>
    rw [edfSlotsLast, edfSlotsLast, ih (fun b hb => hA b (List.mem_cons_of_mem _ hb))]
  | swap a b A =>
    obtain ⟨hb, htb⟩ := hA b List.mem_cons_self
    obtain ⟨ha, hta⟩ := hA a (List.mem_cons_of_mem _ List.mem_cons_self)
    simp only [edfSlotsLast]
    rw [sub_right_comm ut]
    -- which of the two draw on the head
    by_cases h1 : a.deadlineRel ≤ d
    · by_cases h2 : b.deadlineRel ≤ d
      · simp only [if_pos h1, if_pos h2, sub_right_comm uh (edfHeadSlots h d b)]
        constructor
        all_goals
          rintro ⟨hx, hy, hz, hw, hr⟩
          have hx' := hx (by assumption)
          have hz' := hz (by assumption)
          exact ⟨fun _ => by omega, by omega, fun _ => by omega, by omega, hr⟩
      · simp only [if_pos h1, if_neg h2]
        constructor
        · rintro ⟨-, hy, hz, hw, hr⟩
          exact ⟨hz, by omega, fun h' => absurd h' h2, by omega, hr⟩
        · rintro ⟨hx, hy, -, hw, hr⟩
          exact ⟨fun h' => absurd h' h2, by omega, hx, by omega, hr⟩
    · by_cases h2 : b.deadlineRel ≤ d
      · simp only [if_neg h1, if_pos h2]
        constructor
        · rintro ⟨hx, hy, -, hw, hr⟩
          exact ⟨fun h' => absurd h' h1, by omega, hx, by omega, hr⟩
        · rintro ⟨-, hy, hz, hw, hr⟩
          exact ⟨hz, by omega, fun h' => absurd h' h1, by omega, hr⟩
      · simp only [if_neg h1, if_neg h2]
        constructor
        all_goals
          rintro ⟨hx, hy, hz, hw, hr⟩
          exact ⟨hz, by omega, hx, by omega, hr⟩
  | trans hperm _ ih₁ ih₂ =>
    rw [ih₁ hA, ih₂ (fun b hb => hA b (hperm.mem_iff.mpr hb))]

/-- **Slots that last** for all tasks are as many as the tasks need together. -/
theorem edfSlotsLast_sum (hlast : edfSlotsLast h d f1 A uh ut) (huh : 0 ≤ uh) (hut : 0 ≤ ut) :
    (A.map fun a => if a.deadlineRel ≤ d then edfHeadSlots h d a else 0).sum ≤ uh ∧
      (A.map (edfTailSlots h f1)).sum ≤ ut := by
  induction A generalizing uh ut with
  | nil => exact ⟨huh, hut⟩
  | cons a A ih =>
    obtain ⟨hhead, htail, hrest⟩ := hlast
    rw [List.map_cons, List.sum_cons, List.map_cons, List.sum_cons]
    by_cases hle : a.deadlineRel ≤ d
    · rw [if_pos hle] at hrest ⊢
      obtain ⟨h1, h2⟩ := ih hrest (sub_nonneg.mpr (hhead hle)) (sub_nonneg.mpr htail)
      exact ⟨by omega, by omega⟩
    · rw [if_neg hle] at hrest ⊢
      obtain ⟨h1, h2⟩ := ih hrest huh (sub_nonneg.mpr htail)
      exact ⟨by omega, by omega⟩

/-- What the test looks at. -/
def SchedAttr.times (attr : SchedAttr) : SchedAttr := { attr with policy := .edf, priority := 0 }

theorem edfSlotsLast_times :
    edfSlotsLast h d f1 (A.map SchedAttr.times) uh ut ↔ edfSlotsLast h d f1 A uh ut := by
  induction A generalizing uh ut with
  | nil => exact Iff.rfl
  | cons a A ih =>
    rw [List.map_cons, edfSlotsLast, edfSlotsLast, ih]
    rfl

end Slots

/-! ## 3. The test -/

/-- The tasks the test goes through: those of the queues, and the new one. -/
def edfSlotTasks (q : Queues) (cpu t : Nat) : List Nat := (q.tq cpu).wake ++ (q.tq cpu).run ++ [t]

/-- The times of these tasks. -/
def edfTaskTimes (q : Queues) (cpu t : Nat) : List SchedAttr :=
  (edfSlotTasks q cpu t).map (fun u => (q.task u).attr.times)

section Test

variable {q q' : Queues} {cpu cpu' t t' : Nat}

theorem mem_edfSlotTasks {u : Nat} :
    u ∈ edfSlotTasks q cpu t ↔ u = t ∨ u ∈ (q.tq cpu).wake ∨ u ∈ (q.tq cpu).run := by
  simp only [edfSlotTasks, List.mem_append, List.mem_singleton]
  tauto

/-- **The reference** is one of the tasks, and none has a longer period. -/
theorem edfLongestPeriodTask_spec (q : Queues) (cpu t : Nat) :
    edfLongestPeriodTask q cpu t ∈ edfSlotTasks q cpu t ∧ ∀ u ∈ edfSlotTasks q cpu t,
      (q.task u).attr.period ≤ (q.task (edfLongestPeriodTask q cpu t)).attr.period := by
  have hmem := firstMax_mem (fun u => (q.task u).attr.period) t ((q.tq cpu).wake ++ (q.tq cpu).run)
  have hle := le_firstMax (fun u => (q.task u).attr.period) t ((q.tq cpu).wake ++ (q.tq cpu).run)
  have hiff : ∀ u, u ∈ edfSlotTasks q cpu t ↔ u ∈ t :: ((q.tq cpu).wake ++ (q.tq cpu).run) := by
    intro u
    rw [mem_edfSlotTasks, List.mem_cons, List.mem_append]
  exact ⟨(hiff _).mpr hmem, fun u hu => hle u ((hiff u).mp hu)⟩

/-- What is left of the test: the loops, with the slots that the reference leaves. -/
theorem edfTestSlotUtilisation_ok (hpos : ∀ u ∈ edfSlotTasks q cpu t, 0 < (q.task u).attr.period)
    {t₀ : Nat} (ht₀ : edfLongestPeriodTask q cpu t = t₀) :
    ∃ N h, 0 < h ∧
      (∀ x, h * (q.task t₀).attr.period ∣ x ↔ ∀ u ∈ edfSlotTasks q cpu t, (q.task u).attr.period ∣ x) ∧
      ∀ fuel, N ≤ fuel → edfTestSlotUtilisation id fuel q cpu t =
        edfSlotLoop id q.task t₀ h ((q.task t₀).attr.period - (q.task t₀).attr.deadlineRel)
          (edfSlotTasks q cpu t) (h * ((q.task t₀).attr.deadlineRel - (q.task t₀).attr.wcet))
          (h * ((q.task t₀).attr.period - (q.task t₀).attr.deadlineRel)) := by
  obtain ⟨hmem, -⟩ := edfLongestPeriodTask_spec q cpu t
  rw [ht₀] at hmem
  have hP := hpos _ hmem
  have hqueued : ∀ u ∈ (q.tq cpu).run ++ (q.tq cpu).wake, 0 < (q.task u).attr.period := by
    intro u hu
    refine hpos u (mem_edfSlotTasks.mpr ?_)
    rcases List.mem_append.mp hu with hu | hu
    · exact .inr (.inr hu)
    · exact .inr (.inl hu)
  obtain ⟨N, p, hp, hrun, hiff⟩ := edfHyperLoop_ok
    (hpos t (mem_edfSlotTasks.mpr (.inl rfl))) hqueued
  have hall : ∀ x, p ∣ x ↔ ∀ u ∈ edfSlotTasks q cpu t, (q.task u).attr.period ∣ x := by
    intro x
    rw [hiff]
    constructor
    · rintro ⟨ht, hL⟩ u hu
      rcases mem_edfSlotTasks.mp hu with rfl | hu | hu
      · exact ht
      · exact hL u (List.mem_append_right _ hu)
      · exact hL u (List.mem_append_left _ hu)
    · refine fun hL => ⟨hL t (mem_edfSlotTasks.mpr (.inl rfl)), fun u hu => hL u (mem_edfSlotTasks.mpr ?_)⟩
      rcases List.mem_append.mp hu with hu | hu
      · exact .inr (.inr hu)
      · exact .inr (.inl hu)
  -- the period factor
  obtain ⟨h, hh⟩ : (q.task t₀).attr.period ∣ p := (hall p).mp dvd_rfl _ hmem
  have hpos' : 0 < h := by
    rw [hh] at hp
    exact pos_of_mul_pos_right hp hP.le
  have hfactor : p.tdiv (q.task t₀).attr.period = h := by
    rw [hh]
    exact Int.mul_tdiv_cancel_left h hP.ne'
  refine ⟨N, h, hpos', fun x => ?_, fun fuel hfuel => ?_⟩
  · rw [← hall, hh, mul_comm]
  · rw [edfTestSlotUtilisation, ht₀, edfHyperperiod, hrun fuel hfuel]
    dsimp only [id]
    rw [ktimeDiv, if_neg hP.ne', hfactor]
    dsimp only [id]
    rw [ktimeDiv, if_neg hpos'.ne', Int.mul_tdiv_cancel_left _ hpos'.ne']
    rfl

/-- A test that has succeeded does so with more fuel. -/
theorem edfTestSlotUtilisation_mono {wrap : Int → Int} {n m : Nat} {r : Int} (hnm : n ≤ m)
    (h : edfTestSlotUtilisation wrap n q cpu t = .ok r) :
    edfTestSlotUtilisation wrap m q cpu t = .ok r := by
  unfold edfTestSlotUtilisation at h ⊢
  cases hp : edfHyperperiod wrap n q cpu t with
  | error e =>
    rw [hp] at h
    cases h
  | ok p =>
    rw [hp] at h
    rw [show edfHyperperiod wrap m q cpu t = .ok p from edfHyperLoop_mono hnm hp]
    exact h

/-- Of the times of a task without the reference. -/
theorem edfTaskTimes_perm (hnodup : (edfSlotTasks q cpu t).Nodup) {t₀ : Nat}
    (ht₀ : t₀ ∈ edfSlotTasks q cpu t) :
    (edfTaskTimes q cpu t).Perm ((q.task t₀).attr.times ::
      (((edfSlotTasks q cpu t).filter (· ≠ t₀)).map (fun u => (q.task u).attr)).map SchedAttr.times) := by
  have hfilter : (edfSlotTasks q cpu t).filter (· ≠ t₀) = (edfSlotTasks q cpu t).erase t₀ := by
    rw [hnodup.erase_eq_filter]
    exact List.filter_congr (fun u _ => by by_cases h : u = t₀ <;> simp [h])
  rw [hfilter, List.map_map]
  exact (List.perm_cons_erase ht₀).map _

/-- **The order of the tasks** makes no difference for the verdict of the slot test, where the two
references have the same deadline and the same run time. -/
theorem edf_slot_order_free (hnodup : (edfSlotTasks q cpu t).Nodup)
    (hnodup' : (edfSlotTasks q' cpu' t').Nodup)
    (htimes : ∀ u ∈ edfSlotTasks q cpu t, EdfTimes (q.task u).attr)
    (hsame : (edfTaskTimes q cpu t).Perm (edfTaskTimes q' cpu' t'))
    (hdeadline : (q.task (edfLongestPeriodTask q cpu t)).attr.deadlineRel =
      (q'.task (edfLongestPeriodTask q' cpu' t')).attr.deadlineRel)
    (hwcet : (q.task (edfLongestPeriodTask q cpu t)).attr.wcet =
      (q'.task (edfLongestPeriodTask q' cpu' t')).attr.wcet) :
    ∃ N, ∀ fuel, N ≤ fuel → ∃ r r', edfTestSlotUtilisation id fuel q cpu t = .ok r ∧
      edfTestSlotUtilisation id fuel q' cpu' t' = .ok r' ∧ (r = 0 ↔ r' = 0) := by
  obtain ⟨t₀, ht₀⟩ : ∃ t₀, edfLongestPeriodTask q cpu t = t₀ := ⟨_, rfl⟩
  obtain ⟨t₁, ht₁⟩ : ∃ t₁, edfLongestPeriodTask q' cpu' t' = t₁ := ⟨_, rfl⟩
  obtain ⟨hmem, hlong⟩ := edfLongestPeriodTask_spec q cpu t
  obtain ⟨hmem', hlong'⟩ := edfLongestPeriodTask_spec q' cpu' t'
  rw [ht₀] at hmem hlong
  rw [ht₁] at hmem' hlong'
  rw [ht₀, ht₁] at hdeadline hwcet
  -- a task of one arrangement has its times in the other
  have hto : ∀ u ∈ edfSlotTasks q cpu t, ∃ v ∈ edfSlotTasks q' cpu' t',
      (q'.task v).attr.times = (q.task u).attr.times := fun u hu =>
    List.mem_map.mp (hsame.mem_iff.mp (List.mem_map_of_mem hu))
  have hfrom : ∀ v ∈ edfSlotTasks q' cpu' t', ∃ u ∈ edfSlotTasks q cpu t,
      (q.task u).attr.times = (q'.task v).attr.times := fun v hv =>
    List.mem_map.mp (hsame.mem_iff.mpr (List.mem_map_of_mem hv))
  have hperiods : ∀ {a b : SchedAttr}, a.times = b.times → a.period = b.period :=
    fun hab => by
      have h := congrArg SchedAttr.period hab
      exact h
  have hpos : ∀ u ∈ edfSlotTasks q cpu t, 0 < (q.task u).attr.period := fun u hu => (htimes u hu).period
  have hpos' : ∀ v ∈ edfSlotTasks q' cpu' t', 0 < (q'.task v).attr.period := by
    intro v hv
    obtain ⟨u, hu, huv⟩ := hfrom v hv
    rw [← hperiods huv]
    exact hpos u hu
  -- the references have the same times
  have hlongest : (q.task t₀).attr.period = (q'.task t₁).attr.period := by
    obtain ⟨v, hv, hvt⟩ := hto t₀ hmem
    obtain ⟨u, hu, hut⟩ := hfrom t₁ hmem'
    refine le_antisymm ?_ ?_
    · rw [← hperiods hvt]
      exact hlong' v hv
    · rw [← hperiods hut]
      exact hlong u hu
  have href : (q.task t₀).attr.times = (q'.task t₁).attr.times := by
    simp only [SchedAttr.times, hlongest, hdeadline, hwcet]
  -- and so have the others, in some order
  have hothers := (List.perm_cons (q.task t₀).attr.times).mp
    ((edfTaskTimes_perm hnodup hmem).symm.trans (hsame.trans
      (href ▸ edfTaskTimes_perm hnodup' hmem')))
  obtain ⟨N, h, hh, hdvd, hrun⟩ := edfTestSlotUtilisation_ok hpos ht₀
  obtain ⟨N', h', hh', hdvd', hrun'⟩ := edfTestSlotUtilisation_ok hpos' ht₁
  have hP := hpos t₀ hmem
  have hfactor : h = h' := by
    have hiff : ∀ x, h * (q.task t₀).attr.period ∣ x ↔ h' * (q'.task t₁).attr.period ∣ x := by
      intro x
      rw [hdvd, hdvd']
      constructor
      · intro hall v hv
        obtain ⟨u, hu, huv⟩ := hfrom v hv
        rw [← hperiods huv]
        exact hall u hu
      · intro hall u hu
        obtain ⟨v, hv, hvu⟩ := hto u hu
        rw [← hperiods hvu]
        exact hall v hv
    have heq : h * (q.task t₀).attr.period = h' * (q'.task t₁).attr.period :=
      Int.dvd_antisymm (mul_pos hh hP).le (mul_pos hh' (hlongest ▸ hP)).le ((hiff _).mpr dvd_rfl)
        ((hiff _).mp dvd_rfl)
    rw [← hlongest] at heq
    exact mul_right_cancel₀ hP.ne' heq
  have hf1 : 0 ≤ (q.task t₀).attr.period - (q.task t₀).attr.deadlineRel :=
    sub_nonneg.mpr (htimes t₀ hmem).deadline_le
  refine ⟨max N N', fun fuel hfuel => ?_⟩
  obtain ⟨r, hr, hriff⟩ := edfSlotLoop_ok t₀ h
    ((q.task t₀).attr.period - (q.task t₀).attr.deadlineRel)
    (h * ((q.task t₀).attr.deadlineRel - (q.task t₀).attr.wcet))
    (h * ((q.task t₀).attr.period - (q.task t₀).attr.deadlineRel))
    (fun u hu => (hpos u hu).ne')
  obtain ⟨r', hr', hriff'⟩ := edfSlotLoop_ok t₁ h'
    ((q'.task t₁).attr.period - (q'.task t₁).attr.deadlineRel)
    (h' * ((q'.task t₁).attr.deadlineRel - (q'.task t₁).attr.wcet))
    (h' * ((q'.task t₁).attr.period - (q'.task t₁).attr.deadlineRel))
    (fun u hu => (hpos' u hu).ne')
  refine ⟨r, r', (hrun fuel (le_trans (le_max_left _ _) hfuel)).trans hr,
    (hrun' fuel (le_trans (le_max_right _ _) hfuel)).trans hr', ?_⟩
  rw [hriff, hriff', ← hfactor, ← hlongest, ← hdeadline, ← hwcet, ← edfSlotsLast_times,
    ← edfSlotsLast_times
      (A := ((edfSlotTasks q' cpu' t').filter (· ≠ t₁)).map (fun u => (q'.task u).attr))]
  refine edfSlotsLast_perm hothers (fun a ha => ?_)
  obtain ⟨b, hb, rfl⟩ := List.mem_map.mp ha
  obtain ⟨u, hu, rfl⟩ := List.mem_map.mp hb
  have htu := htimes u (List.mem_of_mem_filter hu)
  exact ⟨Int.tdiv_nonneg (mul_nonneg (mul_nonneg hh.le htu.wcet) (htimes t₀ hmem).deadline)
    htu.period.le, Int.tdiv_nonneg (mul_nonneg (mul_nonneg hh.le htu.wcet) hf1) htu.period.le⟩

end Test

/-- Tasks of 20 in 40, 45 in 50 and 10 in 90, with the periods that are given. -/
def edfOrdered (period₀ period₁ period₂ : Int) (wake run : List Nat) : Queues where
  task u := if u = 0 then edfTaskWith 20 40 period₀
    else if u = 1 then edfTaskWith 45 50 period₁
    else edfTaskWith 10 90 period₂
  tq _ := ⟨wake, run, [], []⟩
  freed := []

theorem edf_slot_order_free_three : ∃ N, ∀ fuel, N ≤ fuel → ∃ r r',
    edfTestSlotUtilisation id fuel (edfOrdered 100 200 300 [0] [1]) 0 2 = .ok r ∧
      edfTestSlotUtilisation id fuel (edfOrdered 100 200 300 [] [2, 1]) 0 0 = .ok r' ∧
      (r = 0 ↔ r' = 0) := by
  refine edf_slot_order_free (by decide) (by decide) (fun u hu => ?_) (by decide) (by decide)
    (by decide)
  have hcases : u = 0 ∨ u = 1 ∨ u = 2 := by
    simpa [edfSlotTasks, edfOrdered] using hu
  rcases hcases with rfl | rfl | rfl
  · exact ⟨by decide, by decide, by decide, by decide⟩
  · exact ⟨by decide, by decide, by decide, by decide⟩
  · exact ⟨by decide, by decide, by decide, by decide⟩

/-- **Two tasks of one period.**  The one that is new is the reference: it makes a difference which
one that is, though both of them pass the check. -/
theorem edf_slot_order_matters :
    (edfSlotTasks (edfOrdered 100 100 100 [] [1]) 0 0).Perm
        (edfSlotTasks (edfOrdered 100 100 100 [] [0]) 0 1) ∧
      (∀ u < 2, (edfCheckSchedAttr 1 ((edfOrdered 100 100 100 [] []).task u).attr).1 = 0) ∧
      ∀ fuel, edfTestSlotUtilisation id fuel (edfOrdered 100 100 100 [] [1]) 0 0 = .ok 0 ∧
        edfTestSlotUtilisation id fuel (edfOrdered 100 100 100 [] [0]) 0 1 = .ok (-1) :=
  ⟨by decide, by decide, fun _ => ⟨by rfl, by rfl⟩⟩

end FlightOs
