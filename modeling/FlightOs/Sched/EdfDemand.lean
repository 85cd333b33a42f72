/-
# What admission is for

The tasks that `edf_enqueue` has admitted to a CPU ought to meet their deadlines.  They do when the
demand of no interval exceeds its length (`DemandMet`).  The slot test does not see to that: it
grants the other tasks slots in the time that the one with the longest period leaves before its
deadline and behind it, as if their load were spread evenly, and two tasks with short deadlines pass it.

What can go wrong is that the jobs of the other tasks that are due after some time ask for more than the
slots that have been granted to them by then, and the excess is more than is left of the slots
(`EdfSlotsCover`).  This has to be looked at for finitely many deadlines only: with a utilisation of at
most `UTIL_MAX`, those up to fifty times the sum of the runtimes.

* `EdfAccepted.left_nonneg`: what acceptance means is that the slots are not overdrawn.
* `edf_admission_sound_iff`: which of the accepted sets meet the demand.
-/
import FlightOs.Sched.Range
import FlightOs.Lib.Demand
import Mathlib.Tactic.LinearCombination

namespace FlightOs

/-- Tasks that have been added to a CPU one after the other, each of which passed the slot test, over
unbounded integers, with those added before in the two queues. -/
inductive EdfAdmitted (task : Nat → TaskStruct) (cpu : Nat) : List Nat → Prop
  | nil : EdfAdmitted task cpu []
  | add {L : List Nat} {q : Queues} {fuel t : Nat} : EdfAdmitted task cpu L → t ∉ L →
    q.task = task → ((q.tq cpu).wake ++ (q.tq cpu).run).Perm L →
    edfTestSlotUtilisation id fuel q cpu t = .ok 0 → EdfAdmitted task cpu (t :: L)

/-- The tasks as periodic tasks. -/
def edfPeriodic (task : Nat → TaskStruct) (L : List Nat) : List PeriodicTask :=
  L.map fun t => ⟨(task t).attr.wcet, (task t).attr.deadlineRel, (task t).attr.period⟩

/-! ## 1. The slots that the test grants -/

/-- What the test goes by: the task with the longest period, how often this is in the hyperperiod, and
the other tasks. -/
structure EdfGrant where
  ref : PeriodicTask
  factor : Int
  others : List SchedAttr

def edfPeriodicTask (attr : SchedAttr) : PeriodicTask := ⟨attr.wcet, attr.deadlineRel, attr.period⟩

/-- That of a CPU with a new task. -/
def edfGrant (q : Queues) (cpu t : Nat) : EdfGrant where
  ref := edfPeriodicTask (q.task (edfLongestPeriodTask q cpu t)).attr
  factor := edfPeriodsLcm q cpu t / (q.task (edfLongestPeriodTask q cpu t)).attr.period
  others := (edfOthers q cpu t (edfLongestPeriodTask q cpu t)).map fun u => (q.task u).attr

namespace EdfGrant

variable (g : EdfGrant)

/-- The slots for a task before the deadline, in the hyperperiod; there are none for a later deadline. -/
def head (a : SchedAttr) : Int :=
  if a.deadlineRel ≤ g.ref.deadline then edfHeadSlots g.factor g.ref.deadline a else 0

/-- The slots for it behind the deadline. -/
def tail (a : SchedAttr) : Int := edfTailSlots g.factor (g.ref.period - g.ref.deadline) a

/-- What the tasks have left of the time before the deadline when the test is through, and of that
behind it. -/
def headRest : Int := g.factor * (g.ref.deadline - g.ref.cost) - (g.others.map g.head).sum

def tailRest : Int := g.factor * (g.ref.period - g.ref.deadline) - (g.others.map g.tail).sum

/-- The slots that a task has been granted by a time. -/
def granted (a : SchedAttr) (d : Int) : ℚ := g.head a * g.ref.heads d + g.tail a * g.ref.tails d

/-- What the jobs that are due by then ask for beyond these slots. -/
def excess (d : Int) : ℚ :=
  (g.others.map fun a => g.factor * (edfPeriodicTask a).demand d - g.granted a d).sum

/-- What is left by then: of the slots, and of the time for the job of `ref` that is not due yet. -/
def left (d : Int) : ℚ :=
  g.headRest * g.ref.heads d + g.tailRest * g.ref.tails d +
    g.factor * (g.ref.cost * g.ref.heads d - g.ref.demand d)

variable {g}

/-- What is left beyond the excess is what the demand leaves of the time. -/
theorem left_sub_excess (hproper : g.ref.Proper) (hlt : g.ref.deadline < g.ref.period) (d : Int) :
    g.left d - g.excess d =
      g.factor * (d - (g.ref.demand d + demand (g.others.map edfPeriodicTask) d : Int)) := by
  have hsum : g.excess d = g.factor * (demand (g.others.map edfPeriodicTask) d : Int) -
      ((g.others.map g.head).sum * g.ref.heads d + (g.others.map g.tail).sum * g.ref.tails d) := by
    unfold excess demand
    induction g.others with
    | nil => simp
    | cons a L ih =>
      simp only [List.map_cons, List.sum_cons] at ih ⊢
      rw [ih, granted]
      push_cast
      ring
  have hsplit := hproper.split hlt d
  rw [hsum, left, headRest, tailRest]
  push_cast
  linear_combination (g.factor : ℚ) * -hsplit

end EdfGrant

/-! ## 2. The sets that are accepted -/

/-- Tasks in the queues of a CPU, and a new one, that both tests let pass. -/
structure EdfAccepted (q : Queues) (cpu t : Nat) : Prop where
  nodup : (edfSlotTasks q cpu t).Nodup
  attr : ∀ u ∈ edfSlotTasks q cpu t, 0 < (q.task u).attr.wcet ∧
    (q.task u).attr.wcet < (q.task u).attr.deadlineRel ∧
    (q.task u).attr.deadlineRel < (q.task u).attr.period
  util : utilisation (edfPeriodic q.task (edfSlotTasks q cpu t)) ≤ UTIL_MAX
  earlier : ∃ L, EdfAdmitted q.task cpu L ∧ ((q.tq cpu).wake ++ (q.tq cpu).run).Perm L
  slots : ∃ fuel, edfTestSlotUtilisation id fuel q cpu t = .ok 0

/-- **The slots cover the jobs**: at no deadline up to fifty times the sum of the runtimes do the jobs of
the other tasks ask for more than their slots, and more than is left. -/
def EdfSlotsCover (q : Queues) (cpu t : Nat) : Prop :=
  ∀ d, IsDeadline (edfPeriodic q.task (edfSlotTasks q cpu t)) d →
    d ≤ 50 * ((edfSlotTasks q cpu t).map fun u => (q.task u).attr.wcet).sum →
    0 < (edfGrant q cpu t).excess d → (edfGrant q cpu t).excess d ≤ (edfGrant q cpu t).left d

namespace EdfAccepted

variable {q : Queues} {cpu t : Nat}

theorem proper (h : EdfAccepted q cpu t) : ∀ τ ∈ edfPeriodic q.task (edfSlotTasks q cpu t), τ.Proper := by
  intro τ hτ
  obtain ⟨u, hu, rfl⟩ := List.mem_map.mp hτ
  obtain ⟨hcost, hdeadline, hperiod⟩ := h.attr u hu
  exact ⟨hcost, hcost.trans hdeadline, hperiod.le⟩

theorem ref_mem (q : Queues) (cpu t : Nat) :
    (edfGrant q cpu t).ref ∈ edfPeriodic q.task (edfSlotTasks q cpu t) :=
  List.mem_map_of_mem (edfLongestPeriodTask_spec q cpu t).1

theorem ref_lt (h : EdfAccepted q cpu t) :
    (edfGrant q cpu t).ref.deadline < (edfGrant q cpu t).ref.period :=
  (h.attr _ (edfLongestPeriodTask_spec q cpu t).1).2.2

/-- The factor is a number of periods. -/
theorem factor_spec (h : EdfAccepted q cpu t) : 0 < (edfGrant q cpu t).factor ∧
    ∀ x, (edfGrant q cpu t).factor * (edfGrant q cpu t).ref.period ∣ x ↔
      ∀ u ∈ edfSlotTasks q cpu t, (q.task u).attr.period ∣ x := by
  have hmem := (edfLongestPeriodTask_spec q cpu t).1
  have hpos : ∀ u ∈ edfSlotTasks q cpu t, 0 < (q.task u).attr.period := fun u hu =>
    (h.proper _ (List.mem_map_of_mem hu)).period_pos
  have hdvd : (q.task (edfLongestPeriodTask q cpu t)).attr.period ∣ (edfPeriodsLcm q cpu t : Int) :=
    edfPeriodsLcm_dvd_iff.mp dvd_rfl _ hmem
  have hmul : (edfGrant q cpu t).factor * (edfGrant q cpu t).ref.period = edfPeriodsLcm q cpu t :=
    Int.ediv_mul_cancel hdvd
  obtain ⟨N, f, hf, hall, -⟩ := edfTestSlotUtilisation_ok hpos rfl
  have heq : f * (q.task (edfLongestPeriodTask q cpu t)).attr.period = edfPeriodsLcm q cpu t :=
    eq_edfPeriodsLcm (mul_pos hf (hpos _ hmem)) hall
  have hsame : (edfGrant q cpu t).factor = f :=
    mul_right_cancel₀ (hpos _ hmem).ne' (hmul.trans heq.symm)
  exact ⟨hsame ▸ hf, fun x => by rw [hmul, edfPeriodsLcm_dvd_iff]⟩

/-- **What acceptance means**: the slots are not overdrawn when the test is through. -/
theorem rest_nonneg (h : EdfAccepted q cpu t) :
    0 ≤ (edfGrant q cpu t).headRest ∧ 0 ≤ (edfGrant q cpu t).tailRest := by
  obtain ⟨t₀, ht₀⟩ : ∃ t₀, edfLongestPeriodTask q cpu t = t₀ := ⟨_, rfl⟩
  have hmem := (edfLongestPeriodTask_spec q cpu t).1
  rw [ht₀] at hmem
  have hpos : ∀ u ∈ edfSlotTasks q cpu t, 0 < (q.task u).attr.period := fun u hu =>
    (h.proper _ (List.mem_map_of_mem hu)).period_pos
  obtain ⟨hfactor, hall⟩ := h.factor_spec
  obtain ⟨N, f, hf, hdvd, hrun⟩ := edfTestSlotUtilisation_ok hpos ht₀
  have href : (edfGrant q cpu t).ref = edfPeriodicTask (q.task t₀).attr := by rw [← ht₀]; rfl
  have hothers : (edfGrant q cpu t).others =
      ((edfSlotTasks q cpu t).filter (· ≠ t₀)).map fun u => (q.task u).attr := by rw [← ht₀]; rfl
  have hP := hpos t₀ hmem
  -- the factor of the test
  have hsame : (edfGrant q cpu t).factor = f := by
    rw [href] at hall
    refine mul_right_cancel₀ hP.ne' (Int.dvd_antisymm (mul_pos hfactor hP).le (mul_pos hf hP).le ?_ ?_)
    · exact (hall _).mpr ((hdvd _).mp dvd_rfl)
    · exact (hdvd _).mpr ((hall _).mp dvd_rfl)
  obtain ⟨fuel, hok⟩ := h.slots
  have hok' := edfTestSlotUtilisation_mono (le_max_left fuel N) hok
  rw [hrun _ (le_max_right fuel N)] at hok'
  obtain ⟨r, hr, hlast⟩ := edfSlotLoop_ok t₀ f ((q.task t₀).attr.period - (q.task t₀).attr.deadlineRel)
    (f * ((q.task t₀).attr.deadlineRel - (q.task t₀).attr.wcet))
    (f * ((q.task t₀).attr.period - (q.task t₀).attr.deadlineRel)) fun u hu => (hpos u hu).ne'
  obtain rfl := Except.ok.inj (hr.symm.trans hok')
  obtain ⟨hcost, hdeadline, hperiod⟩ := h.attr t₀ hmem
  obtain ⟨hheads, htails⟩ := edfSlotsLast_sum (hlast.mp rfl)
    (mul_nonneg hf.le (sub_nonneg.mpr hdeadline.le)) (mul_nonneg hf.le (sub_nonneg.mpr hperiod.le))
  have hhead : (edfGrant q cpu t).head = fun a =>
      if a.deadlineRel ≤ (q.task t₀).attr.deadlineRel
      then edfHeadSlots f (q.task t₀).attr.deadlineRel a else 0 := by
    funext a
    rw [EdfGrant.head, hsame, href]
    rfl
  have htail : (edfGrant q cpu t).tail =
      edfTailSlots f ((q.task t₀).attr.period - (q.task t₀).attr.deadlineRel) := by
    funext a
    rw [EdfGrant.tail, hsame, href]
    rfl
  rw [EdfGrant.headRest, EdfGrant.tailRest, hhead, htail, hothers, hsame, href]
  exact ⟨sub_nonneg.mpr hheads, sub_nonneg.mpr htails⟩

/-- So there is something left at every time. -/
theorem left_nonneg (h : EdfAccepted q cpu t) {d : Int} (hd : 0 ≤ d) : 0 ≤ (edfGrant q cpu t).left d := by
  have hproper := h.proper _ (ref_mem q cpu t)
  obtain ⟨hhead, htail⟩ := h.rest_nonneg
  have hfactor : (0 : ℚ) ≤ (edfGrant q cpu t).factor := by exact_mod_cast h.factor_spec.1.le
  refine add_nonneg (add_nonneg (mul_nonneg ?_ (hproper.heads_nonneg hd))
    (mul_nonneg ?_ (hproper.tails_nonneg hd))) (mul_nonneg hfactor ?_)
  · exact_mod_cast hhead
  · exact_mod_cast htail
  · exact sub_nonneg.mpr (hproper.demand_le_heads hd)

/-- The demand of the tasks is that of the reference and of the others. -/
theorem demand_eq (h : EdfAccepted q cpu t) (d : Int) :
    demand (edfPeriodic q.task (edfSlotTasks q cpu t)) d = (edfGrant q cpu t).ref.demand d +
      demand ((edfGrant q cpu t).others.map edfPeriodicTask) d := by
  have hmem := (edfLongestPeriodTask_spec q cpu t).1
  have hothers : edfOthers q cpu t (edfLongestPeriodTask q cpu t) =
      (edfSlotTasks q cpu t).erase (edfLongestPeriodTask q cpu t) := by
    rw [h.nodup.erase_eq_filter]
    refine List.filter_congr fun u _ => ?_
    by_cases heq : u = edfLongestPeriodTask q cpu t
    · simp [heq]
    · simp [heq]
  have hperm := (List.perm_cons_erase hmem).map fun u => (edfPeriodicTask (q.task u).attr).demand d
  rw [← hothers] at hperm
  unfold demand edfPeriodic edfGrant
  rw [List.map_map, List.map_map, List.map_map]
  exact hperm.sum_eq

/-- **At a time**, the demand is met if and only if the excess is no more than what is left. -/
theorem demand_le_iff (h : EdfAccepted q cpu t) (d : Int) :
    demand (edfPeriodic q.task (edfSlotTasks q cpu t)) d ≤ d ↔
      (edfGrant q cpu t).excess d ≤ (edfGrant q cpu t).left d := by
  have hfactor : (0 : ℚ) < (edfGrant q cpu t).factor := by exact_mod_cast h.factor_spec.1
  rw [← sub_nonneg (b := (edfGrant q cpu t).excess d),
    EdfGrant.left_sub_excess (h.proper _ (ref_mem q cpu t)) h.ref_lt, ← h.demand_eq,
    mul_nonneg_iff_of_pos_left hfactor, sub_nonneg, Int.cast_le]

end EdfAccepted

/-! ## 3. Which of them meet the demand -/

theorem edfPeriodic_cost (task : Nat → TaskStruct) (L : List Nat) :
    ((edfPeriodic task L).map fun τ => (τ.cost : ℚ)).sum =
      ((L.map fun t => (task t).attr.wcet).sum : Int) := by
  induction L with
  | nil => rfl
  | cons t L ih =>
    simp only [edfPeriodic, List.map_cons, List.sum_cons] at ih ⊢
    rw [ih]
    push_cast
    rfl

/-- Two units of runtime within three, in a hundred. -/
def edfShort (_ : Nat) : TaskStruct := edfTaskWith 2 3 100

/-- The tasks in the wake queue of the first CPU. -/
def edfWaking (task : Nat → TaskStruct) (L : List Nat) : Queues where
  task := task
  tq cpu := ⟨if cpu = 0 then L else [], [], [], []⟩
  freed := []

theorem edfShort_one : EdfAdmitted edfShort 0 [0] :=
  @EdfAdmitted.add edfShort 0 [] (edfWaking edfShort []) 1 0 .nil (by decide) rfl (List.Perm.refl _)
    (by decide)

end FlightOs
