/-
# What `edf_enqueue` leaves of a task

A task may be bound to a CPU, and a call that refuses it should leave it alone.  `edf_enqueue` keeps
neither.

* `edf_affinity_iff`: when a task that is bound to a CPU is refused or gets there.  The search for
  another CPU is there for the tasks that are bound to none, but `edf_schedulable` starts it for all
  of them, when the slot test of their CPU fails.
* `edf_refusal_iff`: when a refused task is as it was.  The period of a task that runs only once is
  set before anything is tested, so that a second call takes it for a periodic one, or does not get
  past the check of `sched_enqueue` at all.
-/
import FlightOs.Sched.Attr

namespace FlightOs

/-! ## 1. The CPU of a task -/

section Affinity

variable {fuel ncpus : Nat} {q q' : Queues} {t cpu : Nat} {r : Int}

/-- The call returns, and the task is refused, or on the wake queue of its CPU, which is still its
CPU. -/
def EdfAffine (ncpus : Nat) (q : Queues) (t cpu : Nat) : Prop :=
  ∃ fuel r q', edfEnqueue ktimeWrap fuel ncpus q t = .ok (r, q') ∧
    (r ≠ 0 ∨ (q'.task t).onCpu = some cpu ∧ (q'.tq cpu).wake = (q.tq cpu).wake ++ [t] ∧
      ∀ i, i ≠ cpu → q'.tq i = q.tq i)

/-- The slot test accepts the task on its CPU, or rejects it there while the utilisation is too high
or all other CPUs reject the task, too. -/
def EdfStays (fuel ncpus : Nat) (q : Queues) (t cpu : Nat) : Prop :=
  edfTestSlotUtilisation ktimeWrap fuel q cpu t = .ok 0 ∨
    edfRejects ktimeWrap fuel q t cpu = true ∧
      (toDouble UTIL_MAX < edfUtilisation q cpu (some t) ∨
        ∀ i < ncpus, i ≠ cpu → edfRejects ktimeWrap fuel q t i = true)

theorem edfOther_none : edfOther ktimeWrap fuel ncpus q t cpu = none ↔
    ∀ i < ncpus, i ≠ cpu → edfRejects ktimeWrap fuel q t i = true := by
  rw [edfOther, List.find?_eq_none]
  constructor
  · intro h i hi hne
    have hno := h i (List.mem_range.mpr hi)
    simpa [hne] using hno
  · intro h i hi hpass
    simp only [Bool.and_eq_true, decide_eq_true_eq, Bool.not_eq_true'] at hpass
    have hrej := h i (List.mem_range.mp hi) hpass.1
    rw [hpass.2] at hrej
    cases hrej

theorem edfOther_ne {i : Nat} (h : edfOther ktimeWrap fuel ncpus q t cpu = some i) : i ≠ cpu := by
  have hpass := List.find?_some h
  simp only [Bool.and_eq_true, decide_eq_true_eq] at hpass
  exact hpass.1

/-- **The CPU that `edf_schedulable` returns** for a task that is bound to one. -/
theorem edfSchedulable_bound (hcpu : (q.task t).onCpu = some cpu) :
    (∃ found, edfSchedulable ktimeWrap fuel ncpus q t = .ok found ∧ ∀ i, found = some i → i = cpu) ↔
      EdfStays fuel ncpus q t cpu := by
  have hfirst : edfFirstCpu ncpus q t = some cpu := by rw [edfFirstCpu, hcpu]
  have hlast : ∀ i, (if toDouble UTIL_MAX < edfUtilisation q cpu (some t) then none else some cpu) =
      some i → i = cpu := by
    intro i hi
    split at hi
    · cases hi
    · exact (Option.some.inj hi).symm
  unfold edfSchedulable EdfStays
  rw [hfirst]
  dsimp only
  rcases hslot : edfTestSlotUtilisation ktimeWrap fuel q cpu t with e | r
  · -- the test of the CPU does not return
    have hrej : ¬ edfRejects ktimeWrap fuel q t cpu = true := by simp [edfRejects, hslot]
    constructor
    · rintro ⟨found, h, -⟩
      cases h
    · rintro (h | h)
      · cases h
      · exact absurd h.1 hrej
  by_cases hr : r = 0
  · exact iff_of_true ⟨_, if_neg (not_not.mpr hr), hlast⟩ (.inl (by rw [hr]))
  have hrej : edfRejects ktimeWrap fuel q t cpu = true := edfRejects_iff.mpr ⟨r, hslot, hr⟩
  have hne : ¬ (Except.ok r : Except SchedError Int) = .ok 0 := fun h => hr (Except.ok.inj h)
  dsimp only
  rw [if_pos (show r ≠ 0 from hr)]
  rcases le_or_gt (edfUtilisation q cpu (some t)) (toDouble UTIL_MAX) with hroom | hfull
  case inr =>
    rw [edfTryOthers_full hfull]
    exact iff_of_true ⟨_, rfl, hlast⟩ (.inr ⟨hrej, .inl hfull⟩)
  rw [edfTryOthers_range hroom]
  rcases hother : edfOther ktimeWrap fuel ncpus q t cpu with _ | i
  · exact iff_of_true ⟨_, rfl, hlast⟩ (.inr ⟨hrej, .inr (edfOther_none.mp hother)⟩)
  -- another CPU is taken, or its test does not return
  refine iff_of_false ?_ ?_
  · rintro ⟨found, h, hall⟩
    rcases hi : edfTestSlotUtilisation ktimeWrap fuel q i t with e | r'
    · simp only [hi, Except.map] at h
      cases h
    · simp only [hi, Except.map] at h
      exact edfOther_ne hother (hall i (Except.ok.inj h).symm)
  · rintro (h | ⟨-, h | h⟩)
    · exact hne h
    · exact absurd h (not_lt.mpr hroom)
    · rw [edfOther_none.mpr h] at hother
      cases hother

/-- **When the CPU of a task is respected.** -/
theorem edf_affinity_iff (ncpus : Nat) (q : Queues) (t cpu : Nat)
    (hcpu : (q.task t).onCpu = some cpu) :
    EdfAffine ncpus q t cpu ↔
      ∃ fuel, EdfStays fuel ncpus (q.setTask t (edfSetPeriod (q.task t))) t cpu := by
  have honCpu : ((q.setTask t (edfSetPeriod (q.task t))).task t).onCpu = some cpu := by
    rw [Queues.setTask_task_self, edfSetPeriod]
    split
    · exact hcpu
    · exact hcpu
  refine exists_congr (fun fuel => ?_)
  rw [← edfSchedulable_bound honCpu]
  constructor
  · rintro ⟨r, q', h, hcase⟩
    rcases hfound : edfSchedulable ktimeWrap fuel ncpus (q.setTask t (edfSetPeriod (q.task t))) t
      with e | found
    · rw [edfEnqueue, hfound] at h
      cases h
    refine ⟨found, rfl, fun i hi => ?_⟩
    rw [edfEnqueue, hfound, hi] at h
    obtain ⟨rfl, rfl⟩ := Prod.mk.inj (Except.ok.inj h)
    rcases hcase with hr | ⟨hon, -, -⟩
    · exact absurd rfl hr
    · simpa using hon
  · rintro ⟨found, hfound, hall⟩
    cases found with
    | none => exact ⟨-ENOSCHED, _, by rw [edfEnqueue, hfound], .inl (by decide)⟩
    | some i =>
      obtain rfl := hall i rfl
      refine ⟨0, _, by rw [edfEnqueue, hfound], .inr ⟨by simp, by simp, fun j hj => ?_⟩⟩
      exact Queues.setTq_tq_other _ _ hj

end Affinity

/-- A short deadline on the first CPU, which the new task `1` is bound to, and an idle second one. -/
def edfBound (deadline : Int) : Queues where
  task u := if u = 0 then edfTaskWith 80 90 1000 else edfTaskWith 90 deadline 1000
  tq cpu := ⟨if cpu = 0 then [0] else [], [], [], []⟩
  freed := []

theorem edf_affinity_iff_accepted : EdfAffine 2 (edfBound 200) 1 0 ↔
    ∃ fuel, EdfStays fuel 2 ((edfBound 200).setTask 1 (edfSetPeriod ((edfBound 200).task 1))) 1 0 :=
  edf_affinity_iff 2 (edfBound 200) 1 0 rfl

/-- **A task is moved** from the CPU that it is bound to. -/
theorem edf_affinity_ignored :
    ((edfBound 95).task 1).onCpu = some 0 ∧ ¬ EdfAffine 2 (edfBound 95) 1 0 ∧
    ∃ q', edfEnqueue ktimeWrap 1 2 (edfBound 95) 1 = .ok (0, q') ∧ (q'.task 1).onCpu = some 1 := by
  have hsched : ∀ fuel, edfSchedulable ktimeWrap fuel 2
      ((edfBound 95).setTask 1 (edfSetPeriod ((edfBound 95).task 1))) 1 = .ok (some 1) := by
    intro fuel
    have hown : edfTestSlotUtilisation ktimeWrap fuel
        ((edfBound 95).setTask 1 (edfSetPeriod ((edfBound 95).task 1))) 0 1 = .ok (-1) := rfl
    have hother : edfTestSlotUtilisation ktimeWrap fuel
        ((edfBound 95).setTask 1 (edfSetPeriod ((edfBound 95).task 1))) 1 1 = .ok 0 := rfl
    have hroom : ¬ toDouble UTIL_MAX < edfUtilisation
        ((edfBound 95).setTask 1 (edfSetPeriod ((edfBound 95).task 1))) 0 (some 1) := by
      decide +kernel
    have hfirst : edfFirstCpu 2 ((edfBound 95).setTask 1 (edfSetPeriod ((edfBound 95).task 1))) 1 =
        some 0 := rfl
    have hrange : List.range 2 = [0, 1] := rfl
    rw [edfSchedulable, hfirst]
    simp [hown, hrange, edfTryOthers, hroom, hother]
  refine ⟨rfl, ?_, _, by rw [edfEnqueue, hsched], by simp⟩
  rintro ⟨fuel, r, q', h, hcase⟩
  rw [edfEnqueue, hsched] at h
  obtain ⟨rfl, rfl⟩ := Prod.mk.inj (Except.ok.inj h)
  rcases hcase with hr | ⟨hon, -⟩
  · exact hr rfl
  · simp at hon

/-! ## 2. A task that is refused -/

section Refusal

variable {tick : Int} {fuel ncpus : Nat} {q q' : Queues} {k k' k₂ : Kernel} {t : Nat} {r : Int}

/-- Everything is as it was, so that whenever the call is made again it takes the task for what the
first call took it for, periodic or not. -/
structure EdfUntouched (q q' : Queues) (t : Nat) : Prop where
  same : q' = q
  again : ∀ q₂ : Queues, q₂.task t = q'.task t → edfSetPeriod (q₂.task t) = edfSetPeriod (q.task t)

/-- A task that `edf_enqueue` does not write to: it has a period and no mark, or it is marked and its
deadline is no period either. -/
def EdfMarked (tsk : TaskStruct) : Prop :=
  tsk.attr.period ≠ 0 ∧ tsk.runOnce = false ∨
    tsk.attr.period = 0 ∧ tsk.attr.deadlineRel = 0 ∧ tsk.runOnce = true

theorem edfSetPeriod_same {tsk : TaskStruct} : edfSetPeriod tsk = tsk ↔ EdfMarked tsk := by
  unfold edfSetPeriod EdfMarked
  by_cases hp : tsk.attr.period = 0
  · rw [if_pos hp]
    constructor
    · intro h
      have hperiod := congrArg (fun x : TaskStruct => x.attr.period) h
      have hmark := congrArg TaskStruct.runOnce h
      exact .inr ⟨hp, hperiod.trans hp, hmark.symm⟩
    · rintro (h | ⟨-, hd, hmark⟩)
      · exact absurd hp h.1
      · rw [hd, ← hmark, ← hp]
  · rw [if_neg hp]
    constructor
    · intro h
      exact .inl ⟨hp, (congrArg TaskStruct.runOnce h).symm⟩
    · rintro (⟨-, hmark⟩ | h)
      · rw [← hmark]
      · exact absurd h.1 hp

theorem edfEnqueue_refused (wrap : Int → Int) (fuel ncpus : Nat)
    (h : edfSchedulable wrap fuel ncpus (q.setTask t (edfSetPeriod (q.task t))) t = .ok none) :
    edfEnqueue wrap fuel ncpus q t = .ok (-ENOSCHED, q.setTask t (edfSetPeriod (q.task t))) := by
  rw [edfEnqueue, h]

/-- **When a refused task is as it was.** -/
theorem edf_refusal_iff (h : edfEnqueue ktimeWrap fuel ncpus q t = .ok (r, q')) (hr : r ≠ 0) :
    EdfUntouched q q' t ↔ EdfMarked (q.task t) := by
  have hq' : q' = q.setTask t (edfSetPeriod (q.task t)) := by
    rcases edfEnqueue_ok h with ⟨-, heq⟩ | ⟨h0, -⟩
    · exact heq
    · exact absurd h0 hr
  rw [← edfSetPeriod_same]
  constructor
  · intro hsame
    have htask := congrArg (fun x : Queues => x.task t) (hq'.symm.trans hsame.same)
    simpa using htask
  · intro hsame
    have hq : q' = q := by
      rw [hq', hsame]
      simp [Queues.setTask]
    exact ⟨hq, fun q₂ h₂ => by rw [h₂, hq]⟩

/-- **A task that runs only once** is refused by `sched_enqueue` for good: the period that it is given
does not pass the check. -/
theorem schedEnqueue_again (htick : 0 < tick) (hsched : (k.task t).sched = some .edf)
    (hcheck : (edfCheckSchedAttr tick (k.task t).attr).1 = 0) (honce : (k.task t).attr.period = 0)
    (h : schedEnqueue tick fuel ncpus k t = .ok (r, k')) (hr : r ≠ 0)
    (hsame : k₂.task t = k'.task t) :
    ∃ e, e ≠ 0 ∧ schedEnqueue tick fuel ncpus k₂ t = .ok (e, k₂) := by
  rw [schedEnqueue_edf hsched, if_neg (not_not.mpr hcheck)] at h
  have hk' : k'.task t = edfSetPeriod (k.task t) := by
    rcases henq : edfEnqueue ktimeWrap fuel ncpus (k.queues .edf) t with e | ⟨ret, q⟩
    · rw [henq] at h
      cases h
    rw [henq] at h
    obtain ⟨rfl, rfl⟩ := Prod.mk.inj (Except.ok.inj h)
    rcases edfEnqueue_ok henq with ⟨-, rfl⟩ | ⟨h0, -⟩
    · exact Queues.setTask_task_self _ _ _
    · exact absurd h0 hr
  have hsched₂ : (k₂.task t).sched = some .edf := by
    rw [hsame, hk', edfSetPeriod_sched, hsched]
  have hfails : (edfCheckSchedAttr tick (k₂.task t).attr).1 ≠ 0 := by
    rw [hsame, hk']
    exact edfSetPeriod_fails htick honce
  exact ⟨_, hfails, by rw [schedEnqueue_edf hsched₂, if_pos hfails]⟩

end Refusal

/-- A busy CPU, or an idle one, and a task `1` that is to be added. -/
def edfBusy (busy : Bool) (tsk : TaskStruct) : Queues where
  task u := if u = 0 then edfTaskWith 900 950 1000 else tsk
  tq _ := ⟨if busy then [0] else [], [], [], []⟩
  freed := []

theorem edf_refusal_iff_periodic : ∃ q', edfEnqueue ktimeWrap 100 1
    (edfBusy true (edfTaskWith 500 900 1000)) 1 = .ok (-ENOSCHED, q') ∧
      (EdfUntouched (edfBusy true (edfTaskWith 500 900 1000)) q' 1 ↔
        EdfMarked ((edfBusy true (edfTaskWith 500 900 1000)).task 1)) := by
  have henqueue := edfEnqueue_refused (q := edfBusy true (edfTaskWith 500 900 1000)) (t := 1)
    ktimeWrap 100 1 (by decide +kernel)
  exact ⟨_, henqueue, edf_refusal_iff henqueue (by decide)⟩

/-- **A task that is to run once** becomes a periodic one: it is refused, and when the call is made
again on an idle CPU, it is accepted without its mark. -/
theorem edf_refusal_periodic :
    (edfCheckSchedAttr 1 (edfTaskWith 500 900 0).attr).1 = 0 ∧ ∃ q' q'',
      edfEnqueue ktimeWrap 100 1 (edfBusy true (edfTaskWith 500 900 0)) 1 = .ok (-ENOSCHED, q') ∧
      ¬ EdfUntouched (edfBusy true (edfTaskWith 500 900 0)) q' 1 ∧
      edfEnqueue ktimeWrap 100 1 (edfBusy false (q'.task 1)) 1 = .ok (0, q'') ∧
      (q''.task 1).runOnce = false := by
  have henqueue := edfEnqueue_refused (q := edfBusy true (edfTaskWith 500 900 0)) (t := 1)
    ktimeWrap 100 1 (by decide +kernel)
  obtain ⟨tsk, htsk⟩ : ∃ tsk, tsk = edfSetPeriod (edfTaskWith 500 900 0) := ⟨_, rfl⟩
  have hagain : edfSchedulable ktimeWrap 100 1
      ((edfBusy false tsk).setTask 1 (edfSetPeriod ((edfBusy false tsk).task 1))) 1 =
        .ok (some 0) := by
    rw [htsk]
    decide +kernel
  have htask : ((edfBusy true (edfTaskWith 500 900 0)).setTask 1
      (edfSetPeriod ((edfBusy true (edfTaskWith 500 900 0)).task 1))).task 1 = tsk := by
    rw [Queues.setTask_task_self, htsk]
    rfl
  refine ⟨by decide, _, _, henqueue, fun hsame => ?_, by rw [htask, edfEnqueue, hagain], ?_⟩
  · have heq := congrArg (fun q : Queues => (q.task 1).attr.period) hsame.same
    rw [htask, htsk] at heq
    exact absurd heq (by decide)
  · rw [htsk]
    rfl

end FlightOs
