/-
# Selecting the next task

The schedulers (`struct scheduler`) are linked in the order of their priorities, and the first that
has a task to run wins.  `sched_find_next_task` (`kernel/sched/core.c`) then limits the task's slice
by the time until a task of a scheduler of at least its priority is ready.  `schedule` repeats that
until the slice is more than a tick; it reads the clock each time (the list `nows` has the readings).

* `sched_slice_bounded`: the slice that comes out.
-/
import FlightOs.Sched.Edf
import FlightOs.Sched.RoundRobin

namespace FlightOs

def KSCHED_PRIORITY_RR : Nat := 0
def KSCHED_PRIORITY_EDF : Nat := 1

/-- `struct scheduler`, without its queues.  `pickNextTask` is given the tick, fuel and the current
task besides the arguments it has in the code. -/
structure Scheduler where
  policy : SchedPolicy
  priority : Nat
  pickNextTask : Int → Nat → Queues → Nat → Int → Option Nat →
    Except SchedError (Option Nat × Queues)
  timesliceNs : TaskStruct → Int
  taskReadyNs : Int → Queues → Nat → Int → Int

def schedEdf : Scheduler where
  policy := .edf
  priority := KSCHED_PRIORITY_EDF
  pickNextTask tick _ q cpu now this := edfPickNext tick q cpu now this
  timesliceNs := edfTimesliceNs
  taskReadyNs := edfTaskReadyNs

def schedRr : Scheduler where
  policy := .rr
  priority := KSCHED_PRIORITY_RR
  pickNextTask tick fuel q cpu now _ :=
    match rrPickNext tick fuel q cpu now with
    | none => .error .outOfFuel
    | some r => .ok r
  timesliceNs := rrTimesliceNs
  taskReadyNs _ := rrTaskReadyNs

/-- The tasks, the queues of each scheduler, the tasks freed, and what `current_set` and
`sched_enabled` say for each CPU. -/
structure Kernel where
  task : Nat → TaskStruct
  tq : SchedPolicy → Nat → TaskQueue
  freed : List Nat
  current : Nat → Option Nat
  enabled : Nat → Bool

namespace Kernel

/-- What a scheduler sees. -/
def queues (k : Kernel) (p : SchedPolicy) : Queues := ⟨k.task, k.tq p, k.freed⟩

def withQueues (k : Kernel) (p : SchedPolicy) (q : Queues) : Kernel :=
  { k with task := q.task, tq := Function.update k.tq p q.tq, freed := q.freed }

def setTask (k : Kernel) (t : Nat) (tsk : TaskStruct) : Kernel :=
  { k with task := Function.update k.task t tsk }

end Kernel

/-! ## 1. The code -/

/-- The first loop of `sched_find_next_task`. -/
def schedPick (tick : Int) (fuel : Nat) (cpu : Nat) (now : Int) :
    List Scheduler → Kernel → Except SchedError (Option Nat × Kernel)
  | [], k => .ok (none, k)
  | sched :: rest, k =>
    match sched.pickNextTask tick fuel (k.queues sched.policy) cpu now (k.current cpu) with
    | .error e => .error e
    | .ok (some t, q) => .ok (some t, k.withQueues sched.policy q)
    | .ok (none, q) => schedPick tick fuel cpu now rest (k.withQueues sched.policy q)

/-- The second loop of `sched_find_next_task`. -/
def schedSlice (tick : Int) (k : Kernel) (cpu : Nat) (now : Int) (priority : Nat) :
    List Scheduler → Int → Except SchedError Int
  | [], slice => .ok slice
  | sched :: rest, slice =>
    let ready := sched.taskReadyNs tick (k.queues sched.policy) cpu now
    if ready < 0 then .error .bug
    else if ready = 0 then schedSlice tick k cpu now priority rest slice
    else if slice ≤ ready then schedSlice tick k cpu now priority rest slice
    else if priority ≤ sched.priority then schedSlice tick k cpu now priority rest ready
    else .ok slice

/-- `sched_find_next_task`: the task, its slice, and the state they leave. -/
def schedFindNextTask (tick : Int) (fuel : Nat) (scheds : List Scheduler) (k : Kernel) (cpu : Nat)
    (now : Int) : Except SchedError (Nat × Int × Kernel) :=
  match schedPick tick fuel cpu now scheds k with
  | .error e => .error e
  | .ok (none, _) => .error .bug
  | .ok (some t, k) =>
    match scheds.find? fun sched => decide ((k.task t).sched = some sched.policy) with
    | none => .error .null
    | some sched =>
      match schedSlice tick k cpu now sched.priority scheds (sched.timesliceNs (k.task t)) with
      | .error e => .error e
      | .ok slice => .ok (t, slice, k)

/-- The loop of `schedule`, with the readings of the clock. -/
def scheduleLoop (tick : Int) (fuel : Nat) (scheds : List Scheduler) (cpu : Nat) :
    List Int → Kernel → Except SchedError (Nat × Int × Int × Kernel)
  | [], _ => .error .outOfFuel
  | now :: nows, k =>
    match schedFindNextTask tick fuel scheds k cpu now with
    | .error e => .error e
    | .ok (t, slice, k) =>
      if tick < slice then .ok (t, slice, now, k) else scheduleLoop tick fuel scheds cpu nows k

/-- What `schedule` passes to `tick_set_next_ns` and the task it switches to. -/
structure Scheduled where
  next : Nat
  slice : Int
  tickNextNs : Int

/-- `schedule`; it does nothing on a CPU on which scheduling is disabled or nothing runs yet. -/
def schedule (tick : Int) (fuel : Nat) (scheds : List Scheduler) (k : Kernel) (cpu : Nat)
    (nows : List Int) : Except SchedError (Option Scheduled × Kernel) :=
  if k.enabled cpu = false then .ok (none, k)
  else
    match k.current cpu, nows with
    | none, _ => .ok (none, k)
    | some _, [] => .error .outOfFuel
    | some cur, now :: nows =>
      let k := k.setTask cur (schedUpdateRuntime (k.task cur) now)
      match scheduleLoop tick fuel scheds cpu (now :: nows) k with
      | .error e => .error e
      | .ok (t, slice, now, k) =>
        let k := k.setTask t { k.task t with execStart := now }
        .ok (some ⟨t, slice, slice - tick⟩,
          { k with current := Function.update k.current cpu (some t) })

/-- The schedulers in the order in which `sched_register` links them. -/
def kernelSchedulers : List Scheduler := [schedEdf, schedRr]

theorem schedRr_pick {tick now : Int} {cpu fuel : Nat} {q : Queues} {this : Option Nat} {r : Option Nat × Queues}
    (h : schedRr.pickNextTask tick fuel q cpu now this = .ok r) :
    rrPickNext tick fuel q cpu now = some r := by
  unfold schedRr at h
  dsimp only at h
  split at h
  case h_1 => cases h
  case h_2 r' hr =>
    cases h
    exact hr

/-! ## 2. The slice -/

/-- The tasks of a CPU that are asleep wake up after the slice. -/
def SliceFits (tick : Int) (k : Kernel) (cpu : Nat) (now : Int) (t : Nat) (slice : Int) : Prop :=
  slice ≤ (k.task t).runtime ∧ slice ≤ 0x7fffffff ∧
    ∀ u ∈ (k.tq .edf cpu).run, (k.task u).state ≠ .busy → 2 * tick < (k.task u).wakeup - now →
      slice ≤ (k.task u).wakeup - now

/-- With the earliest deadline first scheduler in front, the slice is the runtime left or the time
until one of its tasks is ready. -/
theorem schedSlice_kernel {tick : Int} (htick : 0 ≤ tick) (k : Kernel) (cpu : Nat) (now : Int)
    {priority : Nat} (hprio : priority ≤ KSCHED_PRIORITY_EDF) (slice : Int) :
    schedSlice tick k cpu now priority kernelSchedulers slice =
      .ok (min slice (edfTaskReadyNs tick (k.queues .edf) cpu now)) := by
  obtain ⟨hpos, -, -⟩ := edfTaskReadyNs_spec htick (k.queues .edf) cpu now
  have hrr : ∀ slice, schedSlice tick k cpu now priority [schedRr] slice = .ok slice := by
    intro slice
    simp [schedSlice, schedRr, rrTaskReadyNs]
  unfold kernelSchedulers
  rw [schedSlice]
  have hready : schedEdf.taskReadyNs tick (k.queues schedEdf.policy) cpu now =
      edfTaskReadyNs tick (k.queues .edf) cpu now := rfl
  simp only [hready]
  rw [if_neg (by omega), if_neg (by omega)]
  split
  case isTrue hle => rw [hrr, min_eq_left hle]
  case isFalse hle =>
    rw [if_pos (show priority ≤ schedEdf.priority from hprio), hrr, min_eq_right (by omega)]

/-- The task is the one that has been picked, and the slice is its runtime or ends when a task of the
earliest deadline first scheduler is ready. -/
theorem schedFindNextTask_ok {tick : Int} (htick : 0 ≤ tick) {fuel : Nat} {k k' : Kernel}
    {cpu t : Nat} {now slice : Int}
    (h : schedFindNextTask tick fuel kernelSchedulers k cpu now = .ok (t, slice, k')) :
    schedPick tick fuel cpu now kernelSchedulers k = .ok (some t, k') ∧
      slice = min (k'.task t).runtime (edfTaskReadyNs tick (k'.queues .edf) cpu now) := by
  unfold schedFindNextTask at h
  split at h
  case h_1 => cases h
  case h_2 => cases h
  case h_3 t' k₁ hpick =>
    split at h
    case h_1 => cases h
    case h_2 sched hsched =>
      have hmem : sched ∈ kernelSchedulers := List.mem_of_find?_eq_some hsched
      have hsched' : sched.priority ≤ KSCHED_PRIORITY_EDF ∧
          sched.timesliceNs (k₁.task t') = (k₁.task t').runtime := by
        simp only [kernelSchedulers, List.mem_cons, List.not_mem_nil, or_false] at hmem
        rcases hmem with rfl | rfl
        · exact ⟨Nat.le_refl _, rfl⟩
        · exact ⟨Nat.zero_le _, rfl⟩
      rw [schedSlice_kernel htick k₁ cpu now hsched'.1, hsched'.2] at h
      cases h
      exact ⟨hpick, rfl⟩

theorem schedFindNextTask_fits {tick : Int} (htick : 0 ≤ tick) {fuel : Nat} {k k' : Kernel}
    {cpu t : Nat} {now slice : Int}
    (h : schedFindNextTask tick fuel kernelSchedulers k cpu now = .ok (t, slice, k')) :
    SliceFits tick k' cpu now t slice := by
  obtain ⟨-, rfl⟩ := schedFindNextTask_ok htick h
  obtain ⟨-, hmax, hsleep⟩ := edfTaskReadyNs_spec htick (k'.queues .edf) cpu now
  refine ⟨min_le_left _ _, (min_le_right _ _).trans hmax, fun u hu hbusy hfar => ?_⟩
  exact (min_le_right _ _).trans (hsleep u hu hbusy hfar)

/-- The loop of `schedule` ends with a slice of more than a tick. -/
theorem scheduleLoop_fits {tick : Int} (htick : 0 ≤ tick) {fuel cpu : Nat} :
    ∀ {nows : List Int} {k k' : Kernel} {t : Nat} {slice now : Int},
      scheduleLoop tick fuel kernelSchedulers cpu nows k = .ok (t, slice, now, k') →
        SliceFits tick k' cpu now t slice ∧ tick < slice
  | [], _, _, _, _, _, h => by cases h
  | now :: nows, k, k', t, slice, last, h => by
    unfold scheduleLoop at h
    split at h
    case h_1 => cases h
    case h_2 t' slice' k₁ hfind =>
      split at h
      case isTrue hlt =>
        cases h
        exact ⟨schedFindNextTask_fits htick hfind, hlt⟩
      case isFalse => exact scheduleLoop_fits htick h

/-- **The time slice.**  The slice of the task that `sched_find_next_task` selects is at most its
remaining runtime and at most the delay of every other task of the earliest deadline first scheduler
that is asleep on the CPU; and what `schedule` sets the tick device to is positive. -/
theorem sched_slice_bounded (tick : Nat) (fuel : Nat) (k : Kernel) (cpu : Nat) :
    (∀ now t slice k',
      schedFindNextTask tick fuel kernelSchedulers k cpu now = .ok (t, slice, k') →
        SliceFits tick k' cpu now t slice) ∧
    ∀ nows out k', schedule tick fuel kernelSchedulers k cpu nows = .ok (some out, k') →
      out.tickNextNs = out.slice - tick ∧ 0 < out.tickNextNs := by
  have htick : (0 : Int) ≤ tick := Int.natCast_nonneg tick
  refine ⟨fun now t slice k' h => schedFindNextTask_fits htick h, fun nows out k' h => ?_⟩
  unfold schedule at h
  split at h
  case isTrue => cases h
  case isFalse =>
    split at h
    case h_1 => cases h
    case h_2 => cases h
    case h_3 cur now nows _ =>
      simp only at h
      split at h
      case h_1 => cases h
      case h_2 t slice last k₁ hloop =>
        cases h
        obtain ⟨-, hlt⟩ := scheduleLoop_fits htick hloop
        refine ⟨rfl, ?_⟩
        change 0 < slice - (tick : Int)
        omega

end FlightOs
