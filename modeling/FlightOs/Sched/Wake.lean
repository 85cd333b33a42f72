/-
# Setting attributes and waking a task

A task is given its scheduler with its attributes (`sched_set_attr` in `kernel/sched/core.c`).  It
waits in state `NEW` until `kthread_wake_up` enqueues it, which puts it on the wake queue of its
scheduler, and wakes it, which puts it on the run queue.  The earliest deadline first scheduler looks
for a good time for the first wakeup of a task, and sorts the run queue on this occasion.
-/
import FlightOs.Sched.Admission
import FlightOs.Sched.Core

namespace FlightOs

/-! ## 1. Waking a task of the earliest deadline first scheduler -/

/-- `edf_get_earliest_wakeup`. -/
def edfGetEarliestWakeup (q : Queues) (cpu : Nat) (now : Int) : Int :=
  let last := (q.tq cpu).run.foldl (fun (s : Int × Option Nat) t =>
    let tsk := q.task t
    if tsk.state = .dead then s
    else if tsk.runOnce then s
    else if tsk.attr.period < s.1 then s
    else (tsk.attr.period, some t)) (0, none)
  match last.2 with
  | none => now
  | some t => (q.task t).wakeup + (q.task t).attr.period

/-- The body of the loop in `edf_sort_queue_by_urgency`. -/
def edfSortTurn (task : Nat → TaskStruct) (now : Int) (_ : Unit) (P : List Nat) (t : Nat)
    (R : List Nat) : Turn Unit :=
  let tsk := task t
  if tsk.runOnce then ⟨(), .stay, false⟩
  else if tsk.state = .dead then ⟨(), .stay, false⟩
  else if tsk.wakeup < now then
    let latestWake := tsk.deadline - tsk.runtime
    if latestWake < (task ((P ++ t :: R).headD t)).deadline then ⟨(), .head, false⟩
    else ⟨(), .stay, false⟩
  else ⟨(), .stay, false⟩

/-- `edf_sort_queue_by_urgency`. -/
def edfSortQueueByUrgency (task : Nat → TaskStruct) (now : Int) (run : List Nat) :
    Except SchedError (List Nat) :=
  match safeFor (edfSortTurn task now) (run.length + 1) () [] run with
  | none => .error .outOfFuel
  | some (_, run) => .ok run

/-- `edf_get_best_wakeup`. -/
def edfGetBestWakeup (task : Nat → TaskStruct) (attr : SchedAttr) (wakeup now : Int) :
    List Nat → Int
  | [] => wakeup
  | t :: rest =>
    let tsk := task t
    if tsk.runOnce then edfGetBestWakeup task attr wakeup now rest
    else if tsk.state ≠ .idle then edfGetBestWakeup task attr wakeup now rest
    else if tsk.wakeup < now then edfGetBestWakeup task attr wakeup now rest
    else
      let delta := tsk.deadline - tsk.wakeup
      if attr.deadlineRel < delta then tsk.wakeup
      else if attr.wcet < delta then tsk.deadline
      else edfGetBestWakeup task attr wakeup now rest

/-- `edf_wake`. -/
def edfWake (tick : Int) (q : Queues) (t : Nat) (now : Int) : Except SchedError (Int × Queues) :=
  let tsk := q.task t
  if tsk.attr.policy ≠ .edf then .ok (-EINVAL, q)
  else
    match tsk.onCpu with
    | none => .ok (-EINVAL, q)
    | some cpu =>
      if (q.tq cpu).wake = [] then .ok (-EINVAL, q)
      else if t ∉ (q.tq cpu).wake then .ok (-EINVAL, q)
      else
        let place : Except SchedError (Int × List Nat) :=
          -- the first task, or one that runs only once, is run at once
          if (q.tq cpu).run = [] ∧ tsk.runOnce then .ok (now, (q.tq cpu).run)
          else
            match edfSortQueueByUrgency q.task now (q.tq cpu).run with
            | .error e => .error e
            | .ok run =>
              .ok (edfGetBestWakeup q.task tsk.attr (edfGetEarliestWakeup q cpu now) now run, run)
        match place with
        | .error e => .error e
        | .ok (wakeup, run) =>
          let wakeup := wakeup + tick + tsk.attr.period
          let q := q.setTask t { tsk with
            wakeup := wakeup
            deadline := wakeup + tsk.attr.deadlineRel
            runtime := tsk.attr.wcet
            state := .idle }
          .ok (0, q.setTq cpu { q.tq cpu with wake := (q.tq cpu).wake.erase t, run := run ++ [t] })

/-! ## 2. The interface of the schedulers -/

/-- `check_sched_attr` of a scheduler, which may adjust the attributes. -/
def schedCheckAttr (tick : Int) : SchedPolicy → SchedAttr → Int × SchedAttr
  | .edf, attr => edfCheckSchedAttr tick attr
  | .rr, attr => rrCheckSchedAttr attr
  | .other, attr => (-EINVAL, attr)

section Interface

variable (tick : Int) (fuel ncpus : Nat)

/-- `sched_enqueue`. -/
def schedEnqueue (k : Kernel) (t : Nat) : Except SchedError (Int × Kernel) :=
  match (k.task t).sched with
  | none => .ok (-EINVAL, k)
  | some p =>
    let r := schedCheckAttr tick p (k.task t).attr
    let k := k.setTask t { k.task t with attr := r.2 }
    if r.1 ≠ 0 then .ok (r.1, k)
    else
      match p with
      | .edf =>
        match edfEnqueue ktimeWrap fuel ncpus (k.queues .edf) t with
        | .error e => .error e
        | .ok (ret, q) => .ok (ret, k.withQueues .edf q)
      | .rr =>
        let r := rrEnqueue (k.queues .rr) t
        .ok (r.1, k.withQueues .rr r.2)
      | .other => .error .null

/-- `sched_wake`. -/
def schedWake (k : Kernel) (t : Nat) (now : Int) : Except SchedError (Int × Kernel) :=
  match (k.task t).sched with
  | none => .ok (-EINVAL, k)
  | some .edf =>
    match edfWake tick (k.queues .edf) t now with
    | .error e => .error e
    | .ok (ret, q) => .ok (ret, k.withQueues .edf q)
  | some .rr =>
    let r := rrWake tick (k.queues .rr) t now
    .ok (r.1, k.withQueues .rr r.2)
  | some .other => .error .null

/-- `kthread_wake_up`, with the reading of the clock; the result of `sched_wake` is not looked at. -/
def kthreadWakeUp (k : Kernel) (task : Option Nat) (now : Int) :
    Except SchedError (Int × Kernel) :=
  match task with
  | none => .ok (-EINVAL, k)
  | some t =>
    if (k.task t).state ≠ .new then .ok (-EINVAL, k)
    else
      match schedEnqueue tick fuel ncpus k t with
      | .error e => .error e
      | .ok (ret, k) =>
        if ret ≠ 0 then .ok (ret, k)
        else
          match schedWake tick k t now with
          | .error e => .error e
          | .ok (_, k) => .ok (0, k.setTask t { k.task t with wakeupFirst := now })

/-- `sched_set_attr`: the attributes are copied, checked, and the scheduler is set, or taken away if
there is an error, which writes through the task in any case. -/
def schedSetAttr (k : Kernel) (task : Option Nat) (attr : Option SchedAttr) :
    Except SchedError (Int × Kernel) :=
  match task, attr with
  | none, _ => .error .null
  | some t, none => .ok (-EINVAL, k.setTask t { k.task t with sched := none })
  | some t, some attr =>
    match kernelSchedulers.find? fun sched => decide (sched.policy = attr.policy) with
    | none => .ok (-EINVAL, k.setTask t { k.task t with sched := none })
    | some sched =>
      let k := k.setTask t { k.task t with attr := attr }
      if (schedCheckAttr tick sched.policy attr).1 ≠ 0 then
        .ok (-EINVAL, k.setTask t { k.task t with sched := none })
      else .ok (0, k.setTask t { k.task t with sched := some sched.policy })

end Interface

end FlightOs
