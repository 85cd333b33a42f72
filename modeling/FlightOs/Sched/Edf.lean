/-
# The earliest deadline first scheduler

Each CPU has its own run queue (`kernel/sched/edf.c`).  `edf_pick_next` goes through it once: it
wakes the tasks whose wakeup is at most two ticks ahead, starts a new period for those that have
used up their runtime or cannot meet their deadline, and moves a task to the head whose deadline is
before that of the head.  What is at the head in the end is picked, if it is in state `RUN`.

A task whose new period starts is moved to the tail and may be met again, but then it is not in
state `RUN`, so each task is met twice at most; the loop has fuel for that.
-/
import FlightOs.Sched.Task
import FlightOs.Errno
import FlightOs.Lib.SafeIter

namespace FlightOs

/-- Why a function of the schedulers does not return: the trap instruction, a `BUG_ON`, a read
through `NULL`, a read from the head of an empty list, or a loop that has not come to its end. -/
inductive SchedError
  | trap
  | bug
  | null
  | badRead
  | outOfFuel
  deriving DecidableEq, Repr

/-! ## 1. The code -/

/-- `schedule_edf_can_execute`; the shift is that of an `unsigned long`. -/
def scheduleEdfCanExecute (tick : Int) (tsk : TaskStruct) (now : Int) : Bool :=
  let tick₂ := (2 * tick) % 2 ^ 32
  if tsk.runtime ≤ tick₂ then false
  else if tsk.deadline - now ≤ tick₂ then false
  else true

/-- `schedule_edf_reinit_task`. -/
def scheduleEdfReinitTask (tsk : TaskStruct) (now : Int) : Except SchedError TaskStruct :=
  if tsk.runtime = tsk.attr.wcet then .error .trap
  else
    let newWake := tsk.wakeup + tsk.attr.period
    if newWake < now then .error .trap
    else if tsk.runOnce then .ok { tsk with state := .dead }
    else .ok { tsk with
      state := .idle
      wakeup := newWake
      deadline := newWake + tsk.attr.deadlineRel
      runtime := tsk.attr.wcet
      slices := tsk.slices + 1 }

/-- What the loop of `edf_pick_next` works on. -/
structure EdfScan where
  task : Nat → TaskStruct
  freed : List Nat
  trapped : Bool

def EdfScan.set (st : EdfScan) (t : Nat) (tsk : TaskStruct) : EdfScan :=
  { st with task := Function.update st.task t tsk }

/-- The new period of a task that cannot execute; without one the task stays as it is. -/
def edfRefresh (tick : Int) (tsk : TaskStruct) (now : Int) : Except SchedError (TaskStruct × Relink) :=
  if scheduleEdfCanExecute tick tsk now then .ok (tsk, .stay)
  else
    match scheduleEdfReinitTask tsk now with
    | .error e => .error e
    | .ok tsk => .ok (tsk, .tail)

/-- The body of the loop in `edf_pick_next`; `this` is the current task. -/
def edfPickTurn (tick now : Int) (this : Option Nat) (st : EdfScan) (P : List Nat) (t : Nat)
    (R : List Nat) : Turn EdfScan :=
  let tsk := st.task t
  -- not yet...
  if 2 * tick < tsk.wakeup - now then ⟨st, .stay, false⟩
  else if tsk.state = .run then
    match edfRefresh tick tsk now with
    | .error _ => ⟨{ st with trapped := true }, .stay, true⟩
    | .ok (tsk, link) =>
      let st := st.set t tsk
      let first := ((link.after P t R).1 ++ (link.after P t R).2).headD t
      if now < tsk.wakeup then ⟨st, link, false⟩
      else if tsk.deadline < (st.task first).deadline then
        ⟨st.set t { tsk with state := .run }, .head, false⟩
      else ⟨st, link, false⟩
  else if tsk.state = .idle then
    -- time to wake up
    let st := st.set t { tsk with state := .run }
    let first := (P ++ t :: R).headD t
    if (st.task first).state ≠ .run then ⟨st, .head, false⟩
    else if tsk.deadline < (st.task first).deadline then ⟨st, .head, false⟩
    else ⟨st, .stay, false⟩
  else if tsk.state = .dead then
    if this = some t then ⟨st, .stay, false⟩
    else ⟨{ st with freed := st.freed ++ [t] }, .out, false⟩
  else ⟨st, .stay, false⟩

/-- `edf_pick_next`. -/
def edfPickNext (tick : Int) (q : Queues) (cpu : Nat) (now : Int) (this : Option Nat) :
    Except SchedError (Option Nat × Queues) :=
  if (q.tq cpu).run = [] then .ok (none, q)
  else
    match safeFor (edfPickTurn tick now this) (2 * (q.tq cpu).run.length + 1)
        ⟨q.task, q.freed, false⟩ [] (q.tq cpu).run with
    | none => .error .outOfFuel
    | some (st, run) =>
      if st.trapped then .error .trap
      else
        let q := { q with task := st.task, freed := st.freed }.setTq cpu { q.tq cpu with run := run }
        match run with
        | [] => .error .badRead
        | first :: _ =>
          if (q.task first).state = .run then
            .ok (some first, q.setTask first { q.task first with state := .busy })
          else .ok (none, q)

def edfTimesliceNs (tsk : TaskStruct) : Int := tsk.runtime

/-- `edf_task_ready_ns`. -/
def edfTaskReadyNs (tick : Int) (q : Queues) (cpu : Nat) (now : Int) : Int :=
  (q.tq cpu).run.foldl (fun ready t =>
    let tsk := q.task t
    if tsk.state = .busy then ready
    else
      let delta := tsk.wakeup - now
      if delta ≤ 2 * tick then ready
      else if delta < ready then delta
      else ready) 0x7fffffff

/-- `edf_check_sched_attr`. -/
def edfCheckSchedAttr (tick : Int) (attr : SchedAttr) : Int × SchedAttr :=
  if attr.policy ≠ .edf then (-EINVAL, attr)
  else if attr.wcet < tick then (-EINVAL, attr)
  else if attr.deadlineRel - attr.wcet < tick then (-EINVAL, attr)
  else if 0 < attr.period ∧ attr.period ≤ attr.wcet then (-EINVAL, attr)
  else if 0 < attr.period ∧ attr.period ≤ attr.deadlineRel then (-EINVAL, attr)
  else if 0 < attr.period ∧ attr.period - attr.deadlineRel < tick then (-EINVAL, attr)
  else if attr.deadlineRel ≤ attr.wcet then (-EINVAL, attr)
  else (0, attr)

/-- What `edf_enqueue` does first: a task without a period runs only once. -/
def edfSetPeriod (tsk : TaskStruct) : TaskStruct :=
  if tsk.attr.period = 0 then
    { tsk with runOnce := true, attr := { tsk.attr with period := tsk.attr.deadlineRel } }
  else { tsk with runOnce := false }

/-! ## 2. The time until a task is ready -/

/-- The accumulator of `edf_task_ready_ns` is the least delay met so far. -/
theorem edfReady_foldl (tick now : Int) (task : Nat → TaskStruct) (htick : 0 ≤ tick) :
    ∀ (L : List Nat) (ready : Int), 0 < ready →
      let r := L.foldl (fun ready t =>
        let tsk := task t
        if tsk.state = .busy then ready
        else
          let delta := tsk.wakeup - now
          if delta ≤ 2 * tick then ready
          else if delta < ready then delta
          else ready) ready
      0 < r ∧ r ≤ ready ∧ ∀ t ∈ L, (task t).state ≠ .busy → 2 * tick < (task t).wakeup - now →
        r ≤ (task t).wakeup - now := by
  intro L
  induction L with
  | nil =>
    intro ready hready
    exact ⟨hready, le_refl _, fun t ht => by cases ht⟩
  | cons u L ih =>
    intro ready hready
    simp only [List.foldl_cons, List.mem_cons, forall_eq_or_imp]
    split
    case isTrue hbusy =>
      obtain ⟨h1, h2, h3⟩ := ih ready hready
      exact ⟨h1, h2, fun hne => absurd hbusy hne, h3⟩
    split
    case isTrue hnear =>
      obtain ⟨h1, h2, h3⟩ := ih ready hready
      exact ⟨h1, h2, fun _ hfar => absurd hfar (not_lt.mpr hnear), h3⟩
    split
    case isTrue hfar hlt =>
      obtain ⟨h1, h2, h3⟩ := ih ((task u).wakeup - now) (by omega)
      exact ⟨h1, h2.trans hlt.le, fun _ _ => h2, h3⟩
    case isFalse hle =>
      obtain ⟨h1, h2, h3⟩ := ih ready hready
      exact ⟨h1, h2, fun _ _ => h2.trans (not_lt.mp hle), h3⟩

/-- `edf_task_ready_ns` is positive, and at most the delay of each task that is asleep. -/
theorem edfTaskReadyNs_spec {tick : Int} (htick : 0 ≤ tick) (q : Queues) (cpu : Nat) (now : Int) :
    0 < edfTaskReadyNs tick q cpu now ∧ edfTaskReadyNs tick q cpu now ≤ 0x7fffffff ∧
      ∀ t ∈ (q.tq cpu).run, (q.task t).state ≠ .busy → 2 * tick < (q.task t).wakeup - now →
        edfTaskReadyNs tick q cpu now ≤ (q.task t).wakeup - now :=
  edfReady_foldl tick now q.task htick (q.tq cpu).run 0x7fffffff (by decide)

/-- It is more than a tick. -/
theorem edfTaskReadyNs_tick {tick : Int} (htick : 0 ≤ tick) (hsmall : tick < 0x7fffffff)
    (q : Queues) (cpu : Nat) (now : Int) : tick < edfTaskReadyNs tick q cpu now := by
  have hfold : ∀ (L : List Nat) (ready : Int), tick < ready →
      tick < L.foldl (fun ready t =>
        let tsk := q.task t
        if tsk.state = .busy then ready
        else
          let delta := tsk.wakeup - now
          if delta ≤ 2 * tick then ready
          else if delta < ready then delta
          else ready) ready := by
    intro L
    induction L with
    | nil => exact fun _ h => h
    | cons u L ih =>
      intro ready hready
      refine ih _ ?_
      dsimp only
      split
      · exact hready
      split
      · exact hready
      split
      · omega
      · exact hready
  exact hfold _ _ hsmall

end FlightOs
