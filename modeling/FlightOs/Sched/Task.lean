/-
# Tasks and their queues

The data of the schedulers (`include/kernel/kthread.h`, `include/kernel/sched.h`).  Tasks are named
by numbers that stand for their addresses, and a queue is a list of such numbers.  Times are in
nanoseconds: a `ktime` is a signed 64 bit number, good for 292 years, and stands here as an integer.

A scheduler is named by its policy.  Each of the two has a task queue for each CPU; the functions
of one scheduler see the tasks and their own queues (`Queues`).
-/
import Mathlib.Tactic.Common
import Mathlib.Logic.Function.Basic

namespace FlightOs

inductive TaskState
  | run
  | idle
  | new
  | dead
  | busy
  deriving DecidableEq, Repr

/-- `enum ksched_policy`. -/
inductive SchedPolicy
  | rr
  | edf
  | other
  deriving DecidableEq, Repr

structure SchedAttr where
  policy : SchedPolicy
  priority : Nat
  period : Int
  wcet : Int
  deadlineRel : Int
  deriving DecidableEq, Repr

/-- `struct task_struct`.  `onCpu` is `none` for `KTHREAD_CPU_AFFINITY_NONE`, `sched` for `NULL`;
the two flags are `TASK_RUN_ONCE` and `TASK_NO_CLEAN`. -/
structure TaskStruct where
  state : TaskState
  onCpu : Option Nat
  sched : Option SchedPolicy
  attr : SchedAttr
  runtime : Int
  wakeup : Int
  deadline : Int
  wakeupFirst : Int
  execStart : Int
  execStop : Int
  total : Int
  slices : Nat
  runOnce : Bool
  noClean : Bool
  deriving DecidableEq, Repr

structure TaskQueue where
  wake : List Nat
  run : List Nat
  dead : List Nat
  clean : List Nat
  deriving DecidableEq, Repr

/-- The tasks, the queues of a scheduler, and the tasks passed to `kthread_free`. -/
structure Queues where
  task : Nat → TaskStruct
  tq : Nat → TaskQueue
  freed : List Nat

namespace Queues

/-- A change of one task. -/
def setTask (q : Queues) (t : Nat) (tsk : TaskStruct) : Queues :=
  { q with task := Function.update q.task t tsk }

/-- A change of the queues of one CPU. -/
def setTq (q : Queues) (cpu : Nat) (tq : TaskQueue) : Queues :=
  { q with tq := Function.update q.tq cpu tq }

@[simp] theorem setTask_task_self (q : Queues) (t : Nat) (tsk : TaskStruct) :
    (q.setTask t tsk).task t = tsk := by
  simp [setTask]

theorem setTask_task_other (q : Queues) {t u : Nat} (tsk : TaskStruct) (h : u ≠ t) :
    (q.setTask t tsk).task u = q.task u := by
  simp [setTask, h]

@[simp] theorem setTask_tq (q : Queues) (t : Nat) (tsk : TaskStruct) :
    (q.setTask t tsk).tq = q.tq := rfl

@[simp] theorem setTq_task (q : Queues) (cpu : Nat) (tq : TaskQueue) :
    (q.setTq cpu tq).task = q.task := rfl

@[simp] theorem setTq_tq_self (q : Queues) (cpu : Nat) (tq : TaskQueue) :
    (q.setTq cpu tq).tq cpu = tq := by
  simp [setTq]

theorem setTq_tq_other (q : Queues) {cpu i : Nat} (tq : TaskQueue) (h : i ≠ cpu) :
    (q.setTq cpu tq).tq i = q.tq i := by
  simp [setTq, h]

end Queues

/-- `sched_update_runtime`: a task that was running is accounted for, and can be picked again. -/
def schedUpdateRuntime (tsk : TaskStruct) (now : Int) : TaskStruct :=
  let rt := now - tsk.execStart
  { tsk with
    execStop := now
    runtime := tsk.runtime - rt
    total := tsk.total + rt
    state := if tsk.state = .busy then .run else tsk.state }

end FlightOs
