/-
# The processing network

A tracker (`lib/data_proc_tracker.c`) is a queue of tasks with an op function for the tasks whose
pending step has its op code.  A processing network (`lib/data_proc_net.c`) has an input tracker,
an output tracker and a queue of processing nodes; its tasks go from the input to the nodes, and
from node to node as their steps say, until they have none left and reach the output.

Tasks and trackers are named by numbers that stand for their addresses, a task by one number for
as long as the system runs.  Op functions are code of the network's user: one is a function of
what all of them remember (`ω`), the op code and the task's contents, and tells what it makes of
the task, whether it destroys it, and its return code.

Three lists of the state are not data of the code but say what has become of the tasks: those
entered, those the network has left to an op function, and those passed to `pt_destroy`.

Only the op functions decide how often `pn_process_next` goes round, so it has fuel.
-/
import FlightOs.Net.Task
import FlightOs.Lib.SafeIter
import FlightOs.Lib.Loop

namespace FlightOs

def PN_OP_NODE_IN : Nat := 0xFFFFFFFF
def PN_OP_NODE_OUT : Nat := 0

def PN_TASK_SUCCESS : Int := 0
def PN_TASK_STOP : Int := 1
def PN_TASK_DETACH : Int := 2
def PN_TASK_RESCHED : Int := 3
def PN_TASK_SORTSEQ : Int := 4
def PN_TASK_DESTROY : Int := 5

/-- What a call of an op function amounts to. -/
structure OpAnswer (ω : Type) where
  mem : ω
  task : ProcTask
  destroyed : Bool
  ret : Int

/-- `op_func_t`: the op code, the task and its contents. -/
abbrev OpFunc (ω : Type) := Nat → Nat → ω → ProcTask → OpAnswer ω

/-- `struct proc_tracker`. -/
structure ProcTracker (ω : Type) where
  tasks : List Nat
  nTasks : Nat
  nTasksCrit : Nat
  opCode : Nat
  op : OpFunc ω
  counted : nTasks = tasks.length

/-- The tasks, the trackers and `struct proc_net`, with what has become of the tasks. -/
structure PnState (ω : Type) where
  task : Nat → ProcTask
  tracker : Nat → ProcTracker ω
  input : Nat
  output : Nat
  nodes : List Nat
  n : Nat
  mem : ω
  entered : List Nat
  detached : List Nat
  destroyed : List Nat

inductive PnError
  | bug
  | useAfterFree
  | outOfFuel
  deriving DecidableEq, Repr

variable {ω : Type}

/-! ## 1. Trackers -/

def ProcTracker.put (pt : ProcTracker ω) (t : Nat) : ProcTracker ω :=
  { pt with
    tasks := pt.tasks ++ [t]
    nTasks := pt.nTasks + 1
    counted := by rw [List.length_append, pt.counted, List.length_singleton] }

def ProcTracker.drop (pt : ProcTracker ω) : ProcTracker ω :=
  { pt with
    tasks := pt.tasks.tail
    nTasks := pt.nTasks - 1
    counted := by rw [List.length_tail, pt.counted] }

@[simp] theorem ProcTracker.put_tasks (pt : ProcTracker ω) (t : Nat) :
    (pt.put t).tasks = pt.tasks ++ [t] := rfl

@[simp] theorem ProcTracker.put_opCode (pt : ProcTracker ω) (t : Nat) :
    (pt.put t).opCode = pt.opCode := rfl

@[simp] theorem ProcTracker.drop_tasks (pt : ProcTracker ω) : pt.drop.tasks = pt.tasks.tail := rfl

@[simp] theorem ProcTracker.drop_opCode (pt : ProcTracker ω) : pt.drop.opCode = pt.opCode := rfl

def ptTrackLevelCritical (pt : ProcTracker ω) : Bool := decide (pt.nTasksCrit ≤ pt.nTasks)

def ptTrackTasksPending (pt : ProcTracker ω) : Bool := !pt.tasks.isEmpty

/-- `pt_track_create`, when its allocation succeeds. -/
def ptTrackCreate (op : OpFunc ω) (opCode nTasksCrit : Nat) : ProcTracker ω where
  tasks := []
  nTasks := 0
  nTasksCrit := nTasksCrit
  opCode := opCode
  op := op
  counted := rfl

namespace PnState

def setTracker (s : PnState ω) (p : Nat) (pt : ProcTracker ω) : PnState ω :=
  { s with tracker := Function.update s.tracker p pt }

def setTask (s : PnState ω) (t : Nat) (c : ProcTask) : PnState ω :=
  { s with task := Function.update s.task t c }

end PnState

/-- `pt_track_put`: a task that does not ask for the op of the tracker is rejected. -/
def ptTrackPut (s : PnState ω) (p t : Nat) : Int × PnState ω :=
  if ptGetPendStepOpCode (s.task t) ≠ (s.tracker p).opCode then (-1, s)
  else (0, s.setTracker p ((s.tracker p).put t))

def ptTrackPutForce (s : PnState ω) (p t : Nat) : Int × PnState ω :=
  (0, s.setTracker p ((s.tracker p).put t))

def ptTrackGet (s : PnState ω) (p : Nat) : Option Nat × PnState ω :=
  match (s.tracker p).tasks with
  | [] => (none, s)
  | t :: _ => (some t, s.setTracker p (s.tracker p).drop)

/-- `pt_track_sort_seq`, which is not implemented. -/
def ptTrackSortSeq (s : PnState ω) (_ : Nat) : PnState ω := s

/-- `pt_destroy` frees the task. -/
def ptDestroy (s : PnState ω) (t : Nat) : PnState ω := { s with destroyed := s.destroyed ++ [t] }

/-- The network leaves a task to the op function it gave it to. -/
def leave (s : PnState ω) (t : Nat) : PnState ω := { s with detached := s.detached ++ [t] }

/-! ## 2. Where a task goes -/

/-- `pn_dummy_op`. -/
def pnDummyOp : OpFunc ω := fun _ _ m c => ⟨m, c, true, 0⟩

/-- `pn_find_tracker`. -/
def pnFindTracker (s : PnState ω) (op : Nat) : Option Nat :=
  s.nodes.find? (fun p => decide ((s.tracker p).opCode = op))

/-- The look-up of `pn_task_to_next_node` and `pn_process_inputs`: a first guess, then a search. -/
def pnTrackerFor (s : PnState ω) (guess : Option Nat) (op : Nat) : Option Nat :=
  match guess with
  | some p => if (s.tracker p).opCode = op then some p else pnFindTracker s op
  | none => pnFindTracker s op

def pnTaskToNextNode (s : PnState ω) (t : Nat) : Int × PnState ω :=
  let op := ptGetPendStepOpCode (s.task t)
  if op = 0 then (0, (ptTrackPut s s.output t).2)
  else
    match pnTrackerFor s s.nodes.head? op with
    | none => (-1, ptDestroy s t)
    | some p => (0, (ptTrackPut s p t).2)

/-- `pn_eval_task_status`, for a network, a tracker and a task that are not `NULL`. -/
def pnEvalTaskStatus (s : PnState ω) (p t : Nat) (ret : Int) : Bool × PnState ω :=
  if ret = PN_TASK_SUCCESS then
    (true, (pnTaskToNextNode (s.setTask t (ptNextPendStepDone (s.task t))) t).2)
  else if ret = PN_TASK_STOP then
    (false, (pnTaskToNextNode (s.setTask t (ptNextPendStepDone (s.task t))) t).2)
  else if ret = PN_TASK_DETACH then (true, leave s t)
  else if ret = PN_TASK_RESCHED then (false, (ptTrackPut s p t).2)
  else if ret = PN_TASK_SORTSEQ then (false, ptTrackSortSeq (ptTrackPut s p t).2 p)
  else if ret = PN_TASK_DESTROY then
    (true, (pnTaskToNextNode (s.setTask t (ptDelAllPending (ptSetNmemb (s.task t) 0))) t).2)
  else (true, ptDestroy s t)

/-! ## 3. The queue of the nodes -/

def criticalTurn (s : PnState ω) (_ : Unit) (_ : List Nat) (p : Nat) (_ : List Nat) : Turn Unit :=
  if ptTrackLevelCritical (s.tracker p) then ⟨(), .head, false⟩ else ⟨(), .stay, false⟩

/-- `pn_queue_critical_trackers`. -/
def pnQueueCriticalTrackers (s : PnState ω) : Except PnError (PnState ω) :=
  match safeFor (criticalTurn s) (s.nodes.length + 1) () [] s.nodes with
  | none => .error .outOfFuel
  | some (_, nodes) => .ok { s with nodes := nodes }

/-- The body of the loop in `pn_get_next_pending_tracker`: what it counts, and the tracker found. -/
def pendingTrackerTurn (s : PnState ω) (st : Nat × Option Nat) (_ : List Nat) (p : Nat)
    (_ : List Nat) : Turn (Nat × Option Nat) :=
  if s.n < st.1 then ⟨(st.1 + 1, none), .stay, true⟩
  else if ptTrackTasksPending (s.tracker p) then ⟨(st.1 + 1, some p), .tail, true⟩
  else ⟨(st.1 + 1, none), .tail, false⟩

/-- `pn_get_next_pending_tracker`: the loop ends at the latest when it has counted past `n`. -/
def pnGetNextPendingTracker (s : PnState ω) : Except PnError (Option Nat × PnState ω) :=
  if s.nodes = [] then .ok (none, s)
  else do
    let s ← pnQueueCriticalTrackers s
    match safeFor (pendingTrackerTurn s) (s.n + 3) (0, none) [] s.nodes with
    | none => .error .outOfFuel
    | some ((_, found), nodes) => .ok (found, { s with nodes := nodes })

/-! ## 4. The calls -/

/-- `pn_input_task`, for a network and a task that are not `NULL`.  The caller has the task, with
these contents: a new one, or one it was left with. -/
def pnInputTask (s : PnState ω) (t : Nat) (c : ProcTask) : PnState ω :=
  let s := s.setTask t c
  (ptTrackPutForce { s with entered := s.entered.insert t, detached := s.detached.erase t }
    s.input t).2

/-- A round of `pn_process_inputs`; `guess` is the tracker of the task before. -/
def processInputsRound (st : PnState ω × Option Nat) :
    Except PnError (Round (PnState ω × Option Nat) (PnState ω)) :=
  match ptTrackGet st.1 st.1.input with
  | (none, s) => .ok (.done s)
  | (some t, s) =>
    match pnTrackerFor s st.2 (ptGetPendStepOpCode (s.task t)) with
    | none => .ok (.next (ptDestroy s t, s.nodes.head?))
    | some p =>
      match ptTrackPut s p t with
      | (0, s) => .ok (.next (s, some p))
      | (_, _) => .error .bug

/-- `pn_process_inputs`, which takes a task off the input in each round. -/
def pnProcessInputs (s : PnState ω) : Except PnError (Int × PnState ω) :=
  if s.nodes = [] then .ok (-1, s)
  else do
    let s ← loop .outOfFuel processInputsRound ((s.tracker s.input).tasks.length + 1)
      (s, s.nodes.head?)
    .ok (0, s)

/-- The call of an op function for a task that is off the trackers. -/
def opCall (s : PnState ω) (p opCode t : Nat) : OpAnswer ω :=
  (s.tracker p).op opCode t s.mem (s.task t)

/-- What the call leaves of the state. -/
def opCalled (s : PnState ω) (t : Nat) (a : OpAnswer ω) : PnState ω :=
  { s.setTask t a.task with mem := a.mem }

/-- A round of `pn_process_next` at the tracker `p`.  An op function that destroys its task has to
answer that the network shall leave it alone. -/
def processNextRound (p : Nat) (st : Nat × PnState ω) :
    Except PnError (Round (Nat × PnState ω) (Nat × PnState ω)) :=
  match ptTrackGet st.2 p with
  | (none, s) => .ok (.done (st.1, s))
  | (some t, s) =>
    let a := opCall s p (ptGetPendStepOpCode (s.task t)) t
    let s := opCalled s t a
    if a.destroyed then
      if a.ret = PN_TASK_DETACH then .ok (.next (st.1 + 1, ptDestroy s t))
      else .error .useAfterFree
    else
      match pnEvalTaskStatus s p t a.ret with
      | (true, s) => .ok (.next (st.1 + 1, s))
      | (false, s) => .ok (.done (st.1 + 1, s))

/-- `pn_process_next`. -/
def pnProcessNext (fuel : Nat) (s : PnState ω) : Except PnError (Nat × PnState ω) := do
  match ← pnGetNextPendingTracker s with
  | (none, s) => .ok (0, s)
  | (some p, s) => loop .outOfFuel (processNextRound p) fuel (0, s)

/-- A round of `pn_process_outputs`: the op function of the output destroys the task or keeps it. -/
def processOutputsRound (st : Nat × PnState ω) :
    Except PnError (Round (Nat × PnState ω) (Nat × PnState ω)) :=
  match ptTrackGet st.2 st.2.output with
  | (none, s) => .ok (.done (st.1, s))
  | (some t, s) =>
    let a := opCall s s.output PN_OP_NODE_OUT t
    let s := opCalled s t a
    .ok (.next (st.1 + 1, if a.destroyed then ptDestroy s t else leave s t))

/-- `pn_process_outputs`, which takes a task off the output in each round. -/
def pnProcessOutputs (s : PnState ω) : Except PnError (Nat × PnState ω) :=
  loop .outOfFuel processOutputsRound ((s.tracker s.output).tasks.length + 1) (0, s)

/-! ## 5. Building a network -/

/-- `pn_create`, when its allocations succeed: the trackers stand at `input` and `output`. -/
def pnCreate (tracker : Nat → ProcTracker ω) (input output : Nat) (mem : ω) : PnState ω where
  task := fun _ => ptCreate 0 0 0 0 0
  tracker := Function.update
    (Function.update tracker input (ptTrackCreate pnDummyOp PN_OP_NODE_IN 1))
    output (ptTrackCreate pnDummyOp PN_OP_NODE_OUT 1)
  input := input
  output := output
  nodes := []
  n := 0
  mem := mem
  entered := []
  detached := []
  destroyed := []

/-- `pn_create_output_node`, when its allocation succeeds: the new tracker stands at `p`, and the
old one is destroyed with all it tracks. -/
def pnCreateOutputNode (s : PnState ω) (p : Nat) (op : OpFunc ω) : Int × PnState ω :=
  (0, { s.setTracker p (ptTrackCreate op PN_OP_NODE_OUT 1) with
    output := p
    destroyed := s.destroyed ++ (s.tracker s.output).tasks })

/-- `pn_add_node`. -/
def pnAddNode (s : PnState ω) (p : Nat) : Int × PnState ω :=
  if (s.tracker p).opCode = PN_OP_NODE_IN then (-EINVAL, s)
  else if (s.tracker p).opCode = PN_OP_NODE_OUT then (-EINVAL, s)
  else (0, { s with nodes := s.nodes ++ [p], n := s.n + 1 })

end FlightOs
