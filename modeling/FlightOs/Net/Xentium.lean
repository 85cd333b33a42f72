/-
# The Xentium driver: `kernel/xentium.c`

The driver loads the tasks of a processing network to two Xentiums.  A Xentium gets a message with a
task; it answers with the same message, in which it says what has become of the task, and gets its
next task, or the command to exit.

* A kernel is known by its op code.  Nobody sets its `kernel_in_use` flag.
* What the Xentiums do is not code of the driver: a message that is answered comes with the
  interrupt, and so does what the allocator answers to the driver.
* `msg` has the message that a Xentium has, and `held` its task, if it has one; `adding` is the op
  code of a kernel whose node is in the network and which is not known to the driver yet.  No
  decision of the driver depends on these.

Interrupts come between calls, and in the middle of `xentium_kernel_add`; the lock, which is taken
for the length of a call, is left out.
-/
import FlightOs.Net.Network

namespace FlightOs

def XENTIUMS : Nat := 2

/-- `enum xen_cmd`, and what is none of it. -/
inductive XenCmd
  | success | stop | detach | resched | sortseq | destroy
  | attach | dataRealloc | kzalloc | kmalloc | kfree | exit | unknown
deriving DecidableEq

/-- `struct xen_msg_data`, without the number and the channel of the Xentium. -/
structure XenMsgData where
  t : Option Nat
  cmd : XenCmd
  cmdParam : Nat
  ptr : Nat
  size : Nat

/-- A kernel: the op code of its configuration, and its flag in `kernel_in_use`. -/
structure XenKernel where
  opCode : Nat
  inUse : Bool

structure Xen (ω : Type) where
  pn : PnState ω
  kernels : List XenKernel
  ptPending : Bool
  pt : Nat → Option Nat
  msg : Nat → Option XenMsgData
  held : Nat → Option Nat
  adding : Option Nat

variable {ω : Type}

/-! ## 1. Loading a task -/

def xenGetIdxUnused (x : Xen ω) : Option Nat :=
  (List.range XENTIUMS).find? (fun i => (x.pt i).isNone)

def xenNodeIsProcessing (x : Xen ω) (p : Nat) : Bool :=
  (List.range XENTIUMS).any (fun i => decide (x.pt i = some p))

/-- `xen_get_kernel_idx_with_op_code`: the number of a kernel, or an error number. -/
def xenGetKernelIdxWithOpCode (x : Xen ω) (opCode : Nat) : Except Nat Nat :=
  match x.kernels.findIdx? (fun k => decide (k.opCode = opCode) && !k.inUse) with
  | some k => .ok k
  | none =>
    if x.kernels.any (fun k => decide (k.opCode = opCode)) then .error EBUSY else .error ENOENT

/-- `xen_set_cmd`: the Xentium has the message. -/
def xenSetCmd (x : Xen ω) (i : Nat) (m : XenMsgData) : Xen ω :=
  { x with msg := Function.update x.msg i (some m) }

/-- `xen_set_cmd` for a message with a task. -/
def xenHandTask (x : Xen ω) (i : Nat) (m : XenMsgData) (t : Nat) : Xen ω :=
  { xenSetCmd x i { m with t := some t } with held := Function.update x.held i (some t) }

def xenSetTracker (x : Xen ω) (i : Nat) (p : Option Nat) : Xen ω :=
  { x with pt := Function.update x.pt i p }

/-- The message of a Xentium is freed, and its tracker cleared. -/
def xenFreeMsg (x : Xen ω) (i : Nat) : Xen ω :=
  { xenSetTracker x i none with msg := Function.update x.msg i none }

/-- A new message: zeros. -/
def xenNewMsg : XenMsgData := ⟨none, .success, 0, 0, 0⟩

/-- `xen_load_task`, for a tracker that is not `NULL`; `mem` tells whether there is memory for a
message. -/
def xenLoadTask (x : Xen ω) (p : Nat) (mem : Bool) : Int × Xen ω :=
  match xenGetIdxUnused x with
  | none => (-EBUSY, x)
  | some i =>
    if !mem then (-ENOMEM, x)
    else
      match ptTrackGet x.pn p with
      | (none, pn) => (-ENOENT, { x with pn })
      | (some t, pn) =>
        match xenGetKernelIdxWithOpCode x (ptGetPendStepOpCode (pn.task t)) with
        -- the message is freed, with the task in it
        | .error e => (-e, { x with pn })
        | .ok _ => (0, xenHandTask (xenSetTracker { x with pn } i (some p)) i xenNewMsg t)

/-- The loop of `xentium_schedule_next_internal`, for `n` more rounds. -/
def xentiumScheduleFrom (mem : Bool) : Nat → Xen ω → Except PnError (Xen ω)
  | 0, x => .ok x
  | n + 1, x =>
    match pnGetNextPendingTracker x.pn with
    | .error e => .error e
    | .ok (none, pn) => .ok { x with pn }
    | .ok (some p, pn) =>
      if xenNodeIsProcessing x p then xentiumScheduleFrom mem n { x with pn }
      else
        match xenLoadTask { x with pn } p mem with
        | (ret, x) => .ok { x with ptPending := decide (ret = -EBUSY) }

def xentiumScheduleNextInternal (mem : Bool) (x : Xen ω) : Except PnError (Xen ω) :=
  xentiumScheduleFrom mem XENTIUMS x

/-! ## 2. Interrupts -/

/-- `pn_eval_task_status`, where the tracker or the task may be `NULL`. -/
def xenEvalTaskStatus (pn : PnState ω) (p t : Option Nat) (ret : Int) : Bool × PnState ω :=
  match p, t with
  | some p, some t => pnEvalTaskStatus pn p t ret
  | _, _ => (false, pn)

/-- `xen_handle_cmds`, for a message that is not `NULL`. -/
def xenHandleCmds (x : Xen ω) (i : Nat) (m : XenMsgData) (ret : Int) : Xen ω :=
  let r := xenEvalTaskStatus x.pn (x.pt i) m.t ret
  let x := { x with pn := r.2, held := Function.update x.held i none }
  if r.1 = false then xenFreeMsg x i
  else if x.ptPending then xenSetCmd x i { m with cmd := .exit }
  else
    match x.pt i with
    | none => xenSetCmd x i { m with t := none, cmd := .exit }
    | some p =>
      match ptTrackGet x.pn p with
      | (none, pn) => xenSetCmd { x with pn } i { m with t := none, cmd := .exit }
      | (some t, pn) => xenHandTask { x with pn } i m t

/-- A kernel gives back a task it has kept. -/
def xenTakeBack (pn : PnState ω) (t : Option Nat) : PnState ω :=
  match t with
  | none => pn
  | some t => { pn with detached := pn.detached.erase t }

/-- The commands of `xen_irq_handler`; `answer` is what the allocator answers. -/
def xenIrqCmd (x : Xen ω) (i : Nat) (m : XenMsgData) (answer : Nat) : Xen ω :=
  match m.cmd with
  | .success => xenHandleCmds x i m PN_TASK_SUCCESS
  | .stop => xenHandleCmds x i m PN_TASK_STOP
  | .detach => xenHandleCmds x i m PN_TASK_DETACH
  | .resched => xenHandleCmds x i m PN_TASK_RESCHED
  | .sortseq => xenHandleCmds x i m PN_TASK_SORTSEQ
  | .destroy => xenHandleCmds x i m PN_TASK_DESTROY
  | .attach =>
    xenSetCmd { x with
      pn := (xenEvalTaskStatus (xenTakeBack x.pn m.t) (x.pt i) m.t PN_TASK_SUCCESS).2 } i m
  | .dataRealloc =>
    match m.t with
    | none => xenSetCmd x i m
    | some t => xenSetCmd { x with pn := x.pn.setTask t { x.pn.task t with data := answer } } i m
  | .kzalloc | .kmalloc => xenSetCmd x i { m with ptr := answer }
  | .kfree => xenSetCmd x i m
  | .exit => { xenFreeMsg x i with held := Function.update x.held i none }
  | .unknown => x

/-- `xen_irq_handler`, with the message in the mailbox of the Xentium `i`. -/
def xenIrqHandler (x : Xen ω) (i : Nat) (m : Option XenMsgData) (mem : Bool) (answer : Nat) :
    Except PnError (Xen ω) :=
  match m with
  | none => .ok x
  | some m => xentiumScheduleNextInternal mem (xenIrqCmd x i m answer)

/-! ## 3. The calls -/

def xentiumInputTask (x : Xen ω) (t : Nat) (c : ProcTask) (mem : Bool) : Except PnError (Xen ω) :=
  match pnProcessInputs (pnInputTask x.pn t c) with
  | .error e => .error e
  | .ok (_, pn) => xentiumScheduleNextInternal mem { x with pn }

def xentiumOutputTasks (x : Xen ω) : Except PnError (Xen ω) :=
  match pnProcessOutputs x.pn with
  | .error e => .error e
  | .ok (_, pn) => .ok { x with pn }

/-- `xentium_config_output_node`, with the new tracker at `p`. -/
def xentiumConfigOutputNode (x : Xen ω) (p : Nat) (op : OpFunc ω) : Xen ω :=
  { x with pn := (pnCreateOutputNode x.pn p op).2 }

/-- `op_xen_schedule_kernel`, which nobody calls. -/
def opXenScheduleKernel : OpFunc ω := fun _ _ m c => ⟨m, c, false, PN_TASK_SUCCESS⟩

/-- `xentium_kernel_add` up to `pn_add_node`, for a kernel that has been loaded, with the new
tracker at `p`.  Where the node is refused, the call is at its end. -/
def xentiumKernelAddNode (x : Xen ω) (p opCode critBufLvl : Nat) : Xen ω :=
  let pn := x.pn.setTracker p (ptTrackCreate opXenScheduleKernel opCode critBufLvl)
  match pnAddNode pn p with
  | (0, pn) => { x with pn, adding := some opCode }
  | (_, _) => x

/-- The rest of `xentium_kernel_add`: the kernel is known. -/
def xentiumKernelAddKernel (x : Xen ω) : Xen ω :=
  match x.adding with
  | none => x
  | some opCode => { x with kernels := x.kernels ++ [⟨opCode, false⟩], adding := none }

end FlightOs
