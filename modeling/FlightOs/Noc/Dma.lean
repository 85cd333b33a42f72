/-
# The NoC DMA driver: `kernel/noc_dma.c`

Requests for transfers wait in a queue until one of the eight channels of the DMA is free.  The
nodes of the channels that are free and the items of the transfers that are not in use are kept in
two pools; a channel that runs a transfer is known by the `transfer` field of its node, and its
interrupt gives both back.

* The nodes and the items are array elements, known by their indices, and the lists are lists of
  these.
* The status word of a channel is the hardware's.  What its reads tell comes with each call.
* `reserved` has the channels that external users hold; no function reads it.
* A callback is code of the user: what it calls comes with the interrupt.

Interrupts come between calls, and not in the middle of one.
-/
import FlightOs.Errno
import Mathlib.Logic.Function.Basic

namespace FlightOs

/-! ## 1. Channels and transfers -/

/-- `NOC_DMA_CHANNELS` -/
def nocDmaChannels : Nat := 8

/-- `NOC_SCRATCH_BUFFER_BASE` -/
def nocScratchBufferBase : Nat := 0x30000000

/-- The options of the configuration: `NOC_DMA_TRANSFER_QUEUE_SIZE`, and whether transfers in the
same memory are made by way of the scratch buffer. -/
structure NocConfig where
  queueSize : Nat
  workaround : Bool
  range : queueSize < 2 ^ 32

/-- `struct noc_dma_transfer`, without its node; a callback is an address. -/
structure NocDmaTransfer where
  src : Nat
  dst : Nat
  xElem : Nat
  yElem : Nat
  elemSize : Nat
  xStrideSrc : Nat
  xStrideDst : Nat
  yStrideSrc : Nat
  yStrideDst : Nat
  mtu : Nat
  irqFwd : Nat
  priority : Nat
  callback : Nat
  userdata : Nat

/-- `struct noc_dma_channel_ctrl` -/
structure NocDmaChannelCtrl where
  maxPktSz : Nat
  accSz : Nat
  irqFwd : Nat
  priority : Nat

/-- The words of `struct noc_dma_channel` that are written. -/
structure NocDmaChannel where
  start : Nat
  ctrl : NocDmaChannelCtrl
  dst : Nat
  src : Nat
  sizes : Nat
  stridesX : Nat
  stridesY : Nat

/-- A member of the list of free channels: a node of `dma_channel_pool`, or what a function takes
for one that looks for it at the address of its own variable for the channel `c`.  In its frame on
the stack, the word that is taken for the `channel` field is that variable. -/
inductive NocDmaChannelNode
  | pool (i : Nat)
  | frame (c : Nat)
deriving DecidableEq

structure NocDma where
  chan : Nat → NocDmaChannel
  /-- the `transfer` fields of `dma_channel_pool` -/
  transfer : Nat → Option Nat
  /-- `dma_transfer_pool` -/
  item : Nat → NocDmaTransfer
  channelPool : List NocDmaChannelNode
  transferPool : List Nat
  transferQueue : List Nat
  transfersQueued : Nat
  transfersRequested : Nat
  transfersCompleted : Nat
  reserved : List Nat

namespace NocDma

def setChan (s : NocDma) (c : Nat) (v : NocDmaChannel) : NocDma :=
  { s with chan := Function.update s.chan c v }

def setItem (s : NocDma) (t : Nat) (v : NocDmaTransfer) : NocDma :=
  { s with item := Function.update s.item t v }

end NocDma

/-- `NOC_DMA_STRIDES(src, dst)` -/
def nocDmaStrides (src dst : Nat) : Nat := src % 2 ^ 16 * 2 ^ 16 + dst % 2 ^ 16

/-- `NOC_DMA_SIZES(x, y)` -/
def nocDmaSizes (x y : Nat) : Nat := y % 2 ^ 16 * 2 ^ 16 + x % 2 ^ 16

/-- The addresses are in the same memory. -/
def nocSameMemory (dst src : Nat) : Prop := dst &&& 0xF0000000 = src &&& 0xF0000000

instance (dst src : Nat) : Decidable (nocSameMemory dst src) :=
  inferInstanceAs (Decidable (_ = _))

/-- Whether a channel is busy, each time its status is read while a transfer is set up. -/
abbrev NocDmaBusy := Nat → Nat → Bool

/-! ## 2. A transfer on a channel -/

/-- `noc_dma_set_config`; its result is not looked at. -/
def nocDmaSetConfig (busy : NocDmaBusy) (s : NocDma) (c : Nat) (ctrl : NocDmaChannelCtrl) :
    NocDma :=
  if busy c 1 then s else s.setChan c { s.chan c with ctrl }

def nocDmaInitTransfer (busy : NocDmaBusy) (s : NocDma) (c t : Nat) : Nat × NocDma :=
  if busy c 0 then (wsub 0 EBUSY, s)
  else if nocSameMemory (s.item t).dst (s.item t).src then (wsub 0 EINVAL, s)
  else
    let x := s.item t
    let s := s.setChan c { s.chan c with
      src := x.src
      dst := x.dst
      stridesX := nocDmaStrides x.xStrideSrc x.xStrideDst
      stridesY := nocDmaStrides x.yStrideSrc x.yStrideDst
      sizes := nocDmaSizes x.xElem x.yElem }
    (0, nocDmaSetConfig busy s c ⟨x.mtu, x.elemSize, x.irqFwd, x.priority⟩)

def nocDmaStartTransfer (busy : NocDmaBusy) (s : NocDma) (c : Nat) : Nat × NocDma :=
  if busy c 2 then (wsub 0 EBUSY, s) else (0, s.setChan c { s.chan c with start := 1 })

def nocDmaReleaseChannelNode (s : NocDma) : NocDmaChannelNode → NocDma
  | .pool i =>
    { s with
      transfer := Function.update s.transfer i none
      channelPool := s.channelPool ++ [.pool i] }
  | .frame c => { s with channelPool := s.channelPool ++ [.frame c] }

def nocDmaReleaseTransfer (s : NocDma) (t : Nat) : NocDma :=
  { s.setItem t { s.item t with callback := 0, userdata := 0 } with
    transferPool := s.transferPool ++ [t] }

/-- `noc_dma_execute_transfer`: the node it gives back is not that of the channel. -/
def nocDmaExecuteTransfer (busy : NocDmaBusy) (s : NocDma) (c t : Nat) : Nat × NocDma :=
  match nocDmaInitTransfer busy s c t with
  | (0, s) => nocDmaStartTransfer busy s c
  | (ret, s) => (ret, nocDmaReleaseChannelNode (nocDmaReleaseTransfer s t) (.frame c))

/-- `noc_dma_request_channel`: the channel, if there is one. -/
def nocDmaRequestChannel (s : NocDma) (t : Option Nat) : Option Nat × NocDma :=
  match s.channelPool with
  | [] => (none, s)
  | .pool i :: ns =>
    (some i, { s with
      channelPool := ns
      transfer := Function.update s.transfer i t
      transfersRequested := wadd s.transfersRequested 1 })
  | .frame c :: ns =>
    (some c, { s with
      channelPool := ns
      transfersRequested := wadd s.transfersRequested 1 })

/-- The loop of `noc_dma_program_transfer`, from the members `ts` of the queue on. -/
def nocDmaProgramFrom (busy : NocDmaBusy) (s : NocDma) : List Nat → NocDma
  | [] => s
  | t :: ts =>
    match nocDmaRequestChannel s (some t) with
    | (none, s) => s
    | (some c, s) =>
      let s := { s with transferQueue := s.transferQueue.erase t }
      let s := (nocDmaExecuteTransfer busy s c t).2
      nocDmaProgramFrom busy { s with transfersQueued := wsub s.transfersQueued 1 } ts

def nocDmaProgramTransfer (busy : NocDmaBusy) (s : NocDma) : NocDma :=
  nocDmaProgramFrom busy s s.transferQueue

/-! ## 3. The calls -/

def nocDmaRegisterTransfer (busy : NocDmaBusy) (s : NocDma) (t : Nat) : NocDma :=
  let s := { s with transferQueue := s.transferQueue ++ [t] }
  let s := nocDmaProgramTransfer busy s
  { s with transfersQueued := wadd s.transfersQueued 1 }

def nocDmaGetTransferSlot (s : NocDma) : Option Nat × NocDma :=
  match s.transferPool with
  | [] => (none, s)
  | t :: ts => (some t, { s with transferPool := ts })

/-- What is left of `noc_dma_req_xfer` behind the checks of the arguments. -/
def nocDmaQueueXfer (busy : NocDmaBusy) (s : NocDma) (x : NocDmaTransfer) : Nat × NocDma :=
  match nocDmaGetTransferSlot s with
  | (none, s) => (wsub 0 EBUSY, s)
  | (some t, s) => (0, nocDmaRegisterTransfer busy (s.setItem t { x with irqFwd := 1 }) t)

/-- `noc_dma_req_xfer`, with its arguments as a transfer.  Where it calls itself, the arguments pass
the checks, and the memories differ. -/
def nocDmaReqXfer (cfg : NocConfig) (busy : NocDmaBusy) (s : NocDma) (x : NocDmaTransfer) :
    Nat × NocDma :=
  if x.src = 0 ∨ x.dst = 0 ∨ x.xElem = 0 ∨ x.yElem = 0 then (wsub 0 EINVAL, s)
  else if cfg.workaround ∧ nocSameMemory x.dst x.src then
    if nocSameMemory x.src nocScratchBufferBase then (wsub 0 EINVAL, s)
    else
      match nocDmaQueueXfer busy s
        { x with dst := nocScratchBufferBase, priority := 1, callback := 0, userdata := 0 } with
      | (0, s) => nocDmaQueueXfer busy s { x with src := nocScratchBufferBase, priority := 0 }
      | (ret, s) => (ret, s)
  else nocDmaQueueXfer busy s x

def nocDmaReserveChannel (s : NocDma) : Option Nat × NocDma :=
  match nocDmaRequestChannel s none with
  | (none, s) => (none, s)
  | (some c, s) => (some c, { s with reserved := c :: s.reserved })

/-- `noc_dma_release_channel`: the node it gives back is not that of the channel. -/
def nocDmaReleaseChannel (s : NocDma) (c : Option Nat) : NocDma :=
  match c with
  | none => s
  | some c => nocDmaReleaseChannelNode { s with reserved := s.reserved.erase c } (.frame c)

/-- What tasks and callbacks call. -/
inductive NocDmaCall
  | reqXfer (busy : NocDmaBusy) (x : NocDmaTransfer)
  | reserve
  | release (c : Option Nat)

def nocDmaCall (cfg : NocConfig) (s : NocDma) : NocDmaCall → NocDma
  | .reqXfer busy x => (nocDmaReqXfer cfg busy s x).2
  | .reserve => (nocDmaReserveChannel s).2
  | .release c => nocDmaReleaseChannel s c

/-- `noc_dma_service_irq_handler` for the node `i`, with the calls of the callback: there is no
result where the node has no transfer. -/
def nocDmaServiceIrqHandler (cfg : NocConfig) (busy : NocDmaBusy) (s : NocDma) (i : Nat)
    (calls : List NocDmaCall) : Option NocDma :=
  match s.transfer i with
  | none => none
  | some t =>
    let s := if (s.item t).callback ≠ 0 then calls.foldl (nocDmaCall cfg) s else s
    let s := nocDmaReleaseTransfer s t
    let s := nocDmaReleaseChannelNode s (.pool i)
    let s := { s with transfersCompleted := wadd s.transfersCompleted 1 }
    some (nocDmaProgramTransfer busy s)

/-- `noc_dma_init` -/
def nocDmaInit (cfg : NocConfig) (chan : Nat → NocDmaChannel) (item : Nat → NocDmaTransfer) :
    NocDma where
  chan := chan
  transfer _ := none
  item := item
  channelPool := (List.range nocDmaChannels).map .pool
  transferPool := List.range cfg.queueSize
  transferQueue := []
  transfersQueued := 0
  transfersRequested := 0
  transfersCompleted := 0
  reserved := []

end FlightOs
