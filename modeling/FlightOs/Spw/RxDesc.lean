/-
# Receive descriptors

A SpaceWire core (`kernel/grspw2.c`) stores the packets it receives in the buffers of its receive
descriptors, one after the other in the order of their table, and clears their enable bits.  The
driver keeps the descriptors in two rings, of those in use and of the free ones; it takes packets
from the head of the first, moves the descriptor to the tail of the second, and puts the head of that
one to use again.

Descriptors are named by their numbers in the table.  The buffers are apart from each other, and from
those of the callers; each is a function on the addresses from `pkt_addr` on.
-/
import FlightOs.Spw.TxDesc
import Mathlib.Data.UInt

namespace FlightOs

/-! ## 1. The descriptors and their rings -/

/-- `struct grspw2_rx_desc`, with what lies in its buffer; the flags for errors are left out. -/
structure RxDesc where
  interruptEnable : Bool
  wrap : Bool
  enable : Bool
  pktSize : Nat
  pktAddr : Nat
  buf : Nat → UInt8

/-- The receiving side of `struct grspw2_core_cfg`, the bit `GRSPW2_DMACONTROL_RI` as `rxIrq`, an
interrupt that waits to be served, and the descriptor that the core is at. -/
structure RxCore where
  rxNDesc : Nat
  desc : Nat → RxDesc
  rxDescRingFree : List Nat
  rxDescRingUsed : List Nat
  stripHdrBytes : Nat
  rxBytes : Nat
  autoDrop : Bool
  nDrop : Nat
  idxDrop : Nat
  rxIrq : Bool
  irqPending : Bool
  hwDesc : Nat

def grspw2RxDescriptors : Nat := 128

def grspw2MaxMtu : Nat := 0x1fffffc

/-- `grspw2_rx_desc_table_init`: the control word is the size of a buffer. -/
def grspw2RxDescTableInit (buf : Nat → Nat → UInt8) (tblSize pktBuf pktSize stripHdrBytes : Nat) :
    RxCore where
  rxNDesc := min (tblSize / 8) grspw2RxDescriptors
  desc := fun i => ⟨pktSize.testBit 27, pktSize.testBit 26, pktSize.testBit 25, pktSize % 2 ^ 25,
    wadd pktBuf (i * pktSize), buf i⟩
  rxDescRingFree := List.range (min (tblSize / 8) grspw2RxDescriptors)
  rxDescRingUsed := []
  stripHdrBytes := stripHdrBytes
  rxBytes := 0
  autoDrop := false
  nDrop := 0
  idxDrop := 0
  rxIrq := false
  irqPending := false
  hwDesc := 0

/-- `grspw2_rx_desc_move_free` -/
def grspw2RxDescMoveFree (s : RxCore) (i : Nat) : RxCore :=
  { s with
    rxDescRingUsed := s.rxDescRingUsed.erase i
    rxDescRingFree := s.rxDescRingFree ++ [i] }

/-- The wrap bit is set on the last descriptor of the table, and before the enable bit. -/
def RxDesc.activate (d : RxDesc) (last : Bool) : RxDesc :=
  { d with wrap := last || d.wrap, pktSize := 0, enable := true }

def grspw2RxDescAdd (s : RxCore) : Int × RxCore :=
  match s.rxDescRingFree with
  | [] => (-1, s)
  | i :: free =>
    (0, { s with
      desc := Function.update s.desc i ((s.desc i).activate (decide (i = s.rxNDesc - 1)))
      rxDescRingFree := free
      rxDescRingUsed := s.rxDescRingUsed ++ [i] })

def grspw2RxDescReadd (s : RxCore) (i : Nat) : Int × RxCore :=
  grspw2RxDescAdd (grspw2RxDescMoveFree s i)

/-- The loop of `grswp2_rx_desc_add_all`. -/
def rxDescAddAll : Nat → RxCore → RxCore
  | 0, s => s
  | n + 1, s =>
    let r := grspw2RxDescAdd s
    if r.1 ≠ 0 then r.2 else rxDescAddAll n r.2

/-- `grspw2_core_start`, as far as the descriptors are concerned. -/
def grspw2CoreStart (s : RxCore) : RxCore := rxDescAddAll s.rxNDesc s

/-- The core stores a packet, if the descriptor it is at is enabled, and goes on to the next one.  The
size of a packet fits its field. -/
def rxReceive (s : RxCore) (data : List UInt8) : Option RxCore :=
  let d := s.desc s.hwDesc
  if grspw2MaxMtu < data.length ∨ d.enable = false then none
  else
    some { s with
      desc := Function.update s.desc s.hwDesc
        { d with enable := false, pktSize := data.length, buf := fun k => data.getD k (d.buf k) }
      irqPending := s.irqPending || (d.interruptEnable && s.rxIrq)
      hwDesc := if d.wrap then 0 else s.hwDesc + 1 }

/-! ## 2. Interrupts for dropping packets -/

/-- `grspw2_rx_desc_set_irq`, `grspw2_rx_desc_clear_irq` -/
def rxDescIrq (s : RxCore) (i : Nat) (on : Bool) : RxCore :=
  { s with desc := Function.update s.desc i { s.desc i with interruptEnable := on } }

/-- An index that has been advanced. -/
def rxIdxWrap (s : RxCore) (idx : Nat) : Nat := if s.rxNDesc ≤ idx then idx - s.rxNDesc else idx

/-- The loop of `grspw2_auto_drop_call`. -/
def rxDropLoop : Nat → RxCore → RxCore
  | 0, s => s
  | n + 1, s =>
    match s.rxDescRingUsed with
    | [] => s
    | i :: _ =>
      let s := { s with rxBytes := wadd s.rxBytes (s.desc i).pktSize }
      rxDropLoop n (grspw2RxDescReadd s i).2

def grspw2AutoDropCall (s : RxCore) : RxCore :=
  let s := rxDescIrq s s.idxDrop false
  let idx := rxIdxWrap s (s.idxDrop + s.nDrop)
  let s := { rxDescIrq s idx true with idxDrop := idx }
  rxDropLoop s.nDrop s

/-- There is no result without a descriptor in use. -/
def grspw2AutoDropEnable (s : RxCore) (nDrop : Nat) : Option (Int × RxCore) :=
  if s.autoDrop then some (-1, s)
  else
    match s.rxDescRingUsed with
    | [] => none
    | i :: _ =>
      -- clamp, we want to have at least one useable slot
      let nDrop := if s.rxNDesc ≤ nDrop then (s.rxNDesc - 1) % 2 ^ 8 else nDrop
      let idx := rxIdxWrap s (i + nDrop)
      let s := { s with nDrop := nDrop, autoDrop := true, idxDrop := idx }
      some (0, { rxDescIrq s idx true with rxIrq := true })

def grspw2AutoDropDisable (s : RxCore) : Int × RxCore :=
  if s.autoDrop = false then (-1, s) else (0, { s with rxIrq := false, autoDrop := false })

/-- We picked up one packet, move the IE flag by one. -/
def rxDropAdvance (s : RxCore) : RxCore :=
  let idx := rxIdxWrap s (s.idxDrop + 1)
  let s := { rxDescIrq s s.idxDrop false with idxDrop := idx }
  rxDescIrq s idx true

/-! ## 3. Taking packets -/

/-- The interrupt is disabled or enabled where packets are dropped. -/
def rxIrqSet (s : RxCore) (on : Bool) : RxCore := if s.autoDrop then { s with rxIrq := on } else s

/-- The head of the descriptors in use is counted and added again. -/
def rxTakeHead (s : RxCore) (i : Nat) : RxCore :=
  let s := { s with rxBytes := wadd s.rxBytes (s.desc i).pktSize }
  let s := (grspw2RxDescReadd s i).2
  if s.autoDrop then rxDropAdvance s else s

/-- `grspw2_get_pkt`; `pkt` says whether there is a buffer.  With the size come the bytes copied. -/
def grspw2GetPkt (s : RxCore) (pkt : Bool) : RxCore × Nat × List UInt8 :=
  let s := rxIrqSet s false
  let r : RxCore × Nat × List UInt8 :=
    match s.rxDescRingUsed with
    | [] => (s, 0, [])
    | i :: _ =>
      let d := s.desc i
      -- still active
      if d.enable then (s, 0, [])
      else
        let pktSize := wsub d.pktSize s.stripHdrBytes
        if pkt = false then (s, pktSize, [])
        else
          (rxTakeHead s i, pktSize,
            (List.range pktSize).map fun k => d.buf (s.stripHdrBytes + k))
  (rxIrqSet r.1 true, r.2)

/-- The interrupt is not enabled again where there is nothing to drop. -/
def grspw2DropPkt (s : RxCore) : RxCore × Nat :=
  let s := rxIrqSet s false
  match s.rxDescRingUsed with
  | [] => (s, 0)
  | i :: _ =>
    if (s.desc i).enable then (s, 0)
    else (rxIrqSet (rxTakeHead s i) true, 1)

/-! ## 4. Routing -/

/-- What a transmit descriptor makes the core send. -/
structure TxSent where
  hdrSize : Nat
  data : List UInt8
  headerCrc : Bool
  dataCrc : Bool
  deriving DecidableEq, Repr

def TxDesc.sent (d : TxDesc) (buf : Nat → UInt8) : TxSent :=
  ⟨d.hdrSize, (List.range d.dataSize).map buf, d.appendHeaderCrc, d.appendDataCrc⟩

/-- What has become of a packet received: it has been copied to the caller, dropped, or read from its
buffer and queued in a transmit descriptor. -/
inductive RxTaken
  | got (pktSize : Nat) (bytes : List UInt8)
  | dropped
  | routed (bytes : List UInt8) (sent : TxSent)
  deriving DecidableEq, Repr

/-- A core that receives, the sending side of the one it routes to, with the buffers for the data, and
what has been received and taken, in order. -/
structure RxSys where
  rx : RxCore
  tx : TxCore
  txBuf : Nat → Nat → UInt8
  received : List (List UInt8)
  taken : List RxTaken

/-- The bytes of a packet in its buffer. -/
def RxDesc.bytes (d : RxDesc) : List UInt8 := (List.range d.pktSize).map d.buf

/-- The body of the loop in `grspw2_route`, and whether the loop goes on. -/
def grspw2RouteTurn (s : RxSys) : RxSys × Bool :=
  match s.rx.rxDescRingUsed with
  | [] => (s, false)
  | i :: _ =>
    let d := s.rx.desc i
    if d.enable then (s, false)
    else
      let r := grspw2TxDescAddPkt s.tx (routedPkt d.pktAddr d.pktSize)
      if r.1 ≠ 0 then ({ s with tx := r.2 }, false)
      else
        -- the descriptor that has been queued is the last one in use
        let j := r.2.txDescRingUsed.getLastD 0
        let data := fun k => if k < d.pktSize then d.buf k else s.txBuf j k
        ({ s with
          tx := r.2
          txBuf := Function.update s.txBuf j data
          rx := (grspw2RxDescReadd s.rx i).2
          taken := s.taken ++ [.routed d.bytes ((r.2.desc j).sent data)] }, true)

/-- The loop of `grspw2_route`.  The entry after the current one has been fetched before it is moved,
and the current one is the first: the loop ends where it was the only one. -/
def rxRouteLoop : Nat → RxSys → RxSys
  | 0, s => s
  | n + 1, s =>
    let r := grspw2RouteTurn s
    if r.2 = false ∨ s.rx.rxDescRingUsed.length = 1 then r.1 else rxRouteLoop n r.1

/-- `grspw2_route`, where nothing is received meanwhile: then no descriptor is met twice. -/
def grspw2RouteCall (s : RxSys) : RxSys :=
  let s := rxRouteLoop (s.rx.rxDescRingUsed.length + 1) s
  { s with tx := grspw2TxDescMoveFreeAll s.tx }

/-! ## 5. Runs without dropping -/

/-- A call, the turn of a loop or its end, a packet received, or what the other core does. -/
inductive RxOp
  | coreStart
  | receive (data : List UInt8)
  | getPkt (pkt : Bool)
  | dropPkt
  | routeTurn
  | routeEnd
  | tx (o : TxOp)

/-- A packet waits at the head. -/
def RxCore.filledHead (s : RxCore) : Bool := s.rxDescRingUsed.head?.any fun i => !(s.desc i).enable

/-- A step.  A packet that finds no enabled descriptor waits. -/
def rxStep (s : RxSys) : RxOp → Option RxSys
  | .coreStart => some { s with rx := grspw2CoreStart s.rx }
  | .receive data =>
    (rxReceive s.rx data).map fun rx => { s with rx := rx, received := s.received ++ [data] }
  | .getPkt pkt =>
    let r := grspw2GetPkt s.rx pkt
    -- a packet has been taken if there was one, and a buffer for it
    let took := pkt && s.rx.filledHead
    some { s with rx := r.1, taken := s.taken ++ if took then [.got r.2.1 r.2.2] else [] }
  | .dropPkt =>
    let r := grspw2DropPkt s.rx
    some { s with rx := r.1, taken := s.taken ++ if r.2 = 1 then [.dropped] else [] }
  | .routeTurn => some (grspw2RouteTurn s).1
  | .routeEnd => some { s with tx := grspw2TxDescMoveFreeAll s.tx }
  | .tx o => some { s with tx := txStep s.tx o }

/-- A table has been set up, of one descriptor at least, and with buffers that lie in memory. -/
def RxSys.Init (s : RxSys) : Prop :=
  ∃ buf tblSize pktBuf pktSize strip, 8 ≤ tblSize ∧ pktSize ≤ grspw2MaxMtu ∧
    0 < pktBuf ∧ pktBuf < 2 ^ 32 ∧
    pktBuf + min (tblSize / 8) grspw2RxDescriptors * pktSize ≤ 2 ^ 32 ∧
    s.rx = grspw2RxDescTableInit buf tblSize pktBuf pktSize strip ∧ s.received = [] ∧ s.taken = []

def rxSystem : System RxSys RxOp := .ofFun RxSys.Init rxStep

end FlightOs
