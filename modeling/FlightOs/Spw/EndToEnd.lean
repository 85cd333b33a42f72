/-
# Routing from one link to the other

The interrupt handler `grspw2_route` stands between two rings: the core it is called for stores packets
in one, the core it routes to sends what is in the other.  It runs between any two steps of the cores,
and only when an interrupt is due, which is raised by a packet that is stored.

* `routing_delivers`: in every state of every run the packets received are those sent, those in the
  transmit ring, and those in the receive ring, in this order and byte for byte.
* `routing_prompt_iff`: packets wait only while the handler runs, or is going to run, if and only if no
  run of it ends because the transmit ring is full, without an interrupt due.
* `routing_jams`: for all sizes of the two rings there is a run that such an end leads to a state where
  packets wait, and nothing happens ever again; that no more receive descriptors are in use than there
  are transmit descriptors does not keep it from this.
-/
import FlightOs.Spw.Routing
import FlightOs.Spw.TxRing

namespace FlightOs

/-! ## 1. The two cores and the handler -/

/-- The receiving side of a core, the transmitting side of the one it routes to, whether the handler
runs, and the packets received. -/
structure RouteSys where
  rx : RxCore
  tx : TxSys
  running : Bool
  received : List (List UInt8)

/-- The memory, as far as the buffer of a descriptor goes. -/
def RxDesc.mem (d : RxDesc) (a : Nat) : UInt8 := d.buf (a - d.pktAddr)

/-- The body of the loop in `grspw2_route`, and whether the loop goes on. -/
def RouteSys.turn (s : RouteSys) : RouteSys × Bool :=
  match s.rx.rxDescRingUsed with
  | [] => (s, false)
  | i :: _ =>
    let d := s.rx.desc i
    if d.enable then (s, false)
    else
      let p := routedPkt d.pktAddr d.pktSize
      let r := grspw2TxDescAddPkt s.tx.tx p
      let tx := s.tx.called r p d.mem
      if r.1 ≠ 0 then ({ s with tx := tx }, false)
      else ({ s with tx := tx, rx := (grspw2RxDescReadd s.rx i).2 }, true)

/-- A packet is received, or the handler is called, or goes on; or the other core sends. -/
inductive RouteSysOp
  | receive (data : List UInt8)
  | irq
  | turn
  | send (linkError : Bool)

/-- A packet that finds no enabled descriptor waits.  The loop also ends behind an entry that was the
only one, since its successor has been read before it is moved. -/
def routeSysStep (s : RouteSys) : RouteSysOp → RouteSys
  | .receive data =>
    match rxReceive s.rx data with
    | none => s
    | some rx => { s with rx := rx, received := s.received ++ [data] }
  | .irq =>
    if s.running = false ∧ s.rx.irqPending = true then
      { s with rx := { s.rx with irqPending := false }, running := true }
    else s
  | .turn =>
    if s.running = true then
      let r := s.turn
      if r.2 = false ∨ s.rx.rxDescRingUsed.length = 1 then
        { r.1 with tx := r.1.tx.collected, running := false }
      else r.1
    else s
  | .send linkError => { s with tx := s.tx.send linkError }

/-- `grspw2_enable_routing`, on a core that runs. -/
def RouteSys.start (rx : RxCore) (tx : TxSys) : RouteSys where
  rx := grspw2EnableRouting rx tx.tx.txNDesc
  tx := tx
  running := false
  received := []

/-- What goes over the link for a packet that is forwarded. -/
def forwardedWire (p : List UInt8) : TxWire := ⟨[], p, false, false, 0⟩

/-- The packets received are those sent, those in the enabled transmit descriptors, and those in the
filled receive descriptors. -/
def RouteSys.Delivers (s : RouteSys) : Prop :=
  ∃ done active filled empty,
    s.tx.tx.txDescRingUsed = done ++ active ∧ (∀ i ∈ done, (s.tx.tx.desc i).enable = false) ∧
    (∀ i ∈ active, (s.tx.tx.desc i).enable = true) ∧
    s.rx.rxDescRingUsed = filled ++ empty ∧ (∀ i ∈ filled, (s.rx.desc i).enable = false) ∧
    (∀ i ∈ empty, (s.rx.desc i).enable = true) ∧
    s.received.map forwardedWire = s.tx.sent.map Prod.snd ++
      (active.map s.tx.wireAt ++ filled.map fun i => forwardedWire (s.rx.desc i).bytes)

/-- A packet fits the buffer of a transmit descriptor, and the field for its size. -/
def RouteSysFits (s : RouteSys) : RouteSysOp → Prop
  | .receive data => data.length ≤ s.tx.dataSize ∧ data.length < 2 ^ 24
  | _ => True

/-- A packet waits in the receive ring. -/
def RouteSys.Waits (s : RouteSys) : Prop := ∃ i ∈ s.rx.rxDescRingUsed, (s.rx.desc i).enable = false

/-- If a packet waits, the handler runs, or is going to run. -/
def RouteSys.Prompt (s : RouteSys) : Prop := s.Waits → s.running = true ∨ s.rx.irqPending = true

/-- A turn that meets a packet has a transmit descriptor for it, or an interrupt is due anyway. -/
def RouteSysTakes (s : RouteSys) : RouteSysOp → Prop
  | .turn => s.running = true → s.rx.irqPending = false → s.Waits →
      (grspw2TxDescMoveFreeAll s.tx.tx).txDescRingFree ≠ []
  | _ => True

/-- All that is received are copies of one packet. -/
def RouteSysOp.Brings (data : List UInt8) : RouteSysOp → Prop
  | .receive d => d = data
  | _ => True

/-! ## 2. A turn -/

section Turn

variable {s : RouteSys} {h u f : Nat}

/-- The packet that a descriptor is forwarded as. -/
def RxDesc.routed (d : RxDesc) : TxPkt := routedPkt d.pktAddr d.pktSize

/-- The call asks for the bytes in the buffer, and nothing else. -/
theorem RxDesc.wire_routed (d : RxDesc) : d.routed.wire d.mem = forwardedWire d.bytes := by
  simp [RxDesc.routed, routedPkt, TxPkt.wire, forwardedWire, RxDesc.bytes, RxDesc.mem]

/-- **What a turn can do**: nothing waits, or the transmit ring is full, or the first packet goes there. -/
theorem RouteSys.turn_cases (hr : s.rx.Rings h u f) (hp : s.rx.Placed) :
    (f = 0 ∧ s.turn = (s, false)) ∨
    (0 < f ∧ s.tx.collected.tx.txDescRingFree = [] ∧
      s.turn = ({ s with tx := s.tx.collected }, false)) ∨
    ∃ f' i free, f = f' + 1 ∧ s.tx.collected.tx.txDescRingFree = i :: free ∧
      s.turn = ({ s with
        tx := s.tx.collected.put i (s.rx.desc h).routed (s.rx.desc h).mem
        rx := (grspw2RxDescReadd s.rx h).2 }, true) := by
  unfold RouteSys.turn
  rcases hr.head_cases with ⟨-, hf, hnil⟩ | ⟨rest, hcons, -, henable⟩
  · rw [hnil]
    exact .inl ⟨hf, rfl⟩
  · rw [hcons]
    dsimp only
    rw [henable]
    cases f with
    | zero => exact .inl ⟨rfl, if_pos rfl⟩
    | succ f =>
      rw [if_neg (by simp)]
      refine .inr ?_
      rcases grspw2TxDescAddPkt_cases s.tx.tx (routedPkt (s.rx.desc h).pktAddr (s.rx.desc h).pktSize)
        with ⟨-, ⟨hzero, -⟩ | ⟨-, hnull⟩⟩ | ⟨hbufs, ⟨hnone, heq⟩ | ⟨i, free, -, hfree, -⟩⟩
      · exact absurd rfl hzero
      · exact absurd hnull (hp h hr.head)
      · rw [heq]
        refine .inl ⟨Nat.succ_pos f, hnone, ?_⟩
        rw [if_pos (show (-1 : Int) ≠ 0 by decide), TxSys.called, if_pos (show (-1 : Int) ≠ 0 by decide)]
        rfl
      · have htail : free = (grspw2TxDescMoveFreeAll s.tx.tx).txDescRingFree.tail := by
          rw [hfree, List.tail_cons]
        refine .inr ⟨f, i, free, rfl, hfree, ?_⟩
        rw [grspw2TxDescAddPkt_taken hbufs hfree, if_neg (not_not.mpr rfl), htail, TxSys.called,
          if_neg (not_not.mpr rfl)]
        simp only [List.getLastD_concat]
        rfl

end Turn

/-! ## 3. What is received is sent -/

/-- The receiving side, with the packets queued on the other one as taken. -/
def RouteSys.view (s : RouteSys) : RxSys where
  rx := s.rx
  tx := s.tx.tx
  txBuf := fun _ _ => 0
  received := s.received
  taken := s.tx.queued.map fun e => .routed e.2.data ⟨0, e.2.data, false, false⟩

/-- A transmit descriptor that has been used for forwarding only. -/
def TxDesc.Bare (d : TxDesc) : Prop :=
  d.appendHeaderCrc = false ∧ d.appendDataCrc = false ∧ d.nonCrcBytes = 0

/-- The invariant: both rings are in order, and raise interrupts; in the runs where every packet fits,
`whole`, the bytes are those received, too. -/
structure RouteSys.Inv (whole : Prop) (s : RouteSys) (h u f h' u' f' : Nat) : Prop where
  rx : s.view.Fifo h u f
  tx : s.tx.Fifo whole h' u' f'
  placed : s.rx.Placed
  armed : s.rx.rxIrq = true ∧ ∀ i < s.rx.rxNDesc, (s.rx.desc i).interruptEnable = true
  bare : ∀ i, (s.tx.tx.desc i).Bare
  wires : ∀ e ∈ s.tx.queued, e.2 = forwardedWire e.2.data
  fits : whole → ∀ p ∈ s.received, p.length ≤ s.tx.dataSize ∧ p.length < 2 ^ 24

section Runs

variable {whole : Prop} {s : RouteSys} {h u f h' u' f' : Nat}

/-- What has been queued is a prefix of what has been received. -/
theorem RouteSys.Inv.received_eq (hi : s.Inv whole h u f h' u' f') :
    s.received = s.tx.queued.map (fun e => e.2.data) ++ s.rx.pending h f := by
  have hall : List.Forall₂ Eq (s.tx.queued.map fun e => e.2.data)
      (s.received.take s.view.taken.length) := by
    have htaken := hi.rx.taken
    rw [RouteSys.view, List.forall₂_map_left_iff] at htaken
    rw [List.forall₂_map_left_iff]
    exact htaken
  rw [List.forall₂_eq_eq_eq] at hall
  rw [hall]
  exact ((List.take_append_drop _ _).symm.trans (congrArg _ hi.rx.pending))

theorem RouteSys.Inv.delivers (hi : s.Inv True h u f h' u' f') : s.Delivers := by
  obtain ⟨hused, hdone, hactive⟩ := hi.tx.rings.split
  obtain ⟨filled, empty, hring, hfilled, hempty, -, hpending⟩ := hi.rx.inOrder.order
  refine ⟨_, _, filled, empty, hused, hdone, hactive, hring, hfilled, hempty, ?_⟩
  have hqueued : (s.tx.queued.map fun e => e.2.data).map forwardedWire = s.tx.queued.map Prod.snd := by
    rw [List.map_map]
    exact List.map_congr_left fun e he => (hi.wires e he).symm
  have hwires : s.tx.queued.map Prod.snd =
      s.tx.sent.map Prod.snd ++ (s.tx.active h' u' f').map s.tx.wireAt := by
    rw [hi.tx.wires trivial, List.map_append, List.map_map]
    rfl
  have hrest : s.rx.pending h f = filled.map fun i => (s.rx.desc i).bytes :=
    hi.rx.pending.symm.trans hpending.symm
  calc s.received.map forwardedWire
      = ((s.tx.queued.map fun e => e.2.data) ++ s.rx.pending h f).map forwardedWire := by
        rw [← hi.received_eq]
    _ = s.tx.queued.map Prod.snd ++ (s.rx.pending h f).map forwardedWire := by
        rw [List.map_append, hqueued]
    _ = _ := by
        rw [hwires, hrest, List.map_map, List.append_assoc]
        rfl

/-- A packet is stored behind those that wait, and its interrupt is due. -/
theorem RouteSys.Inv.receive (hi : s.Inv whole h u f h' u' f') {data : List UInt8} {rx : RxCore}
    (hrx : rxReceive s.rx data = some rx)
    (hfit : whole → data.length ≤ s.tx.dataSize ∧ data.length < 2 ^ 24) :
    RouteSys.Inv whole { s with rx := rx, received := s.received ++ [data] } h u (f + 1) h' u' f' ∧
      rx.irqPending = true := by
  have hframe := rxReceive_framed hrx
  refine ⟨⟨hi.rx.receive hrx, hi.tx, hi.placed.framed hframe, ⟨?_, fun i hlt => ?_⟩, hi.bare, hi.wires,
    fun hw p hp => ?_⟩, ?_⟩
  · rw [hframe.rxIrq]
    exact hi.armed.1
  · rw [(hframe.desc i).1]
    exact hi.armed.2 i (hframe.rxNDesc ▸ hlt)
  · rcases List.mem_append.mp hp with hp | hp
    · exact hi.fits hw p hp
    · rw [List.mem_singleton.mp hp]
      exact hfit hw
  · have hlt : s.rx.hwDesc < s.rx.rxNDesc := by
      have hhw := hi.rx.rings.hw
      rw [show s.rx.hwDesc = _ from hhw]
      exact circle_lt (Nat.zero_lt_of_lt hi.rx.rings.head)
    unfold rxReceive at hrx
    dsimp only at hrx
    split at hrx
    · cases hrx
    · rw [← Option.some.inj hrx]
      dsimp only
      rw [hi.armed.2 _ hlt, hi.armed.1]
      simp

/-- The handler starts, or ends. -/
theorem RouteSys.Inv.handler (hi : s.Inv whole h u f h' u' f') (irqPending running : Bool) :
    RouteSys.Inv whole { s with rx := { s.rx with irqPending := irqPending }, running := running }
      h u f h' u' f' :=
  ⟨⟨hi.rx.rings.congr rfl rfl rfl rfl fun _ => ⟨rfl, rfl⟩, hi.rx.pending, hi.rx.taken, hi.rx.mtu⟩, hi.tx,
    hi.placed, hi.armed, hi.bare, hi.wires, hi.fits⟩

/-- The other core is looked at. -/
theorem RouteSys.Inv.collect (hi : s.Inv whole h u f h' u' f') :
    RouteSys.Inv whole { s with tx := s.tx.collected } h u f
      (circle s.tx.tx.txNDesc h' f') (u' - f') 0 :=
  ⟨⟨hi.rx.rings, hi.rx.pending, hi.rx.taken, hi.rx.mtu⟩, hi.tx.collect, hi.placed, hi.armed, hi.bare,
    hi.wires, hi.fits⟩

/-- A packet is queued: it leaves the receive ring, and is the last one in the other. -/
theorem RouteSys.Inv.put (hi : s.Inv whole h u (f + 1) h' u' 0) (hu : u' < s.tx.tx.txNDesc) :
    RouteSys.Inv whole { s with
      tx := s.tx.put (circle s.tx.tx.txNDesc h' u') (s.rx.desc h).routed (s.rx.desc h).mem
      rx := (grspw2RxDescReadd s.rx h).2 } (circle s.rx.rxNDesc h 1) u f h' (u' + 1) 0 := by
  have hframe := grspw2RxDescReadd_framed s.rx h
  have hmem : (s.rx.desc h).bytes ∈ s.received := hi.rx.head_mem
  obtain ⟨hhdr, hdata, hnon⟩ := hi.bare (circle s.tx.tx.txNDesc h' u')
  refine ⟨?_, hi.tx.put _ hu fun hw => ?_, hi.placed.framed hframe, ⟨?_, fun i hlt => ?_⟩, fun i => ?_,
    fun e he => ?_, hi.fits⟩
  · refine hi.rx.take (t := .routed (s.rx.desc h).bytes ⟨0, (s.rx.desc h).bytes, false, false⟩) rfl
      s.rx.rxBytes rfl rfl ?_
    dsimp only [RouteSys.view, TxSys.put]
    rw [List.map_append, RxDesc.wire_routed]
    rfl
  · obtain ⟨hsize, hlt⟩ := hi.fits hw _ hmem
    rw [RxDesc.length_bytes] at hsize hlt
    refine ⟨⟨Nat.two_pow_pos 8, hlt, fun hrmap => absurd hrmap Bool.false_ne_true, ?_, ?_, ?_⟩,
      Nat.zero_le _, hsize⟩
    · exact fun h => absurd (hhdr.symm.trans h) Bool.false_ne_true
    · exact fun h => absurd (hdata.symm.trans h) Bool.false_ne_true
    · exact fun h => absurd hnon h
  · rw [hframe.rxIrq]
    exact hi.armed.1
  · rw [(hframe.desc i).1]
    exact hi.armed.2 i (hframe.rxNDesc ▸ hlt)
  · dsimp only [TxSys.put]
    by_cases heq : i = circle s.tx.tx.txNDesc h' u'
    · rw [heq, Function.update_self]
      refine ⟨?_, ?_, ?_⟩
      · simpa [txDescWrite, RxDesc.routed, routedPkt] using hhdr
      · simpa [txDescWrite, RxDesc.routed, routedPkt] using hdata
      · simpa [txDescWrite, RxDesc.routed, routedPkt] using hnon
    · rw [Function.update_of_ne heq]
      exact hi.bare i
  · rcases List.mem_append.mp he with he | he
    · exact hi.wires e he
    · rw [List.mem_singleton.mp he, RxDesc.wire_routed]
      rfl

/-- The other core sends one packet more, or has none. -/
theorem RouteSys.Inv.send (hi : s.Inv whole h u f h' u' f') (linkError : Bool) :
    (f' = u' ∧ s.tx.send linkError = s.tx) ∨
      (f' < u' ∧
        RouteSys.Inv whole { s with tx := s.tx.send linkError } h u f h' u' (f' + 1)) := by
  rcases hi.tx.send linkError with hnone | ⟨hf, hsent⟩
  · exact .inl hnone
  · have hon : (s.tx.tx.desc s.tx.hwDesc).enable = true := by
      rw [hi.tx.rings.enable_hw]
      exact decide_eq_true hf
    have hqueued : (s.tx.send linkError).queued = s.tx.queued := by
      rw [TxSys.send, if_pos hon]
    have hsize : (s.tx.send linkError).dataSize = s.tx.dataSize := by
      rw [TxSys.send, if_pos hon]
    refine .inr ⟨hf, ⟨hi.rx.rings, ?_, ?_, hi.rx.mtu⟩, hsent, hi.placed, hi.armed, fun i => ?_, ?_, ?_⟩
    · dsimp only [RouteSys.view]
      rw [hqueued]
      exact hi.rx.pending
    · dsimp only [RouteSys.view]
      rw [hqueued]
      exact hi.rx.taken
    · rw [TxSys.send, if_pos hon]
      dsimp only
      by_cases heq : i = s.tx.hwDesc
      · rw [heq, Function.update_self]
        exact hi.bare s.tx.hwDesc
      · rw [Function.update_of_ne heq]
        exact hi.bare i
    · rw [hqueued]
      exact hi.wires
    · rw [hsize]
      exact hi.fits

/-- **What a turn of the handler does**: it ends, or forwards a packet; it ends as well where the entry
is the only one in use. -/
theorem RouteSys.Inv.turn (hi : s.Inv whole h u f h' u' f') (hrun : s.running = true) :
    ((f = 0 ∨ s.tx.collected.tx.txDescRingFree = []) ∧
      routeSysStep s .turn = { s with tx := s.tx.collected, running := false }) ∨
    ∃ f₁ s₁, f = f₁ + 1 ∧ s.tx.collected.tx.txDescRingFree ≠ [] ∧
      RouteSys.Inv whole s₁ (circle s.rx.rxNDesc h 1) u f₁ (circle s.tx.tx.txNDesc h' f') (u' - f' + 1) 0 ∧
      s₁.running = true ∧ s₁.rx.irqPending = s.rx.irqPending ∧ s₁.tx.tx.txNDesc = s.tx.tx.txNDesc ∧
      routeSysStep s .turn =
        if u = 1 then { s₁ with tx := s₁.tx.collected, running := false } else s₁ := by
  have hlen : s.rx.rxDescRingUsed.length = u := by
    rw [show s.rx.rxDescRingUsed = _ from hi.rx.rings.used, length_arc]
  have hidem : s.tx.collected.collected = s.tx.collected := by
    rw [TxSys.collected, TxSys.collected]
    dsimp only
    rw [grspw2TxDescMoveFreeAll_idem]
  rcases RouteSys.turn_cases hi.rx.rings hi.placed with
    ⟨hf, heq⟩ | ⟨hf, hfull, heq⟩ | ⟨f₁, i, free, rfl, hfree, heq⟩
  · refine .inl ⟨.inl hf, ?_⟩
    rw [routeSysStep, if_pos hrun, heq, if_pos (.inl rfl)]
  · refine .inl ⟨.inr hfull, ?_⟩
    rw [routeSysStep, if_pos hrun, heq, if_pos (.inl rfl)]
    dsimp only
    rw [hidem]
  · obtain ⟨hroom, rfl⟩ := hi.collect.tx.rings.first_free hfree
    refine .inr ⟨f₁, _, rfl, ?_, hi.collect.put hroom, hrun, ?_, rfl, ?_⟩
    · rw [hfree]
      exact List.cons_ne_nil _ _
    · dsimp only
      unfold grspw2RxDescReadd grspw2RxDescAdd grspw2RxDescMoveFree
      split <;> rfl
    · rw [routeSysStep, if_pos hrun, heq, hlen]
      simp only [Bool.true_eq_false, false_or]

theorem RouteSys.Inv.step (hi : s.Inv whole h u f h' u' f') (o : RouteSysOp)
    (hfit : whole → RouteSysFits s o) :
    ∃ h u f h' u' f', (routeSysStep s o).Inv whole h u f h' u' f' := by
  cases o with
  | receive data =>
    rw [routeSysStep]
    cases hrx : rxReceive s.rx data with
    | none => exact ⟨h, u, f, h', u', f', hi⟩
    | some rx => exact ⟨_, _, _, _, _, _, (hi.receive hrx hfit).1⟩
  | irq =>
    rw [routeSysStep]
    split
    · exact ⟨_, _, _, _, _, _, hi.handler false true⟩
    · exact ⟨_, _, _, _, _, _, hi⟩
  | turn =>
    by_cases hrun : s.running = true
    · rcases hi.turn hrun with ⟨-, heq⟩ | ⟨f₁, s₁, -, -, hi₁, -, -, -, heq⟩
      · rw [heq]
        exact ⟨_, _, _, _, _, _, hi.collect.handler s.rx.irqPending false⟩
      · rw [heq]
        split
        · exact ⟨_, _, _, _, _, _, hi₁.collect.handler s₁.rx.irqPending false⟩
        · exact ⟨_, _, _, _, _, _, hi₁⟩
    · rw [routeSysStep, if_neg hrun]
      exact ⟨_, _, _, _, _, _, hi⟩
  | send linkError =>
    rcases hi.send linkError with ⟨-, heq⟩ | ⟨-, hi₁⟩
    · rw [routeSysStep, heq]
      exact ⟨_, _, _, _, _, _, hi⟩
    · exact ⟨_, _, _, _, _, _, hi₁⟩

/-! ### The start -/

theorem grspw2EnableRouting_armed {rx : RxCore} (hnodup : rx.rxDescRingUsed.Nodup) (txNDesc : Nat) :
    (grspw2EnableRouting rx txNDesc).rxIrq = true ∧
      ∀ i < rx.rxNDesc, ((grspw2EnableRouting rx txNDesc).desc i).interruptEnable = true := by
  have hframe := rxDescAddEach_framed (routeDescs rx txNDesc) rx.cleared
  rw [grspw2EnableRouting_eq hnodup, hframe.rxIrq]
  refine ⟨by rw [RxCore.cleared_eq hnodup], fun i hi => ?_⟩
  rw [(hframe.desc i).1, RxCore.cleared_eq hnodup]
  dsimp only
  rw [decide_eq_true hi, Bool.true_or]

/-- Routing begins with no packet in either ring, and with a receive descriptor in use. -/
theorem RouteSys.start_inv {r : RxSys} (hr : routingSystem.Reachable EnablesAtHead r)
    (hhead : r.rx.AtHead) {t : TxSys} (ht : t.Init) :
    ∃ h u, 0 < u ∧ (RouteSys.start r.rx t).Inv whole h u 0 0 0 0 := by
  have hrun := routingSystem_reachable hr
  have hfresh : t.Fifo whole 0 0 0 := ht.fifo
  have hpos : 0 < t.tx.txNDesc := hfresh.rings.pos
  obtain ⟨hfirst, hrouting⟩ := hrun.enableRouting hpos fun _ _ => 0
  obtain ⟨-, ⟨h, u, f, hfifo⟩, hplaced, -⟩ := hrouting hhead
  obtain ⟨_, _, _, hold⟩ := hrun.fifo
  have hn := (grspw2EnableRouting_kept hold.rings.nodup t.tx.txNDesc).1
  obtain ⟨hirq, harmed⟩ := grspw2EnableRouting_armed hold.rings.nodup t.tx.txNDesc
  obtain ⟨tblSize, -, htx, -, hqueued, -⟩ := ht
  have hf : f = 0 := by
    have hnone := hfifo.pending.symm
    rw [RxCore.pending] at hnone
    exact arc_eq_nil.mp (List.map_eq_nil_iff.mp hnone)
  subst hf
  refine ⟨h, u, Nat.pos_of_ne_zero ?_, ⟨⟨hfifo.rings, ?_, ?_, ?_⟩, hfresh, hplaced,
    ⟨hirq, fun i hi => harmed i (hn ▸ hi)⟩, fun i => ?_, ?_, fun _ p hp => ?_⟩⟩
  · rintro rfl
    have hhw := hfirst.mpr hhead
    rw [show (r.enableRouting t.tx fun _ _ => 0).rx.rxDescRingUsed = _ from hfifo.rings.used,
      arc_zero] at hhw
    cases hhw
  · dsimp only [RouteSys.view, RouteSys.start]
    rw [RxCore.pending, arc_zero, List.drop_nil]
    rfl
  · dsimp only [RouteSys.view, RouteSys.start]
    rw [hqueued]
    exact .nil
  · exact fun p hp => absurd hp List.not_mem_nil
  · dsimp only [RouteSys.start]
    rw [htx]
    exact ⟨rfl, rfl, rfl⟩
  · dsimp only [RouteSys.start]
    rw [hqueued]
    exact fun e he => absurd he List.not_mem_nil
  · exact absurd hp List.not_mem_nil

end Runs

/-- **From end to end**, in every state of every run of a core that routes to one which has not sent yet,
if each packet fits. -/
theorem routing_delivers {r : RxSys} (hr : routingSystem.Reachable EnablesAtHead r) (hhead : r.rx.AtHead)
    {t : TxSys} (ht : t.Init) {ops : List RouteSysOp}
    (hok : StepsMeet routeSysStep RouteSysFits (RouteSys.start r.rx t) ops) :
    Along routeSysStep RouteSys.Delivers (RouteSys.start r.rx t) ops := by
  have hstart : ∃ h u, 0 < u ∧ (RouteSys.start r.rx t).Inv True h u 0 0 0 0 :=
    RouteSys.start_inv hr hhead ht
  obtain ⟨h, u, -, hi⟩ := hstart
  refine Along.mono (I := fun s => ∃ h u f h' u' f', s.Inv True h u f h' u' f') ?_
    (StepsMeet.along ?_ ops ⟨_, _, _, _, _, _, hi⟩ hok)
  · rintro s ⟨h, u, f, h', u', f', hi⟩
    exact hi.delivers
  · rintro s o ⟨h, u, f, h', u', f', hi⟩ ho
    exact hi.step o fun _ => ho

/-- Two cores of two descriptors each. -/
def routeSysSample : RouteSys := RouteSys.start rxSample.rx txSample

theorem rxSample_atHead : rxSample.rx.AtHead := .inl fun _ hi => absurd hi List.not_mem_nil

theorem routing_delivers_sample :
    Along routeSysStep RouteSys.Delivers routeSysSample
      [.receive [1, 2], .irq, .turn, .send false, .turn] :=
  routing_delivers (.init rxSample_init) rxSample_atHead txSample_init
    ⟨⟨by decide, by decide⟩, trivial, trivial, trivial, trivial, trivial⟩

/-! ## 4. When packets wait -/

section Wait

variable {whole : Prop} {s : RouteSys} {h u f h' u' f' : Nat}

theorem RouteSys.Inv.waits_iff (hi : s.Inv whole h u f h' u' f') : s.Waits ↔ 0 < f := by
  have hr : s.rx.Rings h u f := hi.rx.rings
  have hle := hr.filled_le
  have hused := hr.used_le
  rw [RouteSys.Waits, hr.used]
  constructor
  · rintro ⟨i, hmem, henable⟩
    obtain ⟨k, hk, rfl⟩ := mem_arc.mp hmem
    rw [Nat.zero_add, hr.enable k (by omega)] at henable
    have := of_decide_eq_false henable
    omega
  · intro hf
    refine ⟨circle s.rx.rxNDesc h 0, mem_arc.mpr ⟨0, by omega, rfl⟩, ?_⟩
    rw [hr.enable 0 (by omega)]
    exact decide_eq_false (by omega)

/-- **A step and the handler**: only a run of it that ends before a packet, with no interrupt due,
leaves that packet behind. -/
theorem RouteSys.Inv.prompt_iff (hi : s.Inv False h u f h' u' f') (hp : s.Prompt) (o : RouteSysOp) :
    (routeSysStep s o).Prompt ↔ RouteSysTakes s o := by
  cases o with
  | receive data =>
    refine iff_of_true ?_ trivial
    rw [routeSysStep]
    cases hrx : rxReceive s.rx data with
    | none => exact hp
    | some rx => exact fun _ => .inr (hi.receive hrx False.elim).2
  | irq =>
    refine iff_of_true ?_ trivial
    rw [routeSysStep]
    split
    · exact fun _ => .inl rfl
    · exact hp
  | turn =>
    by_cases hrun : s.running = true
    · rcases hi.turn hrun with ⟨hend, heq⟩ | ⟨f₁, s₁, rfl, hfree, hi₁, hrun₁, -, -, heq⟩
      · -- the handler is at its end; the rest is up to an interrupt
        have hdue : (routeSysStep s .turn).Prompt ↔ (s.Waits → s.rx.irqPending = true) := by
          rw [heq]
          exact forall_congr' fun _ => or_iff_right Bool.false_ne_true
        rw [hdue, RouteSysTakes]
        constructor
        · intro h _ hirq hw
          rw [h hw] at hirq
          cases hirq
        · intro h hw
          by_contra hirq
          rcases hend with rfl | hnone
          · exact absurd (hi.waits_iff.mp hw) (Nat.lt_irrefl 0)
          · exact h hrun (Bool.eq_false_of_not_eq_true hirq) hw hnone
      · refine iff_of_true ?_ fun _ _ _ => hfree
        rw [heq]
        split
        · -- the entry was the only one in use, and nothing else can wait
          rename_i hone
          intro hw
          have hw₁ : s₁.Waits := hw
          have hle := hi.rx.rings.filled_le
          have := hi₁.waits_iff.mp hw₁
          omega
        · exact fun _ => .inl hrun₁
    · refine iff_of_true ?_ fun h => absurd h hrun
      rw [routeSysStep, if_neg hrun]
      exact hp
  | send linkError =>
    refine iff_of_true ?_ trivial
    exact hp

end Wait

/-- **When packets are left behind**: in a run they wait for the handler, and for nothing else, if and only
if no run of it is ended by a full transmit ring while no interrupt is due. -/
theorem routing_prompt_iff {r : RxSys} (hr : routingSystem.Reachable EnablesAtHead r)
    (hhead : r.rx.AtHead) {t : TxSys} (ht : t.Init) (ops : List RouteSysOp) :
    Along routeSysStep RouteSys.Prompt (RouteSys.start r.rx t) ops ↔
      StepsMeet routeSysStep RouteSysTakes (RouteSys.start r.rx t) ops := by
  have hstart : ∃ h u, 0 < u ∧ (RouteSys.start r.rx t).Inv False h u 0 0 0 0 :=
    RouteSys.start_inv hr hhead ht
  obtain ⟨h, u, -, hi⟩ := hstart
  refine along_iff_stepsMeet (I := fun s : RouteSys =>
      (∃ h u f h' u' f', s.Inv False h u f h' u' f') ∧ s.Prompt)
    (fun s hs => hs.2) ?_ ?_ ops ⟨⟨_, _, _, _, _, _, hi⟩, fun hw => ?_⟩
  · rintro s o ⟨⟨h, u, f, h', u', f', hi⟩, hp⟩
    exact hi.prompt_iff hp o
  · rintro s o ⟨⟨h, u, f, h', u', f', hi⟩, hp⟩ ho
    exact ⟨hi.step o False.elim, (hi.prompt_iff hp o).mpr ho⟩
  · exact absurd (hi.waits_iff.mp hw) (Nat.lt_irrefl 0)

theorem routing_prompt_iff_sample :
    Along routeSysStep RouteSys.Prompt routeSysSample [.receive [1, 2], .irq, .turn, .turn] ↔
      StepsMeet routeSysStep RouteSysTakes routeSysSample [.receive [1, 2], .irq, .turn, .turn] :=
  routing_prompt_iff (.init rxSample_init) rxSample_atHead txSample_init _

/-! ## 5. The jam -/

section Jam

variable {s : RouteSys} {running : Bool} {n u f a : Nat}

/-- The core stands at an enabled descriptor if not all of those in use are filled. -/
theorem RxCore.Rings.enable_hw {s : RxCore} {h u f : Nat} (hr : s.Rings h u f) :
    (s.desc s.hwDesc).enable = decide (f < u) := by
  have hle := hr.filled_le
  have hused := hr.used_le
  rw [hr.hw]
  by_cases hf : f < s.rxNDesc
  · rw [hr.enable f hf]
    exact decide_eq_decide.mpr (by omega)
  · have hself : circle s.rxNDesc h f = circle s.rxNDesc h 0 := by
      rw [show f = s.rxNDesc by omega, circle_self hr.head, circle_zero hr.head]
    rw [hself, hr.enable 0 (Nat.zero_lt_of_lt hr.head)]
    exact decide_eq_decide.mpr (by omega)

/-- No interrupt is due; `f` packets wait in the ring of `u` descriptors, and `a` are to be sent from
the table of `n`. -/
structure RouteSys.At (running : Bool) (n u : Nat) (s : RouteSys) (f a : Nat) : Prop where
  inv : ∃ h h' u' f', s.Inv False h u f h' u' f' ∧ u' - f' = a
  size : s.tx.tx.txNDesc = n
  handler : s.running = running ∧ s.rx.irqPending = false

/-- **Nothing happens any more** where all descriptors in use are filled, and nothing is to be sent. -/
theorem RouteSys.At.stuck (hs : s.At false n u u 0) (o : RouteSysOp) : routeSysStep s o = s := by
  obtain ⟨⟨h, h', u', f', hi, ha⟩, -, hidle, hirq⟩ := hs
  cases o with
  | receive data =>
    have hr : s.rx.Rings h u u := hi.rx.rings
    have hoff : (s.rx.desc s.rx.hwDesc).enable = false := by
      rw [hr.enable_hw]
      exact decide_eq_false (Nat.lt_irrefl u)
    have hnone : rxReceive s.rx data = none := if_pos (.inr hoff)
    rw [routeSysStep, hnone]
  | irq =>
    rw [routeSysStep, if_neg]
    simp [hirq]
  | turn =>
    rw [routeSysStep, if_neg]
    simp [hidle]
  | send linkError =>
    rcases hi.send linkError with ⟨-, heq⟩ | ⟨hlt, -⟩
    · rw [routeSysStep, heq]
    · omega

/-- A packet is sent. -/
theorem RouteSys.At.send (hs : s.At running n u f (a + 1)) :
    (routeSysStep s (.send false)).At running n u f a := by
  obtain ⟨⟨h, h', u', f', hi, ha⟩, hn, hhandler⟩ := hs
  rcases hi.send false with ⟨heq, -⟩ | ⟨-, hi₁⟩
  · omega
  · refine ⟨⟨h, h', u', f' + 1, hi₁, by omega⟩, ?_, hhandler⟩
    rw [← hn, routeSysStep, TxSys.send]
    dsimp only
    split <;> rfl

/-- A packet is received, and the handler is called. -/
theorem RouteSys.At.receive (hs : s.At false n u f a) (hf : f < u) {data : List UInt8}
    (hdata : data.length ≤ grspw2MaxMtu) :
    (routeSysStep (routeSysStep s (.receive data)) .irq).At true n u (f + 1) a := by
  obtain ⟨⟨h, h', u', f', hi, ha⟩, hn, hidle, -⟩ := hs
  have hr : s.rx.Rings h u f := hi.rx.rings
  have hon : (s.rx.desc s.rx.hwDesc).enable = true := by
    rw [hr.enable_hw]
    exact decide_eq_true hf
  obtain ⟨rx, hrx⟩ : ∃ rx, rxReceive s.rx data = some rx := by
    unfold rxReceive
    dsimp only
    rw [if_neg (by simp [hon, hdata])]
    exact ⟨_, rfl⟩
  obtain ⟨hi₁, hirq⟩ := hi.receive hrx False.elim
  have hstep : routeSysStep s (.receive data) = { s with rx := rx, received := s.received ++ [data] } := by
    rw [routeSysStep, hrx]
  rw [hstep, routeSysStep, if_pos ⟨hidle, hirq⟩]
  exact ⟨⟨h, h', u', f', hi₁.handler false true, ha⟩, hn, rfl, rfl⟩

/-- The handler ends where nothing waits, and where the transmit ring is full. -/
theorem RouteSys.At.turn_end (hs : s.At true n u f a) (hend : f = 0 ∨ a = n) :
    (routeSysStep s .turn).At false n u f a := by
  obtain ⟨⟨h, h', u', f', hi, ha⟩, hn, hrun, hirq⟩ := hs
  rcases hi.turn hrun with ⟨-, heq⟩ | ⟨f₁, s₁, hf, hfree, -⟩
  · rw [heq]
    refine ⟨⟨h, _, u' - f', 0, hi.collect.handler s.rx.irqPending false, ha⟩, hn, rfl, hirq⟩
  · refine absurd ?_ hfree
    have hnone := hi.collect.tx.rings.free
    dsimp only at hnone
    rw [hnone, arc_eq_nil, ha, show s.tx.collected.tx.txNDesc = n from hn]
    omega

/-- The handler forwards a packet where there is a transmit descriptor. -/
theorem RouteSys.At.turn_forward (hs : s.At true n u (f + 1) a) (hroom : a < n) :
    ∃ running, (routeSysStep s .turn).At running n u f (a + 1) := by
  obtain ⟨⟨h, h', u', f', hi, ha⟩, hn, hrun, hirq⟩ := hs
  rcases hi.turn hrun with ⟨hzero | hfull, -⟩ | ⟨f₁, s₁, hf, -, hi₁, hrun₁, hirq₁, hn₁, heq⟩
  · cases hzero
  · have hnone := hi.collect.tx.rings.free
    dsimp only at hnone
    rw [hfull, eq_comm, arc_eq_nil, ha, show s.tx.collected.tx.txNDesc = n from hn] at hnone
    omega
  · obtain rfl : f = f₁ := Nat.succ.inj hf
    rw [heq]
    split
    · exact ⟨false, ⟨_, _, _, _, hi₁.collect.handler s₁.rx.irqPending false, by omega⟩, hn₁.trans hn, rfl,
        hirq₁.trans hirq⟩
    · exact ⟨true, ⟨_, _, _, _, hi₁, by omega⟩, hn₁.trans hn, hrun₁, hirq₁.trans hirq⟩

/-- A packet comes and goes. -/
theorem RouteSys.At.fill (hs : s.At false n u 0 a) (hu : 0 < u) (hroom : a < n) {data : List UInt8}
    (hdata : data.length ≤ grspw2MaxMtu) :
    ([.receive data, .irq, .turn, .turn].foldl routeSysStep s).At false n u 0 (a + 1) := by
  obtain ⟨running, hforward⟩ := (hs.receive hu hdata).turn_forward hroom
  cases running with
  | true => exact hforward.turn_end (.inl rfl)
  | false =>
    have hsame : ∀ {s : RouteSys}, s.running = false → routeSysStep s .turn = s := fun hrun => by
      rw [routeSysStep, if_neg]
      simp [hrun]
    rw [List.foldl_cons, List.foldl_cons, List.foldl_cons, List.foldl_cons, List.foldl_nil,
      hsame hforward.handler.1]
    exact hforward

/-- A packet comes, and stays. -/
theorem RouteSys.At.stay (hs : s.At false n u f n) (hf : f < u) {data : List UInt8}
    (hdata : data.length ≤ grspw2MaxMtu) :
    ([.receive data, .irq, .turn].foldl routeSysStep s).At false n u (f + 1) n :=
  (hs.receive hf hdata).turn_end (.inr rfl)

end Jam

/-- A run that is led on step by step, by steps of a kind. -/
theorem exists_run {σ ο : Type} {f : σ → ο → σ} {P : Nat → σ → Prop} {Q : ο → Prop} (k : Nat) {s : σ}
    (h : P 0 s) (hstep : ∀ j < k, ∀ s, P j s →
      ∃ os : List ο, (∀ o ∈ os, Q o) ∧ P (j + 1) (os.foldl f s)) :
    ∃ os : List ο, (∀ o ∈ os, Q o) ∧ P k (os.foldl f s) := by
  induction k with
  | zero => exact ⟨[], fun _ ho => absurd ho List.not_mem_nil, h⟩
  | succ k ih =>
    obtain ⟨os, hos, hk⟩ := ih fun j hj => hstep j (Nat.lt_succ_of_lt hj)
    obtain ⟨os', hos', hk'⟩ := hstep k (Nat.lt_succ_self k) _ hk
    refine ⟨os ++ os', fun o ho => ?_, by rwa [List.foldl_append]⟩
    rcases List.mem_append.mp ho with ho | ho
    · exact hos o ho
    · exact hos' o ho

/-- **The jam**: for all sizes of the rings, and whatever the packets, there is a run after which some
wait, and no step changes anything. -/
theorem routing_jams {r : RxSys} (hr : routingSystem.Reachable EnablesAtHead r) (hhead : r.rx.AtHead)
    {t : TxSys} (ht : t.Init) {data : List UInt8} (hdata : data.length ≤ grspw2MaxMtu) :
    ∃ ops : List RouteSysOp, (∀ o ∈ ops, o.Brings data) ∧
      (ops.foldl routeSysStep (RouteSys.start r.rx t)).Waits ∧
      ∀ o, routeSysStep (ops.foldl routeSysStep (RouteSys.start r.rx t)) o =
        ops.foldl routeSysStep (RouteSys.start r.rx t) := by
  have hstart : ∃ h u, 0 < u ∧ (RouteSys.start r.rx t).Inv False h u 0 0 0 0 :=
    RouteSys.start_inv hr hhead ht
  obtain ⟨h, u, hu, hi⟩ := hstart
  -- an interrupt from before is served first
  obtain ⟨os, hos, hempty⟩ : ∃ os : List RouteSysOp, (∀ o ∈ os, o.Brings data) ∧
      (os.foldl routeSysStep (RouteSys.start r.rx t)).At false t.tx.txNDesc u 0 0 := by
    cases hirq : (RouteSys.start r.rx t).rx.irqPending with
    | false => exact ⟨[], fun _ ho => absurd ho List.not_mem_nil, ⟨_, _, _, _, hi, rfl⟩, rfl, rfl, hirq⟩
    | true =>
      refine ⟨[.irq, .turn], by simp [RouteSysOp.Brings], RouteSys.At.turn_end ?_ (.inl rfl)⟩
      rw [routeSysStep, if_pos ⟨rfl, hirq⟩]
      exact ⟨⟨_, _, _, _, hi.handler false true, rfl⟩, rfl, rfl, rfl⟩
  -- the transmit ring is filled, then the receive ring; then the first one is sent
  obtain ⟨os₁, hos₁, hfull⟩ := exists_run (f := routeSysStep)
    (P := fun j (s : RouteSys) => s.At false t.tx.txNDesc u 0 j)
    (Q := RouteSysOp.Brings data) t.tx.txNDesc hempty
    fun j hj s hs => ⟨_, by simp [RouteSysOp.Brings], hs.fill hu hj hdata⟩
  obtain ⟨os₂, hos₂, hboth⟩ := exists_run (f := routeSysStep)
    (P := fun j (s : RouteSys) => s.At false t.tx.txNDesc u j t.tx.txNDesc)
    (Q := RouteSysOp.Brings data) u hfull
    fun j hj s hs => ⟨_, by simp [RouteSysOp.Brings], hs.stay hj hdata⟩
  obtain ⟨os₃, hos₃, hsent⟩ := exists_run (f := routeSysStep)
    (P := fun j (s : RouteSys) => s.At false t.tx.txNDesc u u (t.tx.txNDesc - j))
    (Q := RouteSysOp.Brings data) t.tx.txNDesc hboth fun j hj s hs => by
      rw [show t.tx.txNDesc - j = t.tx.txNDesc - (j + 1) + 1 by omega] at hs
      exact ⟨[.send false], by simp [RouteSysOp.Brings], hs.send⟩
  rw [Nat.sub_self] at hsent
  refine ⟨os ++ (os₁ ++ (os₂ ++ os₃)), ?_, ?_⟩
  · simp only [List.mem_append]
    rintro o (ho | ho | ho | ho)
    · exact hos o ho
    · exact hos₁ o ho
    · exact hos₂ o ho
    · exact hos₃ o ho
  · rw [List.foldl_append, List.foldl_append, List.foldl_append]
    obtain ⟨_, _, _, _, hi₃, -⟩ := hsent.inv
    exact ⟨hi₃.waits_iff.mpr hu, hsent.stuck⟩

theorem routing_jams_sample :
    ∃ ops : List RouteSysOp, (∀ o ∈ ops, o.Brings [1]) ∧
      (ops.foldl routeSysStep routeSysSample).Waits ∧
      ∀ o, routeSysStep (ops.foldl routeSysStep routeSysSample) o =
        ops.foldl routeSysStep routeSysSample :=
  routing_jams (.init rxSample_init) rxSample_atHead txSample_init (by decide)

end FlightOs
