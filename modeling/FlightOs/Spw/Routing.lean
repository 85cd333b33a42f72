/-
# Routing between two cores

`grspw2_enable_routing` takes all receive descriptors out of use, in the order of the used list, and
puts as many of them to use again as the target has transmit descriptors.  The new head is the
descriptor that was the next one after those in use; the core goes on where it was.  From then on
`grspw2_route` queues what has been received on the target.

* `rxDescClearAll_eq`: clearing leaves the table, read round from there, in the free list.
* `grspw2RouteTurn_cases`, `rxRouteLoop_drains`: what a turn and what a call does.
* `enable_routing_forwards_iff`: the core is at the new head, and every packet received from then on is
  forwarded as it is, in order, and never waits behind an enabled descriptor, if and only if none or
  all of the descriptors of the ring were filled, and each packet is clean for its target descriptor.
-/
import FlightOs.Spw.RxRing

namespace FlightOs

/-! ## 1. Enabling -/

/-- The loop of `grspw2_rx_desc_clear_all`, over the used list as it was. -/
def rxDescClearLoop : List Nat → RxCore → RxCore
  | [], s => s
  | i :: used, s =>
    let d := { s.desc i with enable := false, interruptEnable := false }
    rxDescClearLoop used (grspw2RxDescMoveFree { s with desc := Function.update s.desc i d } i)

def grspw2RxDescClearAll (s : RxCore) : RxCore := rxDescClearLoop s.rxDescRingUsed s

/-- The loop that sets the interrupt flag on all descriptors of the table. -/
def rxDescIrqAll : Nat → RxCore → RxCore
  | 0, s => s
  | n + 1, s => rxDescIrq (rxDescIrqAll n s) n true

/-- The loop that puts descriptors to use; what `grspw2_rx_desc_add` returns is not looked at. -/
def rxDescAddEach : Nat → RxCore → RxCore
  | 0, s => s
  | n + 1, s => rxDescAddEach n (grspw2RxDescAdd s).2

def grspw2EnableRouting (s : RxCore) (txNDesc : Nat) : RxCore :=
  let s := grspw2RxDescClearAll { s with rxIrq := true }
  let n := if txNDesc < s.rxNDesc then txNDesc else s.rxNDesc
  rxDescAddEach n (rxDescIrqAll s.rxNDesc s)

/-- The target is connected; the packets are counted from then on. -/
def RxSys.enableRouting (s : RxSys) (tx : TxCore) (txBuf : Nat → Nat → UInt8) : RxSys where
  rx := grspw2EnableRouting s.rx tx.txNDesc
  tx := tx
  txBuf := txBuf
  received := []
  taken := []

/-- What a core does from its start to the enabling of routing. -/
inductive RoutingOp
  | rx (o : RxOp)
  | enableRouting (tx : TxCore) (txBuf : Nat → Nat → UInt8)

def routingStep (s : RxSys) : RoutingOp → Option RxSys
  | .rx o => rxStep s o
  | .enableRouting tx txBuf => some (s.enableRouting tx txBuf)

def routingSystem : System RxSys RoutingOp := .ofFun RxSys.Init routingStep

/-- All descriptors in use are filled, or none is and all are in use. -/
def RxCore.AtHead (s : RxCore) : Prop :=
  (∀ i ∈ s.rxDescRingUsed, (s.desc i).enable = false) ∨
    (s.rxDescRingFree = [] ∧ ∀ i ∈ s.rxDescRingUsed, (s.desc i).enable = true)

/-- The target has a descriptor, and routing is enabled where the order of the ring survives it. -/
def EnablesAtHead (s : RxSys) : RoutingOp → Prop
  | .rx _ => True
  | .enableRouting tx _ => s.rx.AtHead ∧ 0 < tx.txNDesc

/-- What happens while packets are routed. -/
inductive RouteOp
  | receive (data : List UInt8)
  | turn
  | done
  | tx (o : TxOp)

/-- A packet that finds no enabled descriptor waits. -/
def routeStep (s : RxSys) : RouteOp → RxSys
  | .receive data => (rxStep s (.receive data)).getD s
  | .turn => (grspw2RouteTurn s).1
  | .done => { s with tx := grspw2TxDescMoveFreeAll s.tx }
  | .tx o => { s with tx := txStep s.tx o }

/-- A packet fits the size of a transmit descriptor, which does not append anything. -/
def TxDesc.Plain (d : TxDesc) (pktSize : Nat) : Prop :=
  pktSize < 2 ^ 24 ∧ d.appendHeaderCrc = false ∧ d.appendDataCrc = false

/-- If a packet is forwarded, its transmit descriptor is plain. -/
def RouteClean (s : RxSys) : RouteOp → Prop
  | .turn => ∀ i ∈ s.rx.rxDescRingUsed.head?, (s.rx.desc i).enable = false →
      ∀ j ∈ (grspw2TxDescMoveFreeAll s.tx).txDescRingFree.head?, (s.tx.desc j).Plain (s.rx.desc i).pktSize
  | _ => True

/-- What `grspw2_route` is to make of a packet. -/
def forwardedPkt (p : List UInt8) : RxTaken := .routed p ⟨0, p, false, false⟩

/-- The first packets received have been forwarded, in order, each once, and as they are; the others
are in the first descriptors in use; and a call forwards them all, unless the target has no descriptor
left. -/
structure RxSys.Forwards (s : RxSys) : Prop where
  forwarded : s.taken = (s.received.take s.taken.length).map forwardedPkt
  inOrder : s.InOrder
  drains : (grspw2RouteCall s).taken.length = s.received.length ∨
    (grspw2RouteCall s).tx.txDescRingFree = []

/-! ## 2. The ring after enabling -/

section Enable

variable {s : RxCore} {h u f : Nat}

/-- Clearing moves the used list behind the free one. -/
theorem rxDescClearLoop_eq : ∀ (used : List Nat) (s : RxCore), s.rxDescRingUsed = used → used.Nodup →
    rxDescClearLoop used s = { s with
      desc := fun i => if i ∈ used then { s.desc i with enable := false, interruptEnable := false }
        else s.desc i
      rxDescRingUsed := []
      rxDescRingFree := s.rxDescRingFree ++ used }
  | [], s, hused, _ => by
    cases s
    dsimp only at hused
    simp only [rxDescClearLoop, List.not_mem_nil, if_false, List.append_nil, hused]
  | i :: used, s, hused, hnodup => by
    obtain ⟨hnot, hnodup⟩ := List.nodup_cons.mp hnodup
    rw [rxDescClearLoop, rxDescClearLoop_eq used _ ?_ hnodup]
    · simp only [grspw2RxDescMoveFree, List.append_assoc, List.singleton_append]
      refine congrArg (fun desc => { s with
        desc := desc, rxDescRingUsed := [], rxDescRingFree := s.rxDescRingFree ++ i :: used }) ?_
      funext j
      by_cases hji : j = i
      · rw [hji, if_neg hnot, if_pos List.mem_cons_self, Function.update_self]
      · rw [Function.update_of_ne hji]
        simp only [List.mem_cons, hji, false_or]
    · dsimp only [grspw2RxDescMoveFree]
      rw [hused, List.erase_cons_head]

/-- Only the flags are set. -/
theorem rxDescIrqAll_eq (s : RxCore) : ∀ n : Nat,
    rxDescIrqAll n s = { s with
      desc := fun i => if i < n then { s.desc i with interruptEnable := true } else s.desc i }
  | 0 => by
    simp only [rxDescIrqAll, Nat.not_lt_zero, if_false]
  | n + 1 => by
    rw [rxDescIrqAll, rxDescIrqAll_eq s n, rxDescIrq]
    refine congrArg (fun desc => { s with desc := desc }) ?_
    funext j
    by_cases hjn : j = n
    · rw [hjn, Function.update_self]
      simp only [Nat.lt_irrefl, if_false, Nat.lt_succ_self, if_true]
    · rw [Function.update_of_ne hjn]
      have hlt : j < n + 1 ↔ j < n := by omega
      simp only [hlt]

/-- Where the core is does not matter for adding descriptors. -/
theorem rxDescAddEach_hwDesc (i : Nat) : ∀ (n : Nat) (s : RxCore),
    rxDescAddEach n { s with hwDesc := i } = { rxDescAddEach n s with hwDesc := i }
  | 0, _ => rfl
  | n + 1, s => by
    have hadd : (grspw2RxDescAdd { s with hwDesc := i }).2 =
        { (grspw2RxDescAdd s).2 with hwDesc := i } := by
      obtain ⟨rxNDesc, desc, free, used⟩ := s
      cases free <;> rfl
    rw [rxDescAddEach, hadd, rxDescAddEach_hwDesc i n, rxDescAddEach]

theorem RxCore.Rings.addEach : ∀ (m : Nat) {s : RxCore} {u : Nat}, s.Rings h u f → u + m ≤ s.rxNDesc →
    (rxDescAddEach m s).Rings h (u + m) f
  | 0, _, _, hr, _ => hr
  | m + 1, s, u, hr, hle => by
    have hadd := (hr.add (by omega)).2
    have hn := (grspw2RxDescAdd_framed s).rxNDesc
    have hall := RxCore.Rings.addEach m hadd (by omega)
    rwa [Nat.add_right_comm, Nat.add_assoc] at hall

theorem rxDescAddEach_framed : ∀ (n : Nat) (s : RxCore), s.Framed (rxDescAddEach n s)
  | 0, s => .refl s
  | n + 1, s => (grspw2RxDescAdd_framed s).trans (rxDescAddEach_framed n _)

/-- All descriptors have been taken out of use, and their flags set. -/
def RxCore.cleared (s : RxCore) : RxCore :=
  rxDescIrqAll s.rxNDesc (grspw2RxDescClearAll { s with rxIrq := true })

theorem RxCore.cleared_eq (hnodup : s.rxDescRingUsed.Nodup) :
    s.cleared = { s with
      desc := fun i => { s.desc i with
        enable := decide (i ∉ s.rxDescRingUsed) && (s.desc i).enable
        interruptEnable := decide (i < s.rxNDesc) ||
          decide (i ∉ s.rxDescRingUsed) && (s.desc i).interruptEnable }
      rxIrq := true
      rxDescRingUsed := []
      rxDescRingFree := s.rxDescRingFree ++ s.rxDescRingUsed } := by
  rw [RxCore.cleared, rxDescIrqAll_eq, grspw2RxDescClearAll,
    rxDescClearLoop_eq _ { s with rxIrq := true } rfl hnodup]
  refine congrArg (fun desc => { s with
    desc := desc, rxIrq := true, rxDescRingUsed := []
    rxDescRingFree := s.rxDescRingFree ++ s.rxDescRingUsed }) ?_
  funext i
  by_cases hlt : i < s.rxNDesc <;> by_cases hmem : i ∈ s.rxDescRingUsed <;> simp [hlt, hmem]

theorem RxCore.Rings.nodup (hr : s.Rings h u f) : s.rxDescRingUsed.Nodup := by
  rw [hr.used]
  exact nodup_arc hr.used_le

/-- The ring when all descriptors have been taken out of use begins after those that were in use. -/
theorem RxCore.Rings.clearAll (hr : s.Rings h u f) :
    RxCore.Rings { s.cleared with hwDesc := circle s.rxNDesc h u } (circle s.rxNDesc h u) 0 0 := by
  have hpos := Nat.zero_lt_of_lt hr.head
  rw [RxCore.cleared_eq hr.nodup]
  refine ⟨circle_lt hpos, Nat.le_refl 0, Nat.zero_le _, rfl, ?_, (circle_zero (circle_lt hpos)).symm,
    ?_, fun k hk => absurd hk (Nat.not_lt_zero k), hr.last⟩
  · -- the used list goes on where the free one ends
    have hround : arc s.rxNDesc h 0 u = arc s.rxNDesc h (u + (s.rxNDesc - u)) u := by
      have hself := arc_circle (n := s.rxNDesc) (h := h) (i := s.rxNDesc) (j := 0) (m := u)
      rw [Nat.add_sub_cancel' hr.used_le]
      rwa [circle_self hr.head] at hself
    dsimp only
    rw [hr.free, hr.used, hround, arc_append, arc_circle, Nat.add_zero,
      Nat.sub_add_cancel hr.used_le, Nat.sub_zero]
  · intro k hk
    obtain ⟨j, hj, heq⟩ := exists_circle hr.head (circle_lt hpos (h := circle s.rxNDesc h u) (k := k))
    have hnone : decide (0 ≤ k ∧ k < 0) = false := decide_eq_false fun hk => Nat.not_lt_zero k hk.2
    dsimp only
    rw [← heq, hnone, hr.enable j hj]
    by_cases hju : j < u
    · have hmem : circle s.rxNDesc h j ∈ s.rxDescRingUsed := by
        rw [hr.used]
        exact mem_arc.mpr ⟨j, hju, by rw [Nat.zero_add]⟩
      rw [decide_eq_false (not_not.mpr hmem), Bool.false_and]
    · have hfree : decide (f ≤ j ∧ j < u) = false := decide_eq_false fun hin => hju hin.2
      rw [hfree, Bool.and_false]

/-- As many descriptors are put to use as the target has. -/
def routeDescs (s : RxCore) (txNDesc : Nat) : Nat := if txNDesc < s.rxNDesc then txNDesc else s.rxNDesc

theorem grspw2EnableRouting_eq (hnodup : s.rxDescRingUsed.Nodup) (txNDesc : Nat) :
    grspw2EnableRouting s txNDesc = rxDescAddEach (routeDescs s txNDesc) s.cleared := by
  have hn : (grspw2RxDescClearAll { s with rxIrq := true }).rxNDesc = s.rxNDesc := by
    rw [grspw2RxDescClearAll, rxDescClearLoop_eq _ { s with rxIrq := true } rfl hnodup]
  rw [grspw2EnableRouting, hn]
  rfl

/-- **The ring after enabling**, if the core were at its head; it is where it was. -/
theorem RxCore.Rings.enableRouting (hr : s.Rings h u f) (txNDesc : Nat) :
    RxCore.Rings { grspw2EnableRouting s txNDesc with hwDesc := circle s.rxNDesc h u }
      (circle s.rxNDesc h u) (routeDescs s txNDesc) 0 ∧
    (grspw2EnableRouting s txNDesc).hwDesc = circle s.rxNDesc h f := by
  have hle : routeDescs s txNDesc ≤ s.rxNDesc := by
    unfold routeDescs
    split <;> omega
  have hn : s.cleared.rxNDesc = s.rxNDesc := by rw [RxCore.cleared_eq hr.nodup]
  rw [grspw2EnableRouting_eq hr.nodup]
  constructor
  · have hall := hr.clearAll.addEach (routeDescs s txNDesc) (by rw [Nat.zero_add, hn]; exact hle)
    rwa [rxDescAddEach_hwDesc, Nat.zero_add] at hall
  · have hsame := rxDescAddEach_hwDesc s.cleared.hwDesc (routeDescs s txNDesc) s.cleared
    rw [hsame, RxCore.cleared_eq hr.nodup]
    exact hr.hw

theorem grspw2EnableRouting_kept (hnodup : s.rxDescRingUsed.Nodup) (txNDesc : Nat) :
    (grspw2EnableRouting s txNDesc).rxNDesc = s.rxNDesc ∧
      (grspw2EnableRouting s txNDesc).autoDrop = s.autoDrop ∧
      ∀ i, ((grspw2EnableRouting s txNDesc).desc i).pktAddr = (s.desc i).pktAddr := by
  have hframe := rxDescAddEach_framed (routeDescs s txNDesc) s.cleared
  rw [grspw2EnableRouting_eq hnodup, hframe.rxNDesc, hframe.autoDrop, RxCore.cleared_eq hnodup]
  refine ⟨rfl, rfl, fun i => ?_⟩
  have haddr := (hframe.desc i).2
  rw [RxCore.cleared_eq hnodup] at haddr
  exact haddr

/-- Where the order survives. -/
theorem RxCore.Rings.atHead_iff (hr : s.Rings h u f) :
    s.AtHead ↔ circle s.rxNDesc h u = circle s.rxNDesc h f := by
  have hpos := Nat.zero_lt_of_lt hr.head
  have hle := hr.filled_le
  have hused := hr.used_le
  have hend : circle s.rxNDesc h u = circle s.rxNDesc h f ↔ f = u ∨ (u = s.rxNDesc ∧ f = 0) := by
    by_cases hround : u = s.rxNDesc
    · have hself : circle s.rxNDesc h u = circle s.rxNDesc h 0 := by
        rw [hround, circle_self hr.head, circle_zero hr.head]
      by_cases hfull : f = s.rxNDesc
      · rw [hfull, hround]
        simp
      · rw [hself, circle_inj hpos (by omega)]
        omega
    · rw [circle_inj (by omega) (by omega)]
      omega
  have hfilled : (∀ i ∈ s.rxDescRingUsed, (s.desc i).enable = false) ↔ f = u := by
    rw [hr.used, forall_mem_arc]
    constructor
    · intro hall
      by_contra hne
      have hlast := hall f (by omega)
      rw [hr.enable f (by omega), decide_eq_true (by omega)] at hlast
      cases hlast
    · intro heq k hk
      rw [hr.enable k (by omega)]
      exact decide_eq_false (by omega)
  have hactive : (s.rxDescRingFree = [] ∧ ∀ i ∈ s.rxDescRingUsed, (s.desc i).enable = true) ↔
      u = s.rxNDesc ∧ f = 0 := by
    rw [hr.free, hr.used, forall_mem_arc, arc_eq_nil]
    constructor
    · rintro ⟨hnone, hall⟩
      have hfirst := hall 0 (by omega)
      rw [hr.enable 0 hpos] at hfirst
      exact ⟨by omega, Nat.le_zero.mp (of_decide_eq_true hfirst).1⟩
    · rintro ⟨hall, hzero⟩
      refine ⟨by omega, fun k hk => ?_⟩
      rw [hr.enable k (by omega)]
      exact decide_eq_true (by omega)
  rw [hend, RxCore.AtHead, hfilled, hactive]

end Enable

/-! ## 3. A turn, and a call -/

/-- No buffer lies at the null address. -/
def RxCore.Placed (s : RxCore) : Prop := ∀ i < s.rxNDesc, (s.desc i).pktAddr ≠ 0

theorem RxCore.Placed.framed {s s' : RxCore} (hp : s.Placed) (h : s.Framed s') : s'.Placed := by
  intro i hi
  rw [h.rxNDesc] at hi
  rw [(h.desc i).2]
  exact hp i hi

theorem moveFreeAll_idem (desc : Nat → TxDesc) : ∀ used free : List Nat,
    moveFreeAll desc (moveFreeAll desc free used).1 (moveFreeAll desc free used).2 =
      moveFreeAll desc free used
  | [], _ => rfl
  | i :: used, free => by
    by_cases henable : (desc i).enable = true
    · simp only [moveFreeAll, henable, if_true]
    · have hmoved : moveFreeAll desc free (i :: used) = moveFreeAll desc (free ++ [i]) used := by
        rw [moveFreeAll, if_neg henable]
      rw [hmoved]
      exact moveFreeAll_idem desc used (free ++ [i])

theorem grspw2TxDescMoveFreeAll_idem (s : TxCore) :
    grspw2TxDescMoveFreeAll (grspw2TxDescMoveFreeAll s) = grspw2TxDescMoveFreeAll s := by
  simp only [grspw2TxDescMoveFreeAll, moveFreeAll_idem]

/-- **What is sent is the packet**, if and only if the transmit descriptor is plain. -/
theorem sent_routed_iff {d : TxDesc} {p : RxDesc} {wrap : Bool} {old : Nat → UInt8} :
    TxDesc.sent { txDescWrite d (routedPkt p.pktAddr p.pktSize) with wrap := wrap, enable := true }
      (fun k => if k < p.pktSize then p.buf k else old k) = ⟨0, p.bytes, false, false⟩ ↔
      d.Plain p.pktSize := by
  have hdata : ((List.range (p.pktSize % 2 ^ 24)).map
      fun k => if k < p.pktSize then p.buf k else old k) = p.bytes ↔ p.pktSize < 2 ^ 24 := by
    constructor
    · intro heq
      have hlen := congrArg List.length heq
      rw [List.length_map, List.length_range, p.length_bytes] at hlen
      omega
    · intro hlt
      rw [Nat.mod_eq_of_lt hlt, RxDesc.bytes]
      exact List.map_congr_left fun k hk => if_pos (List.mem_range.mp hk)
  simp only [TxDesc.sent, txDescWrite, routedPkt, TxSent.mk.injEq, Bool.false_eq_true, false_and,
    if_false, hdata, TxDesc.Plain, Nat.zero_mod, true_and]

section Turn

variable {s : RxSys} {h u f : Nat}

/-- **A turn** does nothing, finds no transmit descriptor, or forwards the first packet. -/
theorem RxCore.Rings.turn (hr : s.rx.Rings h u f) (hp : s.rx.Placed) :
    (f = 0 ∧ grspw2RouteTurn s = (s, false)) ∨
    (∃ f', f = f' + 1 ∧ (grspw2TxDescMoveFreeAll s.tx).txDescRingFree = [] ∧
      grspw2RouteTurn s = ({ s with tx := grspw2TxDescMoveFreeAll s.tx }, false)) ∨
    ∃ f' j rest tx txBuf sent, f = f' + 1 ∧
      (grspw2TxDescMoveFreeAll s.tx).txDescRingFree = j :: rest ∧
      grspw2RouteTurn s = ({ s with
        tx := tx, txBuf := txBuf, rx := (grspw2RxDescReadd s.rx h).2
        taken := s.taken ++ [.routed (s.rx.desc h).bytes sent] }, true) ∧
      (sent = ⟨0, (s.rx.desc h).bytes, false, false⟩ ↔ (s.tx.desc j).Plain (s.rx.desc h).pktSize) := by
  unfold grspw2RouteTurn
  rcases hr.head_cases with ⟨-, hf, hnil⟩ | ⟨rest', hcons, -, henable⟩
  · rw [hnil]
    exact .inl ⟨hf, rfl⟩
  · rw [hcons]
    dsimp only
    rw [henable]
    cases f with
    | zero => exact .inl ⟨rfl, if_pos rfl⟩
    | succ f =>
      rw [if_neg (by simp)]
      rcases grspw2TxDescAddPkt_cases s.tx (routedPkt (s.rx.desc h).pktAddr (s.rx.desc h).pktSize) with
        ⟨-, ⟨hzero, -⟩ | ⟨-, hnull⟩⟩ | ⟨-, ⟨hnone, heq⟩ | ⟨j, rest, wrap, hfree, heq⟩⟩
      · exact absurd rfl hzero
      · exact absurd hnull (hp h hr.head)
      · rw [heq]
        exact .inr (.inl ⟨f, rfl, hnone, if_pos (show (-1 : Int) ≠ 0 by decide)⟩)
      · rw [heq]
        refine .inr (.inr ⟨f, j, rest, _, _, _, rfl, hfree, if_neg fun hne => hne rfl, ?_⟩)
        dsimp only
        rw [List.getLastD_concat, Function.update_self]
        exact sent_routed_iff

/-- **A call** forwards all packets that wait, or runs out of transmit descriptors. -/
theorem RxSys.Fifo.routeLoop : ∀ (n : Nat) {s : RxSys} {h f : Nat}, s.Fifo h u f → s.rx.Placed →
    f < n → (rxRouteLoop n s).received = s.received ∧
      ∃ h' f', (rxRouteLoop n s).Fifo h' u f' ∧
        (f' = 0 ∨ (grspw2TxDescMoveFreeAll (rxRouteLoop n s).tx).txDescRingFree = [])
  | 0, _, _, f, _, _, hlt => absurd hlt (Nat.not_lt_zero f)
  | n + 1, s, h, f, hi, hp, hlt => by
    unfold rxRouteLoop
    dsimp only
    rcases hi.rings.turn hp with ⟨hf, heq⟩ | ⟨f', -, hnone, heq⟩ |
      ⟨f, j, rest, tx, txBuf, sent, rfl, -, heq, -⟩
    · rw [heq, if_pos (.inl rfl)]
      exact ⟨rfl, h, f, hi, .inl hf⟩
    · rw [heq, if_pos (.inl rfl)]
      refine ⟨rfl, h, f, ⟨hi.rings, hi.pending, hi.taken, hi.mtu⟩, .inr ?_⟩
      dsimp only
      rw [grspw2TxDescMoveFreeAll_idem]
      exact hnone
    · have hnext : (grspw2RouteTurn s).1.Fifo (circle s.rx.rxNDesc h 1) u f :=
        hi.take (t := .routed _ sent) rfl s.rx.rxBytes (by rw [heq]) (by rw [heq]) (by rw [heq])
      have hplaced : (grspw2RouteTurn s).1.rx.Placed := by
        rw [heq]
        exact hp.framed (grspw2RxDescReadd_framed s.rx h)
      have hreceived : (grspw2RouteTurn s).1.received = s.received := by rw [heq]
      split
      · rename_i hend
        rcases hend with hend | hend
        · rw [heq] at hend
          cases hend
        · rw [hi.rings.used, length_arc] at hend
          have hle := hi.rings.filled_le
          exact ⟨hreceived, _, f, hnext, .inl (by omega)⟩
      · obtain ⟨hsame, hloop⟩ := RxSys.Fifo.routeLoop n hnext hplaced (by omega)
        exact ⟨hsame.trans hreceived, hloop⟩

theorem RxSys.Fifo.drains (hi : s.Fifo h u f) (hp : s.rx.Placed) :
    (grspw2RouteCall s).taken.length = s.received.length ∨
      (grspw2RouteCall s).tx.txDescRingFree = [] := by
  have hlt : f < s.rx.rxDescRingUsed.length + 1 := by
    rw [hi.rings.used, length_arc]
    exact Nat.lt_succ_of_le hi.rings.filled_le
  obtain ⟨hreceived, h', f', hloop, hend⟩ := hi.routeLoop _ hp hlt
  rcases hend with rfl | hend
  · left
    have hnone := hloop.pending
    rw [RxCore.pending, arc_zero, List.map_nil, List.drop_eq_nil_iff, hreceived] at hnone
    have hle := hloop.taken_le
    rw [hreceived] at hle
    exact Nat.le_antisymm hle hnone
  · exact .inr hend

end Turn

/-! ## 4. Runs -/

/-- The invariant while packets are routed. -/
structure RxSys.Routing (s : RxSys) : Prop where
  fifo : ∃ h u f, s.Fifo h u f
  placed : s.rx.Placed
  forwarded : s.taken = (s.received.take s.taken.length).map forwardedPkt

section Runs

variable {s s' : RxSys}

theorem RxSys.Routing.forwards (hi : s.Routing) : s.Forwards := by
  obtain ⟨h, u, f, hfifo⟩ := hi.fifo
  exact ⟨hi.forwarded, hfifo.inOrder, hfifo.drains hi.placed⟩

/-- The target does not matter. -/
theorem RxSys.Routing.target (hi : s.Routing) (tx : TxCore) : RxSys.Routing { s with tx := tx } := by
  obtain ⟨h, u, f, hfifo⟩ := hi.fifo
  exact ⟨⟨h, u, f, hfifo.rings, hfifo.pending, hfifo.taken, hfifo.mtu⟩, hi.placed, hi.forwarded⟩

theorem RxSys.Routing.receive (hi : s.Routing) (data : List UInt8) :
    (routeStep s (.receive data)).Routing := by
  obtain ⟨h, u, f, hfifo⟩ := hi.fifo
  rw [routeStep, rxStep]
  cases hrx : rxReceive s.rx data with
  | none => exact hi
  | some rx =>
    refine ⟨⟨h, u, f + 1, hfifo.receive hrx⟩, hi.placed.framed (rxReceive_framed hrx), ?_⟩
    dsimp only [Option.map_some, Option.getD_some]
    rw [List.take_append_of_le_length hfifo.taken_le]
    exact hi.forwarded

/-- **A turn forwards the packet as it is** if and only if its transmit descriptor is plain. -/
theorem RxSys.Routing.turn_iff (hi : s.Routing) :
    ((grspw2RouteTurn s).1.Forwards ↔ RouteClean s .turn) ∧
      (RouteClean s .turn → (grspw2RouteTurn s).1.Routing) := by
  obtain ⟨h, u, f, hfifo⟩ := hi.fifo
  have hr := hfifo.rings
  rcases hr.turn hi.placed with ⟨hf, heq⟩ | ⟨f, -, hnone, heq⟩ |
    ⟨f, j, rest, tx, txBuf, sent, rfl, hfree, heq, hsent⟩
  · have hclean : RouteClean s .turn := by
      intro i hmem henable
      rcases hr.head_cases with ⟨-, -, hnil⟩ | ⟨rest, hcons, -, hhead⟩
      · rw [hnil] at hmem
        cases hmem
      · rw [hcons] at hmem
        obtain rfl : h = i := Option.some.inj hmem
        rw [hhead, decide_eq_true hf] at henable
        cases henable
    rw [heq]
    exact ⟨iff_of_true hi.forwards hclean, fun _ => hi⟩
  · have hclean : RouteClean s .turn := by
      intro i _ _ j hj
      rw [hnone] at hj
      cases hj
    rw [heq]
    exact ⟨iff_of_true (hi.target _).forwards hclean, fun _ => hi.target _⟩
  · have hclean : RouteClean s .turn ↔ (s.tx.desc j).Plain (s.rx.desc h).pktSize := by
      obtain ⟨rest', hcons, henable⟩ : ∃ rest', s.rx.rxDescRingUsed = h :: rest' ∧
          (s.rx.desc h).enable = false := by
        rcases hr.head_cases with ⟨-, hzero, -⟩ | ⟨rest', hcons, -, hhead⟩
        · cases hzero
        · exact ⟨rest', hcons, hhead⟩
      rw [RouteClean, hcons, hfree]
      constructor
      · exact fun hall => hall h rfl henable j rfl
      · intro hplain i hmem _ k hk
        obtain rfl : h = i := Option.some.inj hmem
        obtain rfl : j = k := Option.some.inj hk
        exact hplain
    have hnext : (grspw2RouteTurn s).1.Fifo (circle s.rx.rxNDesc h 1) u f :=
      hfifo.take (t := .routed _ sent) rfl s.rx.rxBytes (by rw [heq]) (by rw [heq]) (by rw [heq])
    have hforwarded : (grspw2RouteTurn s).1.taken =
        ((grspw2RouteTurn s).1.received.take (grspw2RouteTurn s).1.taken.length).map forwardedPkt ↔
        RouteClean s .turn := by
      have hpending := hfifo.pending.trans (RxCore.pending_succ hr.head)
      rw [hclean, ← hsent, heq]
      dsimp only
      rw [List.length_append, List.length_singleton, take_succ_of_drop hpending, List.map_append,
        ← hi.forwarded]
      simp [forwardedPkt]
    have hinv : RouteClean s .turn → (grspw2RouteTurn s).1.Routing := by
      refine fun hok => ⟨⟨_, _, _, hnext⟩, ?_, hforwarded.mpr hok⟩
      rw [heq]
      exact hi.placed.framed (grspw2RxDescReadd_framed s.rx h)
    exact ⟨⟨fun hall => hforwarded.mp hall.forwarded, fun hok => (hinv hok).forwards⟩, hinv⟩

theorem RxSys.Routing.step_iff (hi : s.Routing) (o : RouteOp) :
    ((routeStep s o).Forwards ↔ RouteClean s o) ∧ (RouteClean s o → (routeStep s o).Routing) := by
  cases o with
  | receive data =>
    exact ⟨iff_of_true (hi.receive data).forwards trivial, fun _ => hi.receive data⟩
  | turn => exact hi.turn_iff
  | done => exact ⟨iff_of_true (hi.target _).forwards trivial, fun _ => hi.target _⟩
  | tx o => exact ⟨iff_of_true (hi.target _).forwards trivial, fun _ => hi.target _⟩

/-- What holds before routing is enabled, and whenever it has been where the order survives. -/
structure RxSys.Running (s : RxSys) : Prop where
  fifo : ∃ h u f, s.Fifo h u f
  autoDrop : s.rx.autoDrop = false
  placed : s.rx.Placed

theorem RxSys.Init.running (hs : s.Init) : s.Running := by
  refine ⟨⟨0, 0, 0, hs.fifo⟩, hs.quiet.autoDrop, ?_⟩
  obtain ⟨buf, tblSize, pktBuf, pktSize, strip, -, -, hpos, hbuf, hend, hrx, -, -⟩ := hs
  rw [hrx]
  intro i hi
  dsimp only [grspw2RxDescTableInit] at hi ⊢
  have hlt : pktBuf + i * pktSize < 2 ^ 32 := by
    rcases Nat.eq_zero_or_pos pktSize with rfl | hsize
    · rwa [Nat.mul_zero, Nat.add_zero]
    · have hmul := Nat.mul_lt_mul_of_pos_right hi hsize
      omega
  rw [wadd_of_lt hlt]
  omega

/-- **Enabling keeps the order** if and only if the core is at the new head. -/
theorem RxSys.Running.enableRouting (hi : s.Running) {tx : TxCore} (htx : 0 < tx.txNDesc)
    (txBuf : Nat → Nat → UInt8) :
    ((s.enableRouting tx txBuf).rx.rxDescRingUsed.head? = some (s.enableRouting tx txBuf).rx.hwDesc ↔
      s.rx.AtHead) ∧
    (s.rx.AtHead → (s.enableRouting tx txBuf).Running ∧ (s.enableRouting tx txBuf).Routing) := by
  obtain ⟨h, u, f, hfifo⟩ := hi.fifo
  have hr := hfifo.rings
  have hpos := Nat.zero_lt_of_lt hr.head
  obtain ⟨hrings, hhw⟩ := hr.enableRouting tx.txNDesc
  obtain ⟨hn, hauto, haddr⟩ := grspw2EnableRouting_kept hr.nodup tx.txNDesc
  constructor
  · obtain ⟨m, hm⟩ : ∃ m, routeDescs s.rx tx.txNDesc = m + 1 := by
      refine Nat.exists_eq_succ_of_ne_zero ?_
      unfold routeDescs
      split <;> omega
    have hused := hrings.used
    dsimp only at hused
    rw [hm, hn, arc_succ_left, circle_zero (circle_lt hpos)] at hused
    rw [hr.atHead_iff, RxSys.enableRouting]
    dsimp only
    rw [hused, hhw, List.head?_cons, Option.some_inj]
  · intro hhead
    have hplace : (grspw2EnableRouting s.rx tx.txNDesc).hwDesc = circle s.rx.rxNDesc h u :=
      hhw.trans (hr.atHead_iff.mp hhead).symm
    have hnew : (s.enableRouting tx txBuf).Fifo (circle s.rx.rxNDesc h u)
        (routeDescs s.rx tx.txNDesc) 0 :=
      ⟨hrings.congr rfl rfl rfl hplace fun _ => ⟨rfl, rfl⟩, rfl, .nil,
        fun p hp => absurd hp List.not_mem_nil⟩
    have hplaced : (s.enableRouting tx txBuf).rx.Placed := by
      intro i hlt
      dsimp only [RxSys.enableRouting] at hlt ⊢
      rw [hn] at hlt
      rw [haddr]
      exact hi.placed i hlt
    exact ⟨⟨⟨_, _, _, hnew⟩, hauto.trans hi.autoDrop, hplaced⟩, ⟨_, _, _, hnew⟩, hplaced, rfl⟩

theorem routingSystem_reachable (hs : routingSystem.Reachable EnablesAtHead s) : s.Running := by
  refine hs.invariant (I := RxSys.Running) (fun s (hinit : s.Init) => hinit.running) ?_
  intro s o s' hi hok hstep
  cases o with
  | rx o =>
    obtain ⟨h, u, f, hfifo⟩ := hi.fifo
    have hframe := rxStep_framed hi.autoDrop hstep
    exact ⟨hfifo.step hi.autoDrop hstep, hframe.autoDrop.trans hi.autoDrop, hi.placed.framed hframe⟩
  | enableRouting tx txBuf =>
    rw [← Option.some.inj hstep]
    exact ((hi.enableRouting hok.2 txBuf).2 hok.1).1

end Runs

/-- **Routing is enabled on a running core.** -/
theorem enable_routing_forwards_iff {s : RxSys} (hs : routingSystem.Reachable EnablesAtHead s)
    {tx : TxCore} (htx : 0 < tx.txNDesc) (txBuf : Nat → Nat → UInt8) (ops : List RouteOp) :
    ((s.enableRouting tx txBuf).rx.rxDescRingUsed.head? =
        some (s.enableRouting tx txBuf).rx.hwDesc ∧
      Along routeStep RxSys.Forwards (s.enableRouting tx txBuf) ops) ↔
      s.rx.AtHead ∧ StepsMeet routeStep RouteClean (s.enableRouting tx txBuf) ops := by
  obtain ⟨hhead, hrouting⟩ := (routingSystem_reachable hs).enableRouting htx txBuf
  rw [hhead]
  refine and_congr_right fun hok => ?_
  exact along_iff_stepsMeet (fun _ h => h.forwards) (fun _ o h => (h.step_iff o).1)
    (fun _ o h => (h.step_iff o).2) ops (hrouting hok).2

/-- Two packets are received; there is a transmit descriptor for the first one. -/
def routeSampleOps : List RouteOp := [.receive [1, 2], .turn, .receive [3], .turn, .done]

theorem enable_routing_forwards_started :
    ∃ s, s ∈ System.stepAll rxStep rxSample [.coreStart] ∧
      (s.enableRouting rxSample.tx rxSample.txBuf).rx.rxDescRingUsed.head? =
        some (s.enableRouting rxSample.tx rxSample.txBuf).rx.hwDesc ∧
      Along routeStep RxSys.Forwards (s.enableRouting rxSample.tx rxSample.txBuf) routeSampleOps := by
  have hinit : routingSystem.Reachable EnablesAtHead rxSample := .init rxSample_init
  have hstart : routingSystem.Reachable EnablesAtHead
      { rxSample with rx := grspw2CoreStart rxSample.rx } :=
    hinit.step (show EnablesAtHead rxSample (.rx .coreStart) from trivial) rfl
  refine ⟨_, rfl, ?_⟩
  refine (enable_routing_forwards_iff hstart (by decide) rxSample.txBuf routeSampleOps).mpr ⟨?_, ?_⟩
  · exact .inr ⟨rfl, by decide⟩
  · refine ⟨trivial, ?_, trivial, ?_, trivial, trivial⟩
    · intro i hi _ j hj
      obtain rfl := Option.some.inj (show some 0 = some i from hi)
      obtain rfl := Option.some.inj (show some 0 = some j from hj)
      exact ⟨by decide, rfl, rfl⟩
    · intro i _ _ j hj
      cases (show none = some j from hj)

/-- **A packet waits when routing is enabled.**  The core is behind the new head, and what it receives
from then on stays there. -/
theorem enable_routing_behind :
    ¬ ∀ (s : RxSys), rxSystem.Reachable (fun _ _ => True) s → s.rx.rxDescRingUsed ≠ [] →
      ∀ (tx : TxCore) (txBuf : Nat → Nat → UInt8), 0 < tx.txNDesc → ∀ ops : List RouteOp,
        (s.enableRouting tx txBuf).rx.rxDescRingUsed.head? =
          some (s.enableRouting tx txBuf).rx.hwDesc ∧
        Along routeStep RxSys.Forwards (s.enableRouting tx txBuf) ops := by
  intro hall
  have hinit : rxSystem.Reachable (fun _ _ => True) rxSample := .init rxSample_init
  have hwaiting := System.Reachable.stepAll [.coreStart, .receive [1]] hinit
    ⟨trivial, fun _ _ => ⟨trivial, fun _ _ => trivial⟩⟩ rfl
  exact absurd (hall _ hwaiting (by decide) rxSample.tx rxSample.txBuf (by decide) []).1 (by decide)

end FlightOs
